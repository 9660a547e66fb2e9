import Micro8086.CommandLine.Call
import Micro8086.CommandLine.Console

/-!
# The command

What a call prints, as a console shows it.

* `Reply.stderr`: the lines on the console, behind those of `Reply.usage`.
-/

namespace Micro8086

/-- The lines on the console: the records that were passed on to it, and a complaint. -/
def Reply.stderr (r : Reply) : Array String :=
  (r.sent.filter fun d => d.sink = .console).flatMap (fun d => d.record.consoleLines.toArray) ++
    r.complaint

end Micro8086
