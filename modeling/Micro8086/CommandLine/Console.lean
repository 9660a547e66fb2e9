import Micro8086.Text.Lines
import Micro8086.CommandLine.Columns
import Micro8086.Log

/-!
# Records on the console

A record begins with its level, filled up to eight columns, and a blank. A message of several lines
goes on below its beginning. Tabs become blanks, and control characters that would move the
cursor are left out.

* `Record.consoleLines`: the lines of a record.
-/

namespace Micro8086

/-- The control characters that the console leaves out: bell, backspace, vertical tab, form feed and
carriage return. -/
def isCursorControl (c : Char) : Bool := [7, 8, 11, 12, 13].contains c.toNat

/-- The columns before the message. -/
def Level.margin (l : Level) : List Char := l.name.toList.rightpad 8 ' ' ++ [' ']

/-- A record as lines on the console. -/
def Record.consoleLines (r : Record) : List String :=
  let lines := Text.splitLines (r.message.toList.filter fun c => !isCursorControl c)
  match lines.map Console.expandTabs with
  | [] => []
  | first :: rest =>
    let below := List.replicate r.level.margin.length ' '
    (String.ofList (r.level.margin ++ first)) :: rest.map fun line => String.ofList (below ++ line)

end Micro8086
