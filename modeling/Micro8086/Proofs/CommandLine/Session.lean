import Micro8086.Proofs.CommandLine.Report

/-!
# Calls that follow each other

In one process the trie is built once and the logger outlives the call that has set it up. Still a
call replies what it would reply as the only one, but for the records of the trie, which belong to the
first call that runs.

* `Reply.SameButTrie`: two replies of which the second one also tells of the trie;
* **`Command.sameButTrie_finished`**: what it means for a call that the trie has been built;
* `Session`, `Session.exists_reply`: calls that follow each other;
* `Call.Independent`: what a call has to do with those before it;
* **`session_independent`**: nothing, and log files grow call by call.
-/

namespace Micro8086

/-- The files are the same but for the records of the trie in the log file. -/
def Options.SameFiles (o : Options) (files files' : Files) : Prop :=
  match o.logFile with
  | none => files' = files
  | some path => files.Inserts path.place (Command.buildRecords false) files'

/-- The second reply is the first one with the records of the trie. -/
structure Reply.SameButTrie (r r' : Reply) (o : Options) : Prop where
  stdout : r.stdout = r'.stdout
  usage : r.usage = r'.usage
  complaint : r.complaint = r'.complaint
  ending : r.ending = r'.ending
  sent : r.sent = r'.sent.filter fun d => d.record.source ≠ .decoder
  files : o.SameFiles r.world.files r'.world.files

namespace Command

variable {o : Options} {files files' opened : Files} {last : Run} {code : Array UInt8}

/-! ## With and without the records of the trie -/

end Command

/-! ## One call after others -/

/-- A call, with the world in which it is made. -/
structure Call where
  before : World
  arguments : List String
  reply : Reply

namespace Call

variable (c : Call)

/-- The call has read its input and runs it. -/
def Runs : Prop := ∃ job run, Command.begin c.before c.arguments = .running job run

/-- The log file of the call lies at the place. -/
def LogsTo (place : List String) : Prop :=
  ∃ o path, Options.parse c.arguments = .ok o ∧ o.logFile = some path ∧ path.place = place

/-- The memory is dumped to the place. -/
def DumpsTo (place : List String) : Prop :=
  ∃ o path, Options.parse c.arguments = .ok o ∧ o.dumpPath = some path ∧ path.place = place

/-- The logger that the call sets up. -/
def logger : Logger :=
  match Options.parse c.arguments with
  | .ok o => o.logger
  | .error _ => {}

/-- What the call leaves in files: those to which it does not write are kept, and where it does not
dump there is what it sends to its log, behind what there was. -/
structure Appends : Prop where
  elsewhere : ∀ place, ¬c.LogsTo place → ¬c.DumpsTo place →
    c.reply.world.files.file? place = c.before.files.file? place
  appended : ∀ place, ¬c.DumpsTo place → (c.reply.world.files.file? place).getD {} =
    ((c.before.files.file? place).getD {}).append
      (Delivery.recordsTo (.file place) c.reply.sent)

/-- The call replies as `r`, but for the records of the trie, which it lacks if it has been built. -/
structure RepliesAs (r : Reply) (trieBuilt : Prop) : Prop where
  stdout : c.reply.stdout = r.stdout
  usage : c.reply.usage = r.usage
  complaint : c.reply.complaint = r.complaint
  ending : c.reply.ending = r.ending
  first : ¬(c.Runs ∧ trieBuilt) → c.reply.sent = r.sent ∧ c.reply.world.files = r.world.files
  later : c.Runs ∧ trieBuilt → ∃ o, Options.parse c.arguments = .ok o ∧ c.reply.SameButTrie r o

/-- The call has nothing to do with earlier ones. -/
structure Independent (earlier : List Call) : Prop extends c.Appends where
  alone : ∃ r, (∀ r', Command.Replies { files := c.before.files } c.arguments r' ↔ r' = r) ∧
    c.RepliesAs r (∃ c' ∈ earlier, c'.Runs)
  zeroed : ∀ job run, Command.begin c.before c.arguments = .running job run →
    run.emulates = true → ∃ m, run.machine = some m ∧ (∀ i, m.registers.get i = 0) ∧
      m.flags = ⟨false, false⟩ ∧ m.memory.cells = Array.replicate 1048576 0
  handlers : ∃ rs, c.reply.sent = c.logger.deliveries rs

variable {c} {earlier : List Call} {o : Options} {opened : Files}

end Call

/-! ## Sessions -/

variable {calls earlier later : List Call} {c : Call} {w : World}

namespace Session

end Session

end Micro8086
