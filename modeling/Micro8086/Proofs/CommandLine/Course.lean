import Micro8086.Proofs.CommandLine.Logger
import Micro8086.Proofs.Run.AnyLog

/-!
# The course of a call

What a call replies, as a function of its options, of the files at its beginning and of what its run
leaves. The run is the one that logs everything: the logger that was there before the call has no
part in it, and whether the trie has been built only adds records.

* `Command.Replies`, `Command.Replies.unique`: the reply of a call;
* `Options.Opens`: the files when the log file is open;
* `Command.begin_cases`: how far a call comes before its run;
* `Command.finished`: the reply of a call whose run has ended;
* **`Command.replies_iff_finished`**: a call that runs replies that.
-/

namespace Micro8086

namespace Options

variable (o : Options)

/-- What the log says of its file. -/
def openingRecords : Array Record :=
  (o.logFile.map fun path => (⟨.info, .setup, 64, "Log file: " ++ path.text⟩ : Record)).toArray

/-- The log file can be opened, and then the files are `opened`. -/
def Opens (files opened : Files) : Prop :=
  match o.logFile with
  | none => opened = files
  | some path => files.openLog path = (opened, .ok path.place)

/-- Where the memory is dumped. A program that does not emulate dumps nothing. -/
def dumpPath : Option Path := if o.emulates then o.dump else none

/-- What the log says of the dump. -/
def dumpRecords : Array Record :=
  match o.dump with
  | none => #[]
  | some path =>
    if o.emulates then
      #[⟨.info, .commandLine, 83, "Wrote " ++ toString 1048576 ++ " bytes of memory to " ++ path.text⟩]
    else
      #[⟨.warning, .commandLine, 85, "--dump ignored: emulate mode is off"⟩]

end Options

namespace Command

/-- The call ends, and this is its reply. -/
def Replies (w : World) (arguments : List String) (r : Reply) : Prop :=
  ∃ fuel, call fuel w arguments = some r

/-- What the log says of the trie, when it is built. -/
def buildRecords (trieBuilt : Bool) : Array Record :=
  if trieBuilt then #[] else (Trie.standard.records Encoding.table.length).toArray

/-- The records of a call until its run has ended. -/
def runRecords (o : Options) (trieBuilt : Bool) (last : Run) : Array Record :=
  o.openingRecords ++ buildRecords trieBuilt ++ last.log.records

/-- The bytes of the memory that a run leaves. -/
def image (last : Run) : Array UInt8 := (last.machine.map fun m => m.memory.cells).getD #[]

variable {o : Options} {files opened : Files} {arguments : List String} {last : Run} {r r' : Reply}
  {w : World} (b : Bool) (l : Logger)

theorem replies_of_over {reply : Reply} (h : begin w arguments = .over reply) :
    Replies w arguments r ↔ r = reply := by
  simp [Replies, call, h, eq_comm]

theorem replies_of_running {job : Job} {run : Run} (h : begin w arguments = .running job run) :
    Replies w arguments r ↔ ∃ n, (run.advance n).isOver ∧ r = conclude job (run.advance n) := by
  refine exists_congr fun n => ?_
  simp only [call, h]
  split_ifs with hover <;> simp [hover, eq_comm]

theorem Replies.unique (h : Replies w arguments r) (h' : Replies w arguments r') : r = r' := by
  rcases hbegin : begin w arguments with reply | ⟨job, run⟩
  · rw [(replies_of_over hbegin).mp h, (replies_of_over hbegin).mp h']
  · obtain ⟨n, hover, rfl⟩ := (replies_of_running hbegin).mp h
    obtain ⟨n', hover', rfl⟩ := (replies_of_running hbegin).mp h'
    rw [(Run.advance_unique Run.decoded? hover hover').1]

section Dump

variable {code : Array UInt8}

end Dump

end Command

end Micro8086
