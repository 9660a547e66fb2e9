import Micro8086.CommandLine.Command
import Std.Time.Format

/-!
# The program

The outermost layer: the files that the arguments name are read, the command is called on them, and
what it leaves is printed and written.
-/

namespace Micro8086.Main

/-- The text of a place. -/
def placeText : List String → String
  | "/" :: names => "/" ++ String.intercalate "/" names
  | names => String.intercalate "/" names

/-- What the system has at a place. -/
def load (place : List String) : IO (Option Entry) := do
  match ← (IO.FS.readBinFile (placeText place)).toBaseIO with
  | .ok bytes => return some (.file { bytes := bytes.data })
  | .error (.inappropriateType ..) => return some .directory
  | .error _ => return none

/-- The entries on the way along names. -/
def loadAlong (fs : Files) (place : List String) : List String → IO Files
  | [] => return fs
  | name :: names => do
    let next := Files.step place name
    match ← load next with
    | some e => loadAlong (fs.set next e) next names
    | none => return fs

/-- The time as log files show it. -/
def now : IO String := do
  return (← Std.Time.PlainDateTime.now).format "uuuu-MM-dd HH:mm:ss"

/-- The entries on the way to the paths that the options name. -/
def loadFiles (o : Options) : IO Files := do
  let paths := [some (Path.ofString o.input), o.dump, o.logFile].filterMap id
  paths.foldlM (fun fs p => loadAlong fs (Files.base p) p.names) { time := ← now }

/-- Writes the content of a file, of which the old content may be the beginning. -/
def store (path : String) (time : String) (old new : Content) : IO Unit := do
  unless old.bytes = new.bytes do
    IO.FS.writeBinFile path ⟨new.bytes⟩
  let handle ← IO.FS.Handle.mk path .append
  for r in new.records do
    handle.putStrLn (r.entry time)

/-- Writes what a call has changed. -/
def storeFiles (old new : Files) : IO Unit := do
  for (place, e) in new.entries do
    match e, old.found? place with
    | .directory, some _ => pure ()
    | .directory, none => IO.FS.createDirAll (placeText place)
    | .file content, some (.file before) =>
      unless content = before do store (placeText place) new.time before content
    | .file content, _ => store (placeText place) new.time {} content

/-- Runs to the end and prints the lines as they come. The number of printed lines is returned. -/
partial def follow (run : Run) (shown : Nat) : IO (Run × Nat) := do
  for line in run.lines.extract shown run.lines.size do
    IO.println line
  if run.isOver then
    return (run, run.lines.size)
  else
    follow (run.advance 256) run.lines.size

/-- Prints the rest of a reply and gives the exit code. -/
def report (old : Files) (r : Reply) (shown : Nat) : IO UInt32 := do
  for line in r.stdout.extract shown r.stdout.size do
    IO.println line
  for line in r.usage ++ r.stderr do
    IO.eprintln line
  storeFiles old r.world.files
  match r.ending with
  | .exit code => return code.toUInt32
  | .fileError e => IO.eprintln e.message; return 1
  | .fault _ => return 1

end Micro8086.Main

open Micro8086 Micro8086.Main in
/-- Calls the command once. -/
def main (arguments : List String) : IO UInt32 := do
  let files ← match Options.parse arguments with
    | .error _ => pure {}
    | .ok o => loadFiles o
  match Command.begin { files } arguments with
  | .over r => report files r 0
  | .running job run =>
    let (run, shown) ← follow run 0
    report files (Command.conclude job run) shown
