import Micro8086.CommandLine.Path
import Micro8086.Text.Quoted
import Micro8086.Log

/-!
# Files

Files and directories by the names on the way to them from a working directory.

* `Content`: the bytes of a file, and the log records written behind them;
* `FileError`: why an operation on a path fails;
* `Files`, `Files.found?`: what is found at a place;
* `Files.resolve`: the place that a path names;
* `Files.read`, `Files.write`, `Files.openLog`, `Files.extend`: the operations of the program.
-/

namespace Micro8086

/-- What a file holds: bytes, and behind them one line for each log record. -/
structure Content where
  bytes : Array UInt8 := #[]
  records : Array Record := #[]
  deriving DecidableEq, Inhabited

/-- The bytes that a file shows when it is read. All its records carry the same time. -/
def Content.image (c : Content) (time : String) : Array UInt8 :=
  c.records.foldl (fun bytes r => bytes ++ (r.entry time ++ "\n").toUTF8.data) c.bytes

/-- What is found at a place. -/
inductive Entry where
  | directory
  | file (content : Content)
  deriving DecidableEq, Inhabited

/-- Why the system refuses an operation. -/
inductive FileProblem where
  | notFound | alreadyExists | notDirectory | isDirectory | nameTooLong
  deriving DecidableEq

namespace FileProblem

/-- The number that the system gives a problem. -/
def number : FileProblem → Nat
  | .notFound => 2 | .alreadyExists => 17 | .notDirectory => 20 | .isDirectory => 21
  | .nameTooLong => 36

/-- The words that the system has for a problem. -/
def text : FileProblem → String
  | .notFound => "No such file or directory"
  | .alreadyExists => "File exists"
  | .notDirectory => "Not a directory"
  | .isDirectory => "Is a directory"
  | .nameTooLong => "File name too long"

end FileProblem

/-- Why an operation on a path fails. -/
inductive FileError where
  /-- The system refuses the operation on the path. -/
  | refused (problem : FileProblem) (path : Path)
  /-- The path holds a NUL, which no name of the system can hold. -/
  | nulInPath
  deriving DecidableEq

/-- The text of an error. -/
def FileError.message : FileError → String
  | .refused problem path =>
    "[Errno " ++ toString problem.number ++ "] " ++ problem.text ++ ": " ++
      Text.Quoted.encode path.text
  | .nulInPath => "embedded null byte"

/-- Files and directories by the names on the way to them. An absolute place starts with `/`, and one
that leads out of the working directory with `..`. A place that is given twice means its first
entry. -/
structure Files where
  entries : List (List String × Entry) := []
  /-- The time at which log records are written. -/
  time : String := "2000-01-01 00:00:00"
  deriving DecidableEq, Inhabited

namespace Files

/-! ## Places -/

/-- The place in which a path starts. -/
def base (p : Path) : List String := if p.anchor = "" then [] else ["/"]

/-- The place that a name leads to. -/
def step (place : List String) (name : String) : List String :=
  if name = ".." then
    match place.getLast? with
    | none | some ".." => place ++ [".."]
    | some "/" => place
    | some _ => place.dropLast
  else
    place ++ [name]

/-- The place lies on the way out of the working directory, where there are only directories. -/
def isOutward (place : List String) : Bool := place.all fun n => n = ".." || n = "/"

variable (fs : Files)

/-- What is found at a place. The way to an entry consists of directories. -/
def found? (place : List String) : Option Entry :=
  match fs.entries.lookup place with
  | some e => some e
  | none =>
    if isOutward place || fs.entries.any (fun (other, _) => place.isPrefixOf other) then
      some .directory
    else
      none

/-- Puts an entry at a place. -/
def set (place : List String) (e : Entry) : Files :=
  if fs.entries.any (fun (other, _) => other = place) then
    { fs with entries := fs.entries.map fun (other, old) => (other, if other = place then e else old) }
  else
    { fs with entries := fs.entries ++ [(place, e)] }

/-- The bytes that the longest name has. -/
def longestName : Nat := 255

/-- The bytes that the longest path has. -/
def longestPath : Nat := 4095

/-- Follows names from a place, through directories only. -/
def follow (place : List String) : List String → Except FileProblem (List String)
  | [] => .ok place
  | name :: names =>
    match fs.found? place with
    | none => .error .notFound
    | some (.file _) => .error .notDirectory
    | some .directory =>
      if name.utf8ByteSize > longestName then .error .nameTooLong
      else follow (step place name) names

/-- The place that a path names. -/
def resolve (p : Path) : Except FileProblem (List String) :=
  if p.text.utf8ByteSize > longestPath then .error .nameTooLong else fs.follow (base p) p.names

/-- A system call on a path, with its problem as an error about the path. -/
def attempt {α : Type} (p : Path) (r : Except FileProblem α) : Except FileError α :=
  if p.holdsNul then .error .nulInPath else r.mapError fun problem => .refused problem p

/-! ## Reading and writing -/

/-- The bytes of a file. -/
def read (p : Path) : Except FileError (Array UInt8) :=
  attempt p do
    match fs.found? (← fs.resolve p) with
    | none => .error .notFound
    | some .directory => .error .isDirectory
    | some (.file content) => .ok (content.image fs.time)

/-- Replaces the content of a file by bytes, or makes a new file of them. -/
def write (p : Path) (bytes : Array UInt8) : Except FileError Files :=
  attempt p do
    let place ← fs.resolve p
    match fs.found? place with
    | some .directory => .error .isDirectory
    | _ => .ok (fs.set place (.file { bytes }))

/-- Opens a file for writing behind what it holds, and makes it if there is none. An open file is known
by its place. -/
def openAppend (p : Path) : Except FileError (Files × List String) :=
  attempt p do
    let place ← fs.resolve p
    match fs.found? place with
    | some .directory => .error .isDirectory
    | some (.file _) => .ok (fs, place)
    | none => .ok (fs.set place (.file {}), place)

/-- Writes records behind an open file. -/
def extend (place : List String) (records : Array Record) : Files :=
  match fs.found? place with
  | some (.file content) =>
    fs.set place (.file { content with records := content.records ++ records })
  | _ => fs

/-! ## Directories -/

/-- Makes one directory. -/
def makeDirectory (p : Path) : Except FileError Files :=
  attempt p do
    let place ← fs.resolve p
    match fs.found? place with
    | some _ => .error .alreadyExists
    | none => .ok (fs.set place .directory)

/-- The path leads to a directory. -/
def isDirectory (p : Path) : Bool :=
  match fs.resolve p with
  | .ok place => fs.found? place = some .directory
  | .error _ => false

/-- Makes one directory, unless it is there. -/
def ensureDirectory (p : Path) : Files × Option FileError :=
  match fs.makeDirectory p with
  | .ok fs => (fs, none)
  | .error e => (fs, if fs.isDirectory p then none else some e)

/-- Makes the directory of a path, given by its names from the last to the first. When one on the way
to it is missing, that one is made before it. What was made stays when there is an error. -/
def makeDirectories (anchor : String) : List String → Files → Files × Option FileError
  | [], fs => fs.ensureDirectory ⟨anchor, []⟩
  | name :: outer, fs =>
    let p : Path := ⟨anchor, (name :: outer).reverse⟩
    match fs.makeDirectory p with
    | .error (.refused .notFound _) =>
      match makeDirectories anchor outer fs with
      | (fs, some e) => (fs, some e)
      | (fs, none) => fs.ensureDirectory p
    | _ => fs.ensureDirectory p

/-- Makes the directories on the way to a log file, and opens the file itself. -/
def openLog (p : Path) : Files × Except FileError (List String) :=
  match makeDirectories p.anchor p.parent.names.reverse fs with
  | (fs, some e) => (fs, .error e)
  | (fs, none) =>
    match fs.openAppend p with
    | .ok (fs, place) => (fs, .ok place)
    | .error e => (fs, .error e)

end Files

end Micro8086
