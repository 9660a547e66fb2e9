import Micro8086.CommandLine.Files

/-!
# The logger

All records go through one logger, which outlives the call that has set it up. It drops the records
below its level and hands the others to its handlers. A handler passes those of its own level or above
on to the console or to a file.

* `Sink`, `Handler`, `Logger`;
* `Delivery`: a record that a handler has passed on;
* `Logger.deliveries`: what the handlers pass on of given records;
* `Logger.store`: the files with what has been passed on to them.
-/

namespace Micro8086

/-- Where records are passed on to. A file that is open is known by its place. -/
inductive Sink where
  | console
  | file (place : List String)
  deriving DecidableEq

/-- A handler passes on the records of a level or above. -/
structure Handler where
  sink : Sink
  level : Level
  deriving DecidableEq

/-- The handler passes a record on. -/
def Handler.takes (h : Handler) (r : Record) : Bool := r.level.reaches h.level

/-- A record that was passed on. -/
structure Delivery where
  sink : Sink
  record : Record
  deriving DecidableEq

/-- The logger. Before it is set up it has no handlers. -/
structure Logger where
  level : Level := .warning
  handlers : List Handler := []
  deriving DecidableEq

namespace Logger

variable (l : Logger)

/-- The logger hands a record to its handlers. -/
def keeps (r : Record) : Bool := r.level.reaches l.level

/-- What the handlers pass on of records, one record after the other. -/
def deliveries (records : Array Record) : Array Delivery :=
  (records.filter l.keeps).flatMap fun r =>
    ((l.handlers.filter fun h => h.takes r).map fun h => ⟨h.sink, r⟩).toArray

/-- The files with what the handlers have passed on to them. -/
def store (records : Array Record) (files : Files) : Files :=
  l.handlers.foldl (fun files h =>
    match h.sink with
    | .console => files
    | .file place => files.extend place ((records.filter l.keeps).filter h.takes)) files

end Logger

end Micro8086
