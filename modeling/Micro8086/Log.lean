/-!
# Log records

* `Level`: the severities, in ascending order;
* `Source`: the parts of the program that write records, with the names they go by;
* `Record`, `Record.entry`: one record, and its text in a log file;
* `Log`: records of a threshold or above, in the order in which they were written.
-/

namespace Micro8086

/-- The severity of a record. -/
inductive Level where
  | debug | info | warning | error | critical
  deriving DecidableEq, Inhabited

namespace Level

/-- The place of a level among the severities. -/
def rank : Level → Nat
  | .debug => 0 | .info => 1 | .warning => 2 | .error => 3 | .critical => 4

/-- The name of a level. -/
def name : Level → String
  | .debug => "DEBUG" | .info => "INFO" | .warning => "WARNING" | .error => "ERROR"
  | .critical => "CRITICAL"

/-- All levels, in ascending order. -/
def all : List Level := [.debug, .info, .warning, .error, .critical]

/-- The level of a given name. -/
def ofName? (name : String) : Option Level := all.find? fun l => l.name = name

/-- The level is `threshold` or above. -/
def reaches (level threshold : Level) : Bool := threshold.rank ≤ level.rank

end Level

/-- The part of the program that writes a record. -/
inductive Source where
  | setup | decoder | emulator | runner | commandLine
  deriving DecidableEq, Inhabited

/-- The name that a part goes by. -/
def Source.name : Source → String
  | .setup => "sim8086"
  | .decoder => "sim8086.decoder"
  | .emulator => "sim8086.emulator"
  | .runner => "sim8086.runner"
  | .commandLine => "sim8086.cli"

/-- The function of a part that writes its records. -/
def Source.function : Source → String
  | .setup => "setup_logging"
  | .decoder => "build"
  | .emulator => "execute"
  | .runner => "run"
  | .commandLine => "main"

/-- One record. -/
structure Record where
  level : Level
  source : Source
  /-- The line at which the record is written, which only log files show. -/
  line : Nat
  message : String
  deriving DecidableEq, Inhabited

/-- The text of a record in a log file, written at a time. -/
def Record.entry (r : Record) (time : String) : String :=
  String.intercalate " | "
    [time, String.ofList (r.level.name.toList.rightpad 7 ' '), r.source.name,
      r.source.function ++ ":" ++ toString r.line, r.message]

/-- Records of a threshold or above. -/
structure Log where
  threshold : Level
  records : Array Record := #[]
  deriving DecidableEq

namespace Log

/-- Writes a record, unless it lies below the threshold. -/
@[inline] def write (log : Log) (level : Level) (source : Source) (line : Nat) (message : String) :
    Log :=
  if level.reaches log.threshold then
    { log with records := log.records.push ⟨level, source, line, message⟩ }
  else
    log

/-- Writes records one after the other. -/
def writeAll (log : Log) (records : List Record) : Log :=
  records.foldl (fun log r => log.write r.level r.source r.line r.message) log

end Log

end Micro8086
