import Micro8086.CommandLine.Logger
import Micro8086.CommandLine.Options
import Micro8086.Run
import Micro8086.Text.Lines
import Micro8086.Trie.Shadow

/-!
# Calls

One call of the program: the arguments are read, the logger is set up, the input is run, and at the end
the memory is dumped if that was asked for. Calls follow each other in a `World`. Since a run need not
end, a call has two halves with the run between them.

* `World`: the files, whether the decoding trie has been built, which the log says once, and the logger;
* `Reply`: what a call leaves;
* `Command.setUp`: new handlers for the logger;
* `Command.begin`: a call up to its run;
* `Command.conclude`: the rest of it;
* `Command.call`: the whole call, if its run ends within a number of steps.
-/

namespace Micro8086

/-- What calls share. -/
structure World where
  files : Files := {}
  trieBuilt : Bool := false
  logger : Logger := {}

/-- Records go to the handlers of the logger. -/
def World.log (w : World) (records : Array Record) : World × Array Delivery :=
  ({ w with files := w.logger.store records w.files }, w.logger.deliveries records)

/-- How a call ends. -/
inductive Ending where
  | exit (code : Nat)
  /-- A file cannot be opened or written. -/
  | fileError (error : FileError)
  /-- The run has broken off. -/
  | fault (fault : Fault)
  deriving DecidableEq

/-- What a call leaves. -/
structure Reply where
  stdout : Array String := #[]
  /-- The records that the handlers have passed on. -/
  sent : Array Delivery := #[]
  /-- The lines on how the program is called, before a complaint about arguments. -/
  usage : Array String := #[]
  /-- The lines that follow the records on the console. -/
  complaint : Array String := #[]
  ending : Ending
  world : World

namespace Command

/-- A call whose run is under way. -/
structure Job where
  options : Options
  world : World
  /-- The records that the handlers have passed on before the run. -/
  sent : Array Delivery

/-- How far a call has come. -/
inductive Stage where
  | over (reply : Reply)
  | running (job : Job) (run : Run)

/-- The lines on how the program is called, on a console of eighty columns. -/
def usage : Array String :=
  #["usage: " ++ programName ++ " [-h] [--exec] [--dump PATH] [--verbose] [--quiet]",
    "             [--log-file PATH] [--version]",
    "             input [mode]"]

/-- An argument and what it is for. -/
def helpRow (argument purpose : String) : String :=
  "  " ++ String.ofList (argument.toList.rightpad 15 ' ') ++ "  " ++ purpose

/-- The help text. -/
def helpText : Array String :=
  usage ++
    #["", "8086 subset decoder and micro-emulator", "", "positional arguments:",
      helpRow "input" "Raw 8086 machine code file",
      helpRow "mode" "Any value enables emulate mode (e.g. 'exec')", "", "options:"] ++
    (Switch.all.map fun s => helpRow s.invocation s.purpose).toArray

/-- The reply to arguments at which the program stops. -/
def stopReply (w : World) : Stop → Reply
  | .usage message =>
    { usage
      complaint := (Text.lines (programName ++ ": error: " ++ message)).toArray
      ending := .exit 2
      world := w }
  | .showVersion =>
    { stdout := #[programName ++ " " ++ version], ending := .exit 0, world := w }
  | .showHelp => { stdout := helpText, ending := .exit 0, world := w }

/-- The severity from which records are kept: a log file gets all of them. -/
def threshold (o : Options) : Level := if o.logFile.isSome then .debug else o.consoleLevel

/-- The handler of the console. -/
def consoleHandler (o : Options) : Handler := ⟨.console, o.consoleLevel⟩

/-- Puts new handlers in the place of those that the logger has. A log file is opened, and the log says
so. -/
def setUp (w : World) (o : Options) : World × Array Delivery × Option FileError :=
  let logger : Logger := ⟨threshold o, [consoleHandler o]⟩
  match o.logFile with
  | none => ({ w with logger }, #[], none)
  | some path =>
    match w.files.openLog path with
    | (files, .error e) => ({ w with files, logger }, #[], some e)
    | (files, .ok place) =>
      let logger := { logger with handlers := logger.handlers ++ [⟨.file place, .debug⟩] }
      let (w, sent) := { w with files, logger }.log #[⟨.info, .setup, 64, "Log file: " ++ path.text⟩]
      (w, sent, none)

/-- The reply when the input cannot be read. That the system refuses it is reported; a path that holds
a NUL is not even tried. -/
def unreadable (w : World) (o : Options) (sent : Array Delivery) (e : FileError) : Reply :=
  match e with
  | .refused .. =>
    { sent
      complaint := (Text.lines ("Error: cannot read " ++ o.input ++ ": " ++ e.message)).toArray
      ending := .exit 1
      world := w }
  | .nulInPath => { sent, ending := .fileError e, world := w }

/-- A call with the given options, up to its run. -/
def beginRun (w : World) (o : Options) : Stage :=
  match setUp w o with
  | (w, sent, some e) => .over { sent, ending := .fileError e, world := w }
  | (w, sent, none) =>
    match w.files.read (Path.ofString o.input) with
    | .error e => .over (unreadable w o sent e)
    | .ok code =>
      let log : Log := { threshold := w.logger.level }
      let log := if w.trieBuilt then log
        else log.writeAll (Trie.standard.records Encoding.table.length)
      .running ⟨o, { w with trieBuilt := true }, sent⟩
        (Run.start .standard code o.emulates none log)

/-- A call up to its run. -/
def begin (w : World) (arguments : List String) : Stage :=
  match Options.parse arguments with
  | .error stop => .over (stopReply w stop)
  | .ok o => beginRun w o

/-! ## The end of a call -/

/-- The exit code of a run: `0` when the code was exhausted. -/
def exitCode : Phase → Nat
  | .exhausted => 0
  | _ => 1

/-- Dumps the memory, if that was asked for. The log says so. -/
def dump (o : Options) (files : Files) (run : Run) : Except FileError (Files × Array Record) :=
  match o.dump, run.emulates, run.machine with
  | none, _, _ => .ok (files, #[])
  | some path, true, some m =>
    (files.write path m.memory.cells).map fun files =>
      (files, #[⟨.info, .commandLine, 83,
        "Wrote " ++ toString m.memory.size ++ " bytes of memory to " ++ path.text⟩])
  | some _, _, _ =>
    .ok (files, #[⟨.warning, .commandLine, 85, "--dump ignored: emulate mode is off"⟩])

/-- A call from the end of its run on. -/
def conclude (job : Job) (run : Run) : Reply :=
  let run := run.finish
  let (w, sent) := job.world.log run.log.records
  let sent := job.sent ++ sent
  match run.phase with
  | .broken fault => { stdout := run.lines, sent, ending := .fault fault, world := w }
  | phase =>
    match dump job.options w.files run with
    | .error e => { stdout := run.lines, sent, ending := .fileError e, world := w }
    | .ok (files, records) =>
      let (w, last) := { w with files }.log records
      { stdout := run.lines, sent := sent ++ last, ending := .exit (exitCode phase), world := w }

/-- A call whose run takes at most `fuel` steps. -/
def call (fuel : Nat) (w : World) (arguments : List String) : Option Reply :=
  match begin w arguments with
  | .over reply => some reply
  | .running job run =>
    let run := run.advance fuel
    if run.isOver then some (conclude job run) else none

end Command

end Micro8086
