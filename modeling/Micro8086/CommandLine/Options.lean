import Micro8086.CommandLine.Path
import Micro8086.Text.Digit
import Micro8086.Text.Quoted
import Micro8086.Log

/-!
# Options

The arguments of the program: an input, a mode that may be left out, and switches. A long switch may
be shortened as long as it is not ambiguous and may carry a value behind `=`; short switches may share
one dash. Behind `--` nothing is a switch.

The two positional arguments are taken together: a mode follows the input directly or not at all.

* `Switch`: the switches, with what the help text says of them;
* `Token`, `Token.classify`: what a single argument is;
* `Options`, `Options.parse`: what all arguments mean, or why the program stops at them;
* `Options.consoleLevel`: the severity that reaches the console.
-/

namespace Micro8086

/-- The program's name. -/
def programName : String := "sim86"

/-- The program's version. -/
def version : String := "0.1.0"

/-- A switch. -/
inductive Switch where
  | help | exec | dump | verbose | quiet | logFile | version
  deriving DecidableEq

namespace Switch

/-- The spellings of all switches, in the order in which messages list them. -/
def spellings : List (String × Switch) :=
  [("-h", .help), ("--help", .help), ("--exec", .exec), ("--dump", .dump),
    ("--verbose", .verbose), ("-v", .verbose), ("--quiet", .quiet), ("-q", .quiet),
    ("--log-file", .logFile), ("--version", .version)]

/-- All switches, in the order in which the help text lists them. -/
def all : List Switch := [.help, .exec, .dump, .verbose, .quiet, .logFile, .version]

/-- The spellings of a switch. -/
def names (s : Switch) : List String := (spellings.filter fun (_, other) => other = s).map (·.1)

/-- All spellings of a switch, as messages name it. -/
def label (s : Switch) : String := String.intercalate "/" s.names

/-- The switch has a value. -/
def takesValue : Switch → Bool
  | .dump | .logFile => true
  | _ => false

/-- All spellings of a switch, as the help text lists them. -/
def invocation (s : Switch) : String :=
  String.intercalate ", " (s.names.map fun name => if s.takesValue then name ++ " PATH" else name)

/-- What a switch is for. -/
def purpose : Switch → String
  | .help => "show this help message and exit"
  | .exec => "Execute instructions and annotate their effects"
  | .dump => "Write the emulator memory image to PATH after the run"
  | .verbose => "More log output on stderr (-v info, -vv debug)"
  | .quiet => "Only log errors"
  | .logFile => "Also write a DEBUG log to PATH"
  | .version => "show program's version number and exit"

end Switch

/-- Why the program stops at its arguments. -/
inductive Stop where
  /-- The arguments have no meaning. -/
  | usage (message : String)
  | showVersion
  | showHelp
  deriving DecidableEq

/-- A message about one switch. -/
def Stop.aboutSwitch (s : Switch) (message : String) : Stop :=
  .usage ("argument " ++ s.label ++ ": " ++ message)

/-- A value was given to a switch that has none. -/
def Stop.surplusValue (s : Switch) (value : String) : Stop :=
  aboutSwitch s ("ignored explicit argument " ++ Text.Quoted.encode value)

/-! ## Single arguments -/

/-- What a single argument is. -/
inductive Token where
  | positional (text : String)
  /-- The first `--`. -/
  | separator
  /-- A switch as it is spelled in full, with the value that is joined to it. -/
  | switch (switch : Switch) (spelling : String) (value : Option String)
  /-- A switch that is none of the program's. -/
  | unknown (text : String)
  deriving DecidableEq

namespace Token

/-- A text without a line feed at its end. -/
def withoutLineFeed (cs : List Char) : List Char :=
  if cs.getLast? = some '\n' then cs.dropLast else cs

/-- A dash and a decimal number, behind which a line feed may stand. -/
def isNegativeNumber : List Char → Bool
  | '-' :: cs =>
    match (withoutLineFeed cs).span Text.isDecimal with
    | (whole, []) => !whole.isEmpty
    | (_, '.' :: fraction) => !fraction.isEmpty && fraction.all Text.isDecimal
    | _ => false
  | _ => false

/-- A text before and behind its first `=`. -/
def splitValue (cs : List Char) : List Char × Option String :=
  match cs.span (· ≠ '=') with
  | (name, _ :: value) => (name, some (String.ofList value))
  | (name, []) => (name, none)

/-- The switches that a text can stand for: those that it begins, and for a single dash the short one
whose value it carries. -/
def candidates (cs : List Char) : List Token :=
  let begins (name : List Char) (value : Option String) :=
    Switch.spellings.filterMap fun (spelling, s) =>
      if name.isPrefixOf spelling.toList then some (.switch s spelling value) else none
  match cs with
  | '-' :: '-' :: _ => let (name, value) := splitValue cs; begins name value
  | '-' :: c :: rest =>
    Switch.spellings.filterMap fun (spelling, s) =>
      if spelling.toList = ['-', c] then
        some (.switch s spelling (some (String.ofList rest)))
      else if cs.isPrefixOf spelling.toList then
        some (.switch s spelling none)
      else
        none
  | _ => []

/-- The spelling of a switch token. -/
def spelling : Token → String
  | .switch _ spelling _ => spelling
  | .positional text | .unknown text => text
  | .separator => "--"

/-- An argument that begins with a dash and spells no switch in full. -/
def classifyRest (text : String) : Except Stop Token :=
  match candidates text.toList with
  | [t] => .ok t
  | [] =>
    if isNegativeNumber text.toList || text.toList.contains ' ' then
      .ok (.positional text)
    else
      .ok (.unknown text)
  | ts =>
    .error (.usage ("ambiguous option: " ++ text ++ " could match " ++
      String.intercalate ", " (ts.map spelling)))

/-- What an argument before the separator is. -/
def classify (text : String) : Except Stop Token :=
  match text.toList with
  | '-' :: _ :: _ =>
    match Switch.spellings.lookup text with
    | some s => .ok (.switch s text none)
    | none =>
      let (name, value) := splitValue text.toList
      let name := String.ofList name
      match value, Switch.spellings.lookup name with
      | some value, some s => .ok (.switch s name (some value))
      | _, _ => classifyRest text
  | _ => .ok (.positional text)

/-- What all arguments are. -/
def classifyAll : List String → Except Stop (List Token)
  | [] => .ok []
  | "--" :: rest => .ok (.separator :: rest.map .positional)
  | text :: rest => do
    let t ← classify text
    return t :: (← classifyAll rest)

end Token

/-! ## All arguments -/

/-- What the arguments mean. -/
structure Options where
  input : String := ""
  mode : Option String := none
  exec : Bool := false
  dump : Option Path := none
  verbose : Nat := 0
  quiet : Bool := false
  logFile : Option Path := none
  deriving DecidableEq, Inhabited

namespace Options

/-- The program executes what it decodes. -/
def emulates (o : Options) : Bool := o.exec || o.mode.isSome

/-- The severity that reaches the console. -/
def consoleLevel (o : Options) : Level :=
  if o.quiet then .error
  else if o.verbose ≥ 2 then .debug
  else if o.verbose = 1 then .info
  else .warning

/-- The path in the value of a switch. The value `--` counts as none. -/
def pathValue (value : String) : Option Path :=
  if value = "--" then none else some (Path.ofString value)

/-- A switch takes effect. -/
def apply (o : Options) (s : Switch) (value : String) : Except Stop Options :=
  match s with
  | .help => .error .showHelp
  | .version => .error .showVersion
  | .exec => .ok { o with exec := true }
  | .dump => .ok { o with dump := pathValue value }
  | .verbose => .ok { o with verbose := o.verbose + 1 }
  | .quiet => .ok { o with quiet := true }
  | .logFile => .ok { o with logFile := pathValue value }

/-- Switches take effect one after the other. -/
def applyAll (o : Options) : List Switch → Except Stop Options
  | [] => .ok o
  | s :: rest => do (← o.apply s "").applyAll rest

/-- The switches behind one dash: `s`, and those of the letters joined to it. -/
def joined (s : Switch) : List Char → Except Stop (List Switch)
  | [] => .ok [s]
  | c :: cs =>
    match Switch.spellings.lookup (String.ofList ['-', c]) with
    | some next => do return s :: (← joined next cs)
    | none => .error (.surplusValue s (String.ofList (c :: cs)))

/-- A switch without a value of its own, with the text joined to it, takes effect. -/
def applyJoined (o : Options) (s : Switch) (spelling : String) :
    Option String → Except Stop Options
  | none => o.apply s ""
  | some text =>
    if spelling.length = 2 && text ≠ "" then do
      o.applyAll (← joined s text.toList)
    else
      .error (.surplusValue s text)

/-- Reading goes on behind these tokens. -/
structure Reading where
  options : Options := {}
  /-- The input, and with it the mode, has been taken. -/
  taken : Bool := false
  /-- Arguments without a meaning. -/
  extras : List String := []

namespace Reading

/-- An argument without a meaning. -/
def extra (r : Reading) (text : String) : Reading := { r with extras := r.extras ++ [text] }

/-- The input and the mode have been found. -/
def take (r : Reading) (input : String) (mode : Option String) : Reading :=
  { r with taken := true, options := { r.options with input, mode } }

/-- The switch takes effect. -/
def switch (r : Reading) (options : Except Stop Options) : Except Stop Reading :=
  options.map fun options => { r with options }

end Reading

/-- Reads the arguments behind the separator, none of which is a switch. -/
def readPositionals (r : Reading) : List Token → Reading
  | [] => r
  | t :: rest => readPositionals (r.extra t.spelling) rest

/-- The mode behind a separator. There the text `--` leaves the mode out. -/
def modeBehind (text : String) : Option String := if text = "--" then none else some text

/-- Reads the arguments. A separator that follows a positional argument directly belongs to it. -/
def readTokens (r : Reading) : List Token → Except Stop Reading
  | [] => .ok r
  | .positional input :: rest =>
    if r.taken then
      readTokens (r.extra input) rest
    else
      match rest with
      | .positional mode :: .separator :: rest =>
        .ok (readPositionals (r.take input (some mode)) rest)
      | .positional mode :: rest => readTokens (r.take input (some mode)) rest
      | .separator :: .positional mode :: rest =>
        .ok (readPositionals (r.take input (modeBehind mode)) rest)
      | .separator :: rest => .ok (readPositionals (r.take input none) rest)
      | rest => readTokens (r.take input none) rest
  | .separator :: rest =>
    if r.taken then
      .ok (readPositionals (r.extra "--") rest)
    else
      match rest with
      | .positional input :: .positional mode :: rest =>
        .ok (readPositionals (r.take input (modeBehind mode)) rest)
      | .positional input :: rest => .ok (readPositionals (r.take input none) rest)
      | rest => .ok (readPositionals (r.extra "--") rest)
  | .unknown text :: rest => readTokens (r.extra text) rest
  | .switch s spelling value :: rest =>
    if s.takesValue then
      match value, rest with
      | some value, rest => do readTokens (← r.switch (r.options.apply s value)) rest
      | none, .positional value :: rest => do
        readTokens (← r.switch (r.options.apply s value)) rest
      | none, _ => .error (.aboutSwitch s "expected one argument")
    else do
      readTokens (← r.switch (r.options.applyJoined s spelling value)) rest

/-- What the arguments mean. -/
def parse (arguments : List String) : Except Stop Options := do
  let r ← readTokens {} (← Token.classifyAll arguments)
  if !r.taken then
    .error (.usage "the following arguments are required: input")
  else if !r.extras.isEmpty then
    .error (.usage ("unrecognized arguments: " ++ String.intercalate " " r.extras))
  else
    .ok r.options

end Options

end Micro8086
