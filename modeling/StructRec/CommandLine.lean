import StructRec.Interchange.Reading
import StructRec.Interchange.Writing
import StructRec.Json.Reader
import StructRec.Json.Writer
import StructRec.Pipeline
import StructRec.Printer.Sentence

/-!
# StructRec — the command line

Two commands read a module from a file: `convert` turns it into sentences, `deps` prints the
components of its declarations. `Command.parse?` reads the arguments. `Command.run` is the whole
program but for the input and output: it takes the text of the input file and tells what to write
where.

Options may stand before and after the file. An option with a value takes it from the next argument
or after an equals sign, flags of one letter may be joined, and no option may be given twice. After
`--` nothing is an option. Arguments are read in order, and the first that is wrong or asks for help
decides.
-/

namespace StructRec

namespace CommandLine

inductive Format where
  | text
  | json
deriving DecidableEq

/-- Options of `convert`. -/
inductive Opt where
  | output
  | format
  | names
  | keepGoing
  | verbose
  | help
deriving DecidableEq

namespace Opt

def ofLong? : String → Option Opt
  | "output" => some output
  | "format" => some format
  | "names" => some names
  | "keep-going" => some keepGoing
  | "verbose" => some verbose
  | "help" => some help
  | _ => none

def ofShort? : Char → Option Opt
  | 'o' => some output
  | 'f' => some format
  | 'v' => some verbose
  | 'h' => some help
  | _ => none

def takesValue : Opt → Bool
  | output | format | names => true
  | keepGoing | verbose | help => false

end Opt

structure ConvertOptions where
  output : Option String := none
  format : Format := .text
  spelling : Spelling := .source
  keepGoing : Bool := false
  verbose : Bool := false
deriving DecidableEq

inductive Command where
  | convert (input : String) (options : ConvertOptions)
  | deps (input : String)
  | help
deriving DecidableEq

/-! ## Arguments -/

/-- Why reading the arguments stops. -/
inductive Stop where
  /-- They are not used as they should. -/
  | misuse
  /-- They ask for help. -/
  | help
deriving DecidableEq

/-- What the arguments give so far. -/
structure Scanned where
  options : ConvertOptions := {}
  /-- The options given, none of them twice. -/
  given : List Opt := []
  file : Option String := none

def Format.ofString? : String → Option Format
  | "text" => some .text
  | "json" => some .json
  | _ => none

def spellingOfString? : String → Option Spelling
  | "source" => some .source
  | "target" => some .target
  | _ => none

/-- Take an option over. The value of a flag does not matter. -/
def ConvertOptions.set? (o : ConvertOptions) (value : String) : Opt → Option ConvertOptions
  | .output => if value.isEmpty then none else some { o with output := some value }
  | .format => (Format.ofString? value).map ({ o with format := · })
  | .names => (spellingOfString? value).map ({ o with spelling := · })
  | .keepGoing => some { o with keepGoing := true }
  | .verbose => some { o with verbose := true }
  | .help => none

namespace Scanned

/-- Take an option over, unless it was given before. The first option that asks for help ends the
reading. -/
def addOption (s : Scanned) (opt : Opt) (value : String) : Except Stop Scanned :=
  if opt = .help then .error .help
  else if opt ∈ s.given then .error .misuse
  else
    match s.options.set? value opt with
    | some options => .ok { s with options, given := opt :: s.given }
    | none => .error .misuse

/-- Take the input file over; there is only one. -/
def addFile (s : Scanned) (file : String) : Except Stop Scanned :=
  if s.file.isSome || file.isEmpty then .error .misuse else .ok { s with file := some file }

/-- Options of one letter, joined. A value may follow its letter directly or after an equals sign.
The result includes an option that still waits for its value. -/
def addShort (known : Opt → Bool) (s : Scanned) : List Char → Except Stop (Scanned × Option Opt)
  | [] => .ok (s, none)
  | c :: rest =>
    match (Opt.ofShort? c).filter known with
    | none => .error .misuse
    | some opt =>
      if opt.takesValue then
        match rest with
        | [] => .ok (s, some opt)
        | '=' :: value | value => do return (← s.addOption opt (String.ofList value), none)
      else do addShort known (← s.addOption opt "") rest

/-- An option by its long name. The result includes the option if it still waits for its value. -/
def addLong (known : Opt → Bool) (s : Scanned) (text : List Char) :
    Except Stop (Scanned × Option Opt) :=
  let (name, attached) := text.span (· ≠ '=')
  match (Opt.ofLong? (String.ofList name)).filter known, attached with
  | none, _ => .error .misuse
  | some opt, [] =>
    if opt.takesValue then .ok (s, some opt) else do return (← s.addOption opt "", none)
  | some opt, _ :: value =>
    if opt.takesValue then do
      return (← s.addOption opt (String.ofList value), none) else .error .misuse

/-- An argument before `--`. -/
def addArgument (known : Opt → Bool) (s : Scanned) (text : String) :
    Except Stop (Scanned × Option Opt) :=
  match text.toList with
  | '-' :: '-' :: name => s.addLong known name
  | '-' :: c :: rest => s.addShort known (c :: rest)
  | _ => do return (← s.addFile text, none)

/-- Whether an argument can be the value of the option before it. -/
def canBeValue (text : String) : Bool :=
  match text.toList with
  | '-' :: _ :: _ => false
  | _ => true

/-- Read arguments in order, up to the first that is wrong or asks for help. -/
def addAll (known : Opt → Bool) : Scanned → List String → Except Stop Scanned
  | s, [] => .ok s
  | s, "--" :: rest => rest.foldlM addFile s
  | s, text :: rest => do
    match ← s.addArgument known text, rest with
    | (s, none), rest => addAll known s rest
    | (_, some _), [] => .error .misuse
    | (s, some opt), value :: rest =>
      if canBeValue value then addAll known (← s.addOption opt value) rest else .error .misuse

end Scanned

/-- Read the arguments of a command that knows some of the options and takes a file. -/
def Command.parseWith? (known : Opt → Bool) (ofFile : String → ConvertOptions → Command)
    (args : List String) : Option Command :=
  match Scanned.addAll known {} args with
  | .ok { options, file := some file, .. } => some (ofFile file options)
  | .ok { file := none, .. } | .error .misuse => none
  | .error .help => some .help

/-- Read the arguments of the program; none if they are not used as they should. -/
def Command.parse? : List String → Option Command
  | "convert" :: args => parseWith? (fun _ => true) convert args
  | "deps" :: args => parseWith? (· = .help) (fun file _ => deps file) args
  | ["help"] | ["help", "convert"] | ["help", "deps"] | ["help", "help"] => some .help
  | "-h" :: _ | "--help" :: _ => some .help
  | _ => none

/-! ## Running -/

/-- Why the program fails. -/
inductive ProgramError where
  /-- The file cannot be read. -/
  | unreadableFile
  /-- The text is not that of a module. -/
  | invalidJson
  | compilation (diagnostic : Diagnostic)
  /-- Some components were skipped. -/
  | components (diagnostics : List Diagnostic)
  | fault (bug : Bug)

/-- What the program does. -/
structure Outcome where
  stdout : String := ""
  /-- A file to write, and its text. -/
  file : Option (String × String) := none
  /-- The stages that were run, if they are to be told. -/
  stages : List String := []
  warnings : List Warning := []
  errors : List Diagnostic := []
  failure : Option ProgramError := none

/-- How deep the text of a module may be nested. -/
def nestingLimit : Nat := 127

/-- Read a module from its text. -/
def readModule? (text : String) : Option Module := do
  Module.ofJson? .namedOrListed (← Json.read? (some nestingLimit) text)

def loadModule (text : Option String) : Except ProgramError Module :=
  match text with
  | none => .error .unreadableFile
  | some text =>
    match readModule? text with
    | none => .error .invalidJson
    | some m => .ok m

def ProgramError.ofFailure : Failure → ProgramError
  | .error diagnostic => .compilation diagnostic
  | .bug bug => .fault bug

def renderSentences (options : ConvertOptions) (sentences : List Sentence) : String :=
  match options.format with
  | .text => Sentence.renderAll options.spelling sentences
  | .json => (Json.arr (Sentence.allToJson sentences)).pretty ++ "\n"

/-- Convert the module in a file with this text. -/
def runConvert (options : ConvertOptions) (text : Option String) : Outcome :=
  let told := fun stages : List String => if options.verbose then stages else []
  match loadModule text with
  | .error failure => { stages := told ["load"], failure := some failure }
  | .ok m =>
    let (ordered, session) := m.order.run {}
    match ordered.register session with
    | .error failure session =>
      { stages := told ["load", "order"], warnings := session.warnings,
        failure := some (.ofFailure failure) }
    | .ok () session =>
      let ((), session) := ordered.classify.run session
      let stages := told ["load", "order", "partiality", "convert"]
      match ordered.convert options.keepGoing session with
      | .error failure session =>
        { stages, warnings := session.warnings, failure := some (.ofFailure failure) }
      | .ok conversion session =>
        let rendered := renderSentences options conversion.sentences
        { stdout := if options.output.isNone then rendered else ""
          file := options.output.map (·, rendered)
          stages, warnings := session.warnings, errors := conversion.errors
          failure := if conversion.isOk then none else some (.components conversion.errors) }

/-- A component as `deps` prints it. -/
def describeComponent {α : Type} [Declaration α] (c : Component α) : String :=
  "  " ++ (if c.isRecursive then "recursive" else "non-recursive")
    ++ " [" ++ commaSeparated c.names ++ "]\n"

/-- Print the components of the module in a file with this text. -/
def runDeps (text : Option String) : Outcome :=
  match loadModule text with
  | .error failure => { failure := some failure }
  | .ok m =>
    let (ordered, session) := m.order.run {}
    { stdout := "types:\n" ++ String.join (ordered.typeComponents.map describeComponent)
        ++ "functions:\n" ++ String.join (ordered.funcComponents.map describeComponent)
      warnings := session.warnings }

def usage : String :=
  "Usage: structrec convert [OPTIONS] <FILE>\n" ++
  "       structrec deps <FILE>\n\n" ++
  "Orders declarations and makes recursive functions structurally recursive\n\n" ++
  "Options of convert:\n" ++
  "  -o, --output <FILE>    Output file (defaults to stdout)\n" ++
  "  -f, --format <FORMAT>  Output format: text (default) or json\n" ++
  "      --names <NAMES>    Spelling of names in text output: source (default) or target\n" ++
  "      --keep-going       Continue after a component failed and report all errors\n" ++
  "  -v, --verbose          Print the stages of the conversion\n" ++
  "  -h, --help             Print help\n"

/-- The input file of a command. -/
def Command.input? : Command → Option String
  | convert input _ | deps input => some input
  | help => none

/-- Run a command on the text of its input file, if that can be read. -/
def Command.run (text : Option String) : Command → Outcome
  | convert _ options => runConvert options text
  | deps _ => runDeps text
  | help => { stdout := usage }

end CommandLine

end StructRec
