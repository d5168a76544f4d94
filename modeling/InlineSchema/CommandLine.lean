import InlineSchema.Files.Hoisting

/-!
# The command line

Two commands: `hoist` transforms a document, and `check` compares two. Options may stand anywhere
after the command, as `--name value` or `--name=value`; after `--` there are none. The first request
for help ends the reading of the command line.
-/

namespace InlineSchema.CommandLine

inductive Command where
  | hoist (source : String) (output : Option String) (definitions format : String)
      (jsonReport : Bool)
  | check (original transformed definitions : String)
  /-- Tells something about the program. -/
  | tell (text : String)
deriving DecidableEq, Repr

/-! ## Arguments -/

structure Arguments where
  positional : List String
  options : Entries String
  flags : List String
  /-- Is help asked for? -/
  help : Bool

/-- What a command takes: some positional arguments, flags, and options with a value. -/
structure Grammar where
  positional : Nat
  options : List String
  flags : List String
  /-- One-letter names. -/
  short : List (Char × String)

namespace Arguments

def empty : Arguments := ⟨[], [], [], false⟩

def addPositional? (g : Grammar) (a : Arguments) (arg : String) : Option Arguments :=
  if a.positional.length < g.positional then some { a with positional := a.positional ++ [arg] }
  else none

/-- An option may be given once. -/
def addOption? (a : Arguments) (name value : String) : Option Arguments :=
  if Entries.contains a.options name then none
  else some { a with options := a.options ++ [(name, value)] }

def addFlag? (a : Arguments) (name : String) : Option Arguments :=
  if name == "help" then some { a with help := true }
  else if a.flags.contains name then none
  else some { a with flags := name :: a.flags }

def option (a : Arguments) (name fallback : String) : String :=
  (Entries.get? a.options name).getD fallback

/-- A value that could be taken for an option has to be joined to its name. -/
def isValue (arg : String) : Bool := arg == "-" || !arg.startsWith "-"

def splitLong (body : List Char) : String × Option String :=
  let name := String.ofList (body.takeWhile (· != '='))
  match body.dropWhile (· != '=') with
  | [] => (name, none)
  | _ :: value => (name, some (String.ofList value))

/-- An option with the value that is joined to it, or with the argument after it. Says also whether
the latter was used. -/
def addValue? (a : Arguments) (name : String) (joined next : Option String) :
    Option (Arguments × Bool) :=
  match joined, next with
  | some value, _ => (a.addOption? name value).map (·, false)
  | none, some value => if isValue value then (a.addOption? name value).map (·, true) else none
  | none, none => none

def letters? (g : Grammar) (next : Option String) :
    Arguments → List Char → Option (Arguments × Bool)
  | a, [] => some (a, false)
  | a, letter :: rest =>
    match g.short.lookup letter with
    | none => none
    | some name =>
      if g.options.contains name then
        match rest with
        | [] => a.addValue? name none next
        | '=' :: value => a.addValue? name (some (String.ofList value)) next
        | value => a.addValue? name (some (String.ofList value)) next
      else
        match a.addFlag? name with
        | none => none
        | some a => if a.help then some (a, false) else letters? g next a rest

def dashed? (g : Grammar) (a : Arguments) (arg : String) (next : Option String) :
    Option (Arguments × Bool) :=
  match arg.toList with
  | '-' :: '-' :: body =>
    let (name, joined) := splitLong body
    if g.options.contains name then a.addValue? name joined next
    else if g.flags.contains name && joined.isNone then (a.addFlag? name).map (·, false)
    else none
  | '-' :: letters => letters? g next a letters
  | _ => none

def read? (g : Grammar) : (skip : Bool) → Arguments → List String → Option Arguments
  | _, a, [] => some a
  | true, a, _ :: args => read? g false a args
  | false, a, arg :: args =>
    if arg == "--" then args.foldlM (addPositional? g) a
    else if isValue arg then (a.addPositional? g arg).bind fun a => read? g false a args
    else
      match dashed? g a arg args.head? with
      | none => none
      | some (a, used) => if a.help then some a else read? g used a args

end Arguments

def commonFlags : List String := ["verbose", "help"]

def commonShort : List (Char × String) := [('v', "verbose"), ('h', "help")]

def hoistGrammar : Grammar :=
  ⟨1, ["output", "definitions", "format"], "json-report" :: commonFlags,
    ('o', "output") :: commonShort⟩

def checkGrammar : Grammar := ⟨2, ["definitions"], commonFlags, commonShort⟩

def defaultDefinitions : String := "components/schemas"

/-! ## Help -/

def version : String := "oas-hoist 0.3.0\n"

def help : String :=
  "Hoist inline OpenAPI schemas into named components\n\n" ++
  "Usage: oas-hoist [OPTIONS] <COMMAND>\n\n" ++
  "Commands:\n" ++
  "  hoist  Extract inline schemas and emit the verified document\n" ++
  "  check  Check that a transformed document is equivalent to its original\n" ++
  "  help   Print this message or the help of the given subcommand(s)\n\n" ++
  "Options:\n" ++
  "  -v, --verbose  Enable debug logging\n" ++
  "  -h, --help     Print help\n" ++
  "  -V, --version  Print version\n"

def hoistHelp : String :=
  "Extract inline schemas and emit the verified document\n\n" ++
  "Usage: oas-hoist hoist [OPTIONS] <SOURCE>\n\n" ++
  "Arguments:\n" ++
  "  <SOURCE>  Document source: file path or URL (http:// or https://)\n\n" ++
  "Options:\n" ++
  "  -o, --output <OUTPUT>            Output file (stdout if not specified); only written if " ++
  "verification passes\n" ++
  "  -v, --verbose                    Enable debug logging\n" ++
  "      --definitions <DEFINITIONS>  Location of the definitions table [default: " ++
  defaultDefinitions ++ "]\n" ++
  "      --format <FORMAT>            Output format: yaml (default) or json [default: yaml]\n" ++
  "      --json-report                Print the extraction report as JSON on stderr\n" ++
  "  -h, --help                       Print help\n"

def checkHelp : String :=
  "Check that a transformed document is equivalent to its original\n\n" ++
  "Usage: oas-hoist check [OPTIONS] <ORIGINAL> <TRANSFORMED>\n\n" ++
  "Arguments:\n" ++
  "  <ORIGINAL>     Original document\n" ++
  "  <TRANSFORMED>  Transformed document\n\n" ++
  "Options:\n" ++
  "      --definitions <DEFINITIONS>  Location of the definitions table [default: " ++
  defaultDefinitions ++ "]\n" ++
  "  -v, --verbose                    Enable debug logging\n" ++
  "  -h, --help                       Print help\n"

namespace Command

def hoist? (args : List String) : Option Command := do
  let a ← Arguments.read? hoistGrammar false .empty args
  if a.help then some (.tell hoistHelp)
  else
    match a.positional with
    | [source] =>
      some (.hoist source (Entries.get? a.options "output")
        (a.option "definitions" defaultDefinitions) (a.option "format" "yaml")
        (a.flags.contains "json-report"))
    | _ => none

def check? (args : List String) : Option Command := do
  let a ← Arguments.read? checkGrammar false .empty args
  if a.help then some (.tell checkHelp)
  else
    match a.positional with
    | [original, transformed] =>
      some (.check original transformed (a.option "definitions" defaultDefinitions))
    | _ => none

def ofArguments? : List String → Option Command
  | "-v" :: args => ofArguments? args
  | "--verbose" :: args => ofArguments? args
  | "-h" :: _ => some (.tell help)
  | "--help" :: _ => some (.tell help)
  | "-V" :: _ => some (.tell version)
  | "--version" :: _ => some (.tell version)
  | ["help"] => some (.tell help)
  | ["help", "hoist"] => some (.tell hoistHelp)
  | ["help", "check"] => some (.tell checkHelp)
  | "hoist" :: args => hoist? args
  | "check" :: args => check? args
  | _ => none

end Command

/-! ## Running -/

structure Outcome where
  exitCode : Nat
  stdout : String
  stderr : String
deriving DecidableEq, Repr

namespace Outcome

def failed {Fault : Type} (e : Failure Fault) : Outcome :=
  ⟨e.exitCode, "", "Error: " ++ e.message ++ "\n"⟩

def usage : Outcome :=
  ⟨2, "",
    "Usage: hoist SOURCE [-o OUTPUT] [--definitions PATH] [--format FORMAT] [--json-report]\n" ++
    "       check ORIGINAL TRANSFORMED [--definitions PATH]\n"⟩

end Outcome

def unknownFormat (name : String) : String :=
  "Error: unknown format \"" ++ name ++ "\": expected yaml or json\n"

def reportText (json : Bool) (r : Report) : String :=
  if json then r.json ++ "\n"
  else
    "Extracted " ++ toString r.count ++ " definition(s)\n" ++
      String.join (r.extracted.map fun name => "  " ++ name ++ "\n")

variable {m : Type → Type} [Monad m] [Files m] [Network m]

def runHoist (source : String) (output : Option String) (definitions format : String)
    (jsonReport : Bool) : m Outcome := do
  match Format.ofName? format with
  | none => pure ⟨2, "", unknownFormat format⟩
  | some format =>
    let o := (Options.default.withDefinitions definitions).withFormat format
    match ← Files.loadSource source with
    | .error e => pure (.failed e)
    | .ok text =>
      match output with
      | some path =>
        match ← Files.hoistTo o text path with
        | .error e => pure (.failed e)
        | .ok report => pure ⟨0, "", reportText jsonReport report⟩
      | none =>
        match hoist o text with
        | .error e => pure (.failed e)
        | .ok hoisted => pure ⟨0, hoisted.document, reportText jsonReport hoisted.report⟩

def runCheck (original transformed definitions : String) : m Outcome := do
  let o := Options.default.withDefinitions definitions
  match ← Files.loadSource original with
  | .error e => pure (.failed e)
  | .ok original =>
    match ← Files.loadSource transformed with
    | .error e => pure (.failed e)
    | .ok transformed =>
      match findDivergence o original transformed with
      | .error e => pure (.failed e)
      | .ok none => pure ⟨0, "Equivalent\n", ""⟩
      | .ok (some d) => pure ⟨1, "", "Not equivalent: " ++ d.message ++ "\n"⟩

def Command.run : Command → m Outcome
  | .hoist source output definitions format jsonReport =>
    runHoist source output definitions format jsonReport
  | .check original transformed definitions => runCheck original transformed definitions
  | .tell text => pure ⟨0, text, ""⟩

def run (args : List String) : m Outcome :=
  match Command.ofArguments? args with
  | none => pure .usage
  | some command => command.run

end InlineSchema.CommandLine
