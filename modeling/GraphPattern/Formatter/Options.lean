import GraphPattern.Formatter.Log

/-!
The command line of the formatter. Arguments are taken from left to right, and the first
invalid one is reported; `--help` and `--version` are answered where they are met. Behind
`--` every argument is a path, and a lone dash is a path that names the standard input.

Usage errors and their exit code are modelled. The wording of usage errors and of the help
text, which an argument-parsing library would supply, is reduced to one line and the usage
line.
-/

namespace GraphPattern.Formatter

/-- The input of the formatter. -/
inductive Input where
  | stdin
  | file (path : String)
  deriving DecidableEq

def Input.ofPath (path : String) : Input :=
  if path = "-" then .stdin else .file path

structure Options where
  input : Input
  listStatements : Bool
  listVariables : Bool
  /-- The filter on the log of validation. -/
  log : Log.Filter
  deriving DecidableEq

/-- A request made on the command line. -/
inductive Request where
  | help
  | version
  | format (options : Options)
  deriving DecidableEq

inductive UsageError where
  | unexpectedArgument (argument : String)
  | repeatedOption (option : String)
  | missingValue (option : String)
  | unexpectedValue (option : String)
  | emptyPath
  | missingPath
  deriving DecidableEq

def UsageError.message : UsageError → String
  | unexpectedArgument argument => "unexpected argument '" ++ argument ++ "'"
  | repeatedOption option => "the argument '" ++ option ++ "' cannot be used multiple times"
  | missingValue option => "a value is required for '" ++ option ++ "'"
  | unexpectedValue option => "no value is expected for '" ++ option ++ "'"
  | emptyPath => "the path of the input is empty"
  | missingPath => "the path of the input is missing"

/-- The arguments taken so far. -/
structure Arguments where
  path? : Option String := none
  listStatements : Bool := false
  listVariables : Bool := false
  logFilter? : Option String := none
  deriving DecidableEq

namespace Arguments

/-- The default of `--log-level`. -/
def defaultLogFilter : String := "warn"

/-- The request of a complete command line. -/
def finish (a : Arguments) : Except UsageError Request :=
  match a.path? with
  | none => .error .missingPath
  | some path =>
    .ok (.format {
      input := Input.ofPath path
      listStatements := a.listStatements
      listVariables := a.listVariables
      log := Log.Filter.ofText (a.logFilter?.getD defaultLogFilter) })

def takePath (a : Arguments) (path : String) : Except UsageError Arguments :=
  match a.path? with
  | some _ => .error (.unexpectedArgument path)
  | none => if path = "" then .error .emptyPath else .ok { a with path? := some path }

def takeLogFilter (a : Arguments) (text : String) : Except UsageError Arguments :=
  match a.logFilter? with
  | some _ => .error (.repeatedOption "--log-level")
  | none => .ok { a with logFilter? := some text }

def takeStatements (a : Arguments) : Except UsageError Arguments :=
  if a.listStatements then .error (.repeatedOption "--statements")
  else .ok { a with listStatements := true }

def takeVariables (a : Arguments) : Except UsageError Arguments :=
  if a.listVariables then .error (.repeatedOption "--variables")
  else .ok { a with listVariables := true }

/-- Takes the arguments behind `--`. -/
def takePaths (a : Arguments) : List String → Except UsageError Arguments
  | [] => .ok a
  | path :: rest => a.takePath path >>= (takePaths · rest)

/-- Whether an argument is written as an option. -/
def isOption (argument : String) : Bool :=
  match argument.toList with
  | '-' :: _ :: _ => true
  | _ => false

/-- Splits an argument at its first equals sign. -/
def split (argument : String) : String × Option String :=
  match argument.toList.span (· != '=') with
  | (name, []) => (String.ofList name, none)
  | (name, _ :: value) => (String.ofList name, some (String.ofList value))

/-- Takes all arguments. -/
def take (a : Arguments) : List String → Except UsageError Request
  | [] => a.finish
  | "--" :: rest => a.takePaths rest >>= finish
  | argument :: rest =>
    if isOption argument then
      match split argument, rest with
      | ("--statements", none), rest => a.takeStatements >>= (take · rest)
      | ("--variables", none), rest => a.takeVariables >>= (take · rest)
      | ("--log-level", some text), rest => a.takeLogFilter text >>= (take · rest)
      | ("--log-level", none), text :: rest =>
        if isOption text then .error (.missingValue "--log-level")
        else a.takeLogFilter text >>= (take · rest)
      | ("--log-level", none), [] => .error (.missingValue "--log-level")
      | ("--version", none), _ => .ok .version
      | ("--help", none), _ => .ok .help
      | (name, some _), _ =>
        if ["--statements", "--variables", "--version", "--help"].contains name then
          .error (.unexpectedValue name)
        else takeShort argument
      | _, _ => takeShort argument
    else a.takePath argument >>= (take · rest)
where
  /-- Takes a one-letter option. The letters behind `V` or `h` are not looked at. -/
  takeShort (argument : String) : Except UsageError Request :=
    match argument.toList with
    | _ :: 'V' :: _ => .ok .version
    | _ :: 'h' :: _ => .ok .help
    | _ => .error (.unexpectedArgument argument)

end Arguments

/-- The request of a command line. -/
def Request.ofArguments (arguments : List String) : Except UsageError Request :=
  Arguments.take {} arguments

end GraphPattern.Formatter
