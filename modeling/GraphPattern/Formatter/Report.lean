import GraphPattern.Formatter.Options
import GraphPattern.Parse

/-!
Reports of the formatter. A report is computed from the bytes of the input: the text of the
pattern on the first line, and on request its inner statements and its variables, one line
each. If the input does not parse, the standard output is empty and the error is reported
with its line and column.
-/

namespace GraphPattern.Formatter

/-- The name under which the command answers. -/
def commandName : String := "graql-fmt"

def version : String := "0.1.0"

structure Report where
  exitCode : Nat
  stdout : String
  stderr : String
  deriving DecidableEq

/-- The concatenation of lines, each closed by a line feed. -/
def unlines : List String → String
  | [] => ""
  | line :: lines => line ++ "\n" ++ unlines lines

/-! ### Listings -/

/-- `text` with enough blanks in front of it to be `width` characters long. -/
def alignedRight (width : Nat) (text : String) : String :=
  String.ofList (List.replicate (width - text.length) ' ') ++ text

/-- The inner statements of a pattern, numbered from zero. -/
def statementLines (p : Pattern) : List String :=
  "" :: "Statements:" ::
    p.innerStatements.zipIdx.map fun (s, i) => alignedRight 4 (toString i) ++ ": " ++ s.text

def variableLines (p : Pattern) : List String :=
  "" :: "Variables:" :: p.visibleVariables.map fun v => "  " ++ v.text

def outputLines (o : Options) (p : Pattern) : List String :=
  p.text :: (if o.listStatements then statementLines p else []) ++
    (if o.listVariables then variableLines p else [])

/-! ### Log -/

/-- The record of a statement that passes validation. -/
def passedRecord (s : Statement) (k : Kind) : Log.Record :=
  ⟨"graql_lang::validate", "validated statement", [("statement", s.text), ("kind", k.text)]⟩

/-- The record of a pattern that has been parsed. -/
def parsedRecord (p : Pattern) : Log.Record :=
  ⟨"graql_lang::parser", "parsed pattern", [("statements", toString p.statements.length)]⟩

/-- The log records of a parse: the inner statements that pass validation, and the size of
the pattern if all of them pass. -/
def logRecords (source : String) : List Log.Record :=
  match Pattern.read source with
  | .error _ => []
  | .ok p =>
    (Statement.passing p.innerStatements).map (fun (s, k) => passedRecord s k) ++
      match p.validate with
      | .error _ => []
      | .ok () => [parsedRecord p]

/-! ### Errors -/

/-- A failure to read the input: a system error with its text and code, or bytes that are
not UTF-8. -/
inductive ReadFailure where
  | system (text : String) (code : Nat)
  | notText
  deriving DecidableEq

namespace ReadFailure

def text : ReadFailure → String
  | system text code => text ++ " (os error " ++ toString code ++ ")"
  | notText => "stream did not contain valid UTF-8"

end ReadFailure

def Input.text : Input → String
  | stdin => "stdin"
  | file path => "file '" ++ path ++ "'"

def readFailureLine (input : Input) (f : ReadFailure) : String :=
  "Error reading " ++ input.text ++ ": " ++ f.text

/-- The printed position of an error, line and column if it has a span. -/
def place (source : String) (e : Error) : String :=
  match e.span?.bind (·.positions? source) with
  | some (start, _) => toString start.line ++ ":" ++ toString start.column
  | none => "unknown position"

def errorLine (source : String) (e : Error) : String :=
  place source e ++ ": " ++ e.message

/-! ### Reports -/

/-- The report for a source. -/
def reportOn (o : Options) (source : String) : Report :=
  let log := (o.log.select (logRecords source)).map Log.Record.text
  match Pattern.parse source with
  | .ok p => ⟨0, unlines (outputLines o p), unlines log⟩
  | .error e => ⟨1, "", unlines (log ++ [errorLine source e])⟩

/-- The report for the outcome of reading the input. -/
def report (o : Options) (content : Except ReadFailure ByteArray) : Report :=
  match content with
  | .error f => ⟨1, "", unlines [readFailureLine o.input f]⟩
  | .ok bytes =>
    match String.fromUTF8? bytes with
    | none => ⟨1, "", unlines [readFailureLine o.input .notText]⟩
    | some source => reportOn o source

def versionReport : Report :=
  ⟨0, unlines [commandName ++ " " ++ version], ""⟩

def usageLine : String :=
  "Usage: " ++ commandName ++ " [--statements] [--variables] [--log-level LEVEL] PATH"

def helpReport : Report :=
  ⟨0, unlines [usageLine], ""⟩

def usageReport (e : UsageError) : Report :=
  ⟨2, "", unlines ["error: " ++ e.message, "", usageLine]⟩

end GraphPattern.Formatter
