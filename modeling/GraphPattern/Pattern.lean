import GraphPattern.Statement.Text
import GraphPattern.Statement.Validity

/-!
Patterns, which are conjunctions of statements. A variable name denotes the same thing in
all statements of a pattern, so visible variables are listed once each, in the order of
their first occurrence.
-/

namespace GraphPattern

structure Pattern where
  statements : List Statement
  deriving DecidableEq

namespace Pattern

/-- The printed pattern. Each statement is closed by a semicolon. -/
def chars (p : Pattern) : List Char :=
  Mark.space.chars.intercalate (p.statements.map fun s => s.chars ++ Mark.semicolon.chars)

def text (p : Pattern) : String := String.ofList p.chars

/-- All statements of the pattern and those nested in them. -/
def innerStatements (p : Pattern) : List Statement :=
  p.statements.flatMap Statement.innerStatements

/-- The visible variables of the pattern, in the order of their first occurrence. -/
def visibleVariables (p : Pattern) : List Variable :=
  (p.statements.flatMap Statement.visibleVariables).eraseDups

def validate (p : Pattern) : Except Clash Unit :=
  Statement.validateAll p.innerStatements

end Pattern

end GraphPattern
