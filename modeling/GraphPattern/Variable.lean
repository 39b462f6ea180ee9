import GraphPattern.Spelling

/-!
Variables. A variable is either visible, with the name under which an answer
reports it, or anonymous. Anonymous variables carry no identity: any two are
equal.

The empty name and `_` both print as the anonymous variable does, so a name
enters through `Variable.ofName`, which never makes a visible variable of them.
-/

namespace GraphPattern

inductive Variable where
  | anonymous
  | visible (name : String)
  deriving DecidableEq

namespace Variable

/-- The variable of a given name; `_` and the empty name are anonymous. -/
def ofName (name : String) : Variable :=
  if name.toList = [] ∨ name.toList = anonymousName then anonymous else visible name

def name? : Variable → Option String
  | anonymous => none
  | visible name => some name

def isVisible : Variable → Bool
  | anonymous => false
  | visible _ => true

/-- How the variable is written: a dollar sign and its name. -/
def chars : Variable → List Char
  | anonymous => Mark.dollar.chars ++ anonymousName
  | visible name => Mark.dollar.chars ++ name.toList

def text (v : Variable) : String := String.ofList v.chars

end Variable

end GraphPattern
