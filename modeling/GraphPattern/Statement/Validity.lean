import GraphPattern.Statement.Equality
import GraphPattern.Statement.Walk

/-!
Validation. Every property requires a kind of its statement, and the kinds that the
properties of a statement require must unify; a statement without properties is a thing. A
statement is valid if this holds of it and of every statement nested in it. The error that
is reported is that of the first offender in walk order.
-/

namespace GraphPattern

/-- A kind clash: a property whose kind does not unify with `kind`, the kind folded from the
properties before it. -/
structure Clash where
  statement : Statement
  kind : Kind
  property : Property
  deriving DecidableEq

namespace Statement

/-- Folds the kinds of the properties `ps` of `s` into the kind `reached`. -/
def kindFrom (s : Statement) (reached : Kind) : List Property → Except Clash Kind
  | [] => .ok reached
  | p :: ps =>
    match reached.unify p.kind with
    | some k => s.kindFrom k ps
    | none => .error ⟨s, reached, p⟩

/-- The kind of a statement. -/
def kind (s : Statement) : Except Clash Kind :=
  match s.properties with
  | [] => .ok .thing
  | p :: ps => s.kindFrom p.kind ps

/-- The kind clash within a statement, nested statements apart. -/
def clash? (s : Statement) : Option Clash :=
  match s.kind with
  | .ok _ => none
  | .error e => some e

/-- The first kind clash among some statements. -/
def validateAll (ss : List Statement) : Except Clash Unit :=
  match ss.findSome? clash? with
  | none => .ok ()
  | some e => .error e

/-- The statements before the first kind clash, each with its kind. -/
def passing : List Statement → List (Statement × Kind)
  | [] => []
  | s :: ss =>
    match s.kind with
    | .ok k => (s, k) :: passing ss
    | .error _ => []

/-- Validates a statement and every statement nested in it. -/
def validate (s : Statement) : Except Clash Unit := validateAll s.innerStatements

end Statement

end GraphPattern
