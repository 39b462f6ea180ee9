/-!
Statement kinds and their unification. A relation is a special thing, so these two kinds
unify to the relation; types belong to the schema and unify only with themselves.
-/

namespace GraphPattern

inductive Kind where
  | thing
  | relation
  | type
  deriving DecidableEq

namespace Kind

/-- The more specific of two compatible kinds; `none` if they are incompatible. -/
def unify : Kind → Kind → Option Kind
  | thing, thing => some thing
  | thing, relation => some relation
  | relation, thing => some relation
  | relation, relation => some relation
  | type, type => some type
  | _, _ => none

def text : Kind → String
  | thing => "thing"
  | relation => "relation"
  | type => "type"

/-- Unifies the kinds of a list from left to right: the kind reached after each
of them, `none` from the first clash on. -/
def unifyAll : List Kind → List (Option Kind)
  | [] => []
  | k :: ks => go (some k) ks
where
  go (reached : Option Kind) : List Kind → List (Option Kind)
    | [] => [reached]
    | k :: ks => reached :: go (reached.bind (unify · k)) ks

end Kind

end GraphPattern
