import GraphPattern.Variable
import GraphPattern.Kind

/-!
Statements. A statement constrains one variable, its subject, by a list of properties: a
relation between role players, the type it is an instance of, or the label of the type it
is. Types, roles and players are statements themselves, so values nest without a bound. A
label on its own stands for the anonymous statement whose only property is that type label.

Equality of statements depends on the order of properties, and of the players in a relation.
-/

namespace GraphPattern

mutual

/-- A subject and the properties that constrain it. -/
structure Statement where
  subject : Variable
  properties : List Property

/-- A property of the subject of a statement. -/
inductive Property where
  | relation (players : List RolePlayer)
  | isa (type : Statement)
  | type (label : String)

/-- A player of a relation, tagged with its role or plain. -/
inductive RolePlayer where
  | plain (player : Statement)
  | tagged (role player : Statement)

end

/-- A relation on its own, as the ordered list of its role players. One without players can
be built, but no source parses as it. -/
structure Relation where
  players : List RolePlayer

/-! ### Role players -/

namespace RolePlayer

def role? : RolePlayer → Option Statement
  | plain _ => none
  | tagged role _ => some role

def player : RolePlayer → Statement
  | plain player => player
  | tagged _ player => player

/-- The player with the role it plays, if one is given. -/
def ofRole? (role? : Option Statement) (player : Statement) : RolePlayer :=
  match role? with
  | none => plain player
  | some role => tagged role player

/-- The statements that a role player refers to, the player before its role. -/
def statements : RolePlayer → List Statement
  | plain player => [player]
  | tagged role player => [player, role]

end RolePlayer

/-! ### Properties -/

namespace Property

def keyword : Property → Keyword
  | relation _ => .relation
  | isa _ => .isa
  | type _ => .type

/-- The kind of statement that may own the property. -/
def kind : Property → Kind
  | relation _ => .relation
  | isa _ => .thing
  | type _ => .type

/-- The statements that a property refers to, in the order of the walk. -/
def statements : Property → List Statement
  | relation players => players.flatMap RolePlayer.statements
  | isa t => [t]
  | type _ => []

/-- The statements that a property refers to as types or roles. -/
def types : Property → List Statement
  | relation players => players.filterMap RolePlayer.role?
  | isa t => [t]
  | type _ => []

def relation? : Property → Option Relation
  | relation players => some ⟨players⟩
  | isa _ => none
  | type _ => none

def typeLabel? : Property → Option String
  | relation _ => none
  | isa _ => none
  | type label => some label

theorem typeLabel?_eq_some_iff {p : Property} {label : String} :
    p.typeLabel? = some label ↔ p = .type label := by
  cases p <;> simp [typeLabel?]

end Property

namespace Relation

def toProperty (r : Relation) : Property := .relation r.players

/-- The roles that are given, in the order of their players. -/
def roles (r : Relation) : List Statement := r.toProperty.types

/-- Every statement that the relation refers to, each player before its role. -/
def statements (r : Relation) : List Statement := r.toProperty.statements

end Relation

/-! ### Statements -/

namespace Statement

/-- The statement that a variable forms without properties. -/
def bare (v : Variable) : Statement := ⟨v, []⟩

/-- A bare variable, given by name. -/
def ofName (name : String) : Statement := bare (Variable.ofName name)

def anonymous : Statement := bare .anonymous

/-- A type or a role that is referred to by its label. -/
def ofLabel (label : String) : Statement := ⟨.anonymous, [.type label]⟩

/-- The first relation property of the statement, as a relation. -/
def relation? (s : Statement) : Option Relation := s.properties.findSome? Property.relation?

/-- The label of the first `type` property of the statement. -/
def typeLabel? (s : Statement) : Option String := s.properties.findSome? Property.typeLabel?

/-- The child statements, property by property. -/
def children (s : Statement) : List Statement := s.properties.flatMap Property.statements

end Statement

end GraphPattern
