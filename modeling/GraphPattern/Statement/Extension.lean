import GraphPattern.Statement.Equality

/-!
The builder operations on statements. A statement has at most one property of each unique
keyword: to add an equal property changes nothing, and to add a different one of the same
keyword is a conflict. Role players join the relation that is already there, so adding one
always succeeds.
-/

namespace GraphPattern

/-- A conflict between properties of one keyword: the statement before the addition, its
property, and the property to be added. -/
structure Conflict where
  statement : Statement
  existing : Property
  added : Property
  deriving DecidableEq

/-- An argument that a builder requires. -/
inductive Argument where
  | player
  | players
  deriving DecidableEq

def Argument.text : Argument → String
  | player => "player"
  | players => "players"

namespace Statement

/-- Adds a property. A unique property is compared with the statement's property of the same
keyword: an equal one changes nothing, and a different one is a conflict. -/
def addProperty (s : Statement) (p : Property) : Except Conflict Statement :=
  if p.keyword.isUnique then
    match s.properties.find? (fun q => q.keyword == p.keyword) with
    | none => .ok { s with properties := s.properties ++ [p] }
    | some q => if q = p then .ok s else .error ⟨s, q, p⟩
  else
    .ok { s with properties := s.properties ++ [p] }

/-- Adds properties from left to right. -/
def addProperties (s : Statement) : List Property → Except Conflict Statement
  | [] => .ok s
  | p :: ps =>
    match s.addProperty p with
    | .ok s' => s'.addProperties ps
    | .error e => .error e

/-- Adds an `isa` property. -/
def isa (s type : Statement) : Except Conflict Statement :=
  s.addProperty (.isa type)

/-- Adds a role player, to the relation property if there is one and as a new relation
property otherwise. -/
def addRolePlayer (s : Statement) (a : RolePlayer) : Statement :=
  { s with properties := joined s.properties }
where
  joined : List Property → List Property
    | [] => [.relation [a]]
    | .relation players :: ps => .relation (players ++ [a]) :: ps
    | p :: ps => p :: joined ps

/-- Adds a player in a given role. -/
def rel (s role player : Statement) : Statement :=
  s.addRolePlayer (.tagged role player)

/-- Adds a player without a role. -/
def relPlayer (s player : Statement) : Statement :=
  s.addRolePlayer (.plain player)

end Statement

namespace Relation

def withPlayer (r : Relation) (a : RolePlayer) : Relation :=
  ⟨r.players ++ [a]⟩

/-- Builds a relation. The list of players may be empty, but it must be given. -/
def ofPlayers? (players? : Option (List RolePlayer)) : Except Argument Relation :=
  match players? with
  | none => .error .players
  | some players => .ok ⟨players⟩

end Relation

namespace RolePlayer

/-- Builds a role player. Only the role may be absent. -/
def ofParts? (role? player? : Option Statement) : Except Argument RolePlayer :=
  match player? with
  | none => .error .player
  | some player => .ok (ofRole? role? player)

end RolePlayer

end GraphPattern
