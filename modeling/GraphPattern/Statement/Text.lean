import GraphPattern.Statement.Basic

/-!
Printing of statements. The properties follow the subject, separated by single spaces; an
anonymous subject is omitted in front of a property. A nested statement is printed in short
form if it has one: a bare variable as such, and the anonymous statement whose only property
is a type label as that label.

The recursion runs over the properties and the role players, and the short form of a nested
statement is assembled from the texts of its properties, so that each node is printed once.
-/

namespace GraphPattern

/-- Every one of `texts` after a space. -/
def spaced (texts : List (List Char)) : List Char :=
  texts.flatMap (Mark.space.chars ++ ·)

/-- The full form of a statement, from its subject and the texts of its properties. -/
def fullForm (subject : Variable) (texts : List (List Char)) : List Char :=
  match subject, texts with
  | .anonymous, first :: rest => first ++ spaced rest
  | v, texts => v.chars ++ spaced texts

/-- The short form of a statement, from its subject, its properties and their texts. -/
def shortForm (subject : Variable) (properties : List Property) (texts : List (List Char)) :
    List Char :=
  match subject, properties with
  | .anonymous, [.type label] => label.toList
  | v, _ => fullForm v texts

mutual

/-- The short form of a statement, which is printed inside other statements. -/
def Statement.shortChars : Statement → List Char
  | ⟨v, ps⟩ => shortForm v ps (Property.charsList ps)

/-- The printed property, with its keyword; a relation has parentheses instead. -/
def Property.chars : Property → List Char
  | .relation players =>
    Mark.parenOpen.chars ++ Mark.commaSpace.chars.intercalate (RolePlayer.charsList players) ++
      Mark.parenClose.chars
  | .isa type => Keyword.isa.chars ++ Mark.space.chars ++ type.shortChars
  | .type label => Keyword.type.chars ++ Mark.space.chars ++ label.toList

/-- The printed role player: a role and a colon, if there is a role, and the player. -/
def RolePlayer.chars : RolePlayer → List Char
  | .plain player => player.shortChars
  | .tagged role player => role.shortChars ++ Mark.colonSpace.chars ++ player.shortChars

def Property.charsList : List Property → List (List Char)
  | [] => []
  | p :: ps => p.chars :: Property.charsList ps

def RolePlayer.charsList : List RolePlayer → List (List Char)
  | [] => []
  | a :: as => a.chars :: RolePlayer.charsList as

end

theorem Property.charsList_eq_map (ps : List Property) :
    Property.charsList ps = ps.map Property.chars := by
  induction ps with
  | nil => rfl
  | cons p ps ih => rw [Property.charsList, List.map_cons, ih]

theorem RolePlayer.charsList_eq_map (as : List RolePlayer) :
    RolePlayer.charsList as = as.map RolePlayer.chars := by
  induction as with
  | nil => rfl
  | cons a as ih => rw [RolePlayer.charsList, List.map_cons, ih]

namespace Statement

/-- The full form of a statement. -/
def chars (s : Statement) : List Char :=
  fullForm s.subject (s.properties.map Property.chars)

def text (s : Statement) : String := String.ofList s.chars

/-- The short form as a string. -/
def shortText (s : Statement) : String := String.ofList s.shortChars

theorem shortChars_eq (s : Statement) :
    s.shortChars = shortForm s.subject s.properties (s.properties.map Property.chars) := by
  obtain ⟨v, ps⟩ := s
  simp only [shortChars, Property.charsList_eq_map]

@[simp] theorem shortChars_bare (v : Variable) : (bare v).shortChars = v.chars := by
  cases v <;> simp [shortChars_eq, bare, shortForm, fullForm, spaced]

@[simp] theorem shortChars_ofLabel (label : String) : (ofLabel label).shortChars = label.toList :=
  rfl

end Statement

namespace Property

def text (p : Property) : String := String.ofList p.chars

/-- The property without its keyword. -/
def body : Property → String
  | isa t => t.shortText
  | type label => label
  | p => p.text

end Property

namespace RolePlayer

def text (a : RolePlayer) : String := String.ofList a.chars

end RolePlayer

namespace Relation

def chars (r : Relation) : List Char := r.toProperty.chars

def text (r : Relation) : String := r.toProperty.text

end Relation

end GraphPattern
