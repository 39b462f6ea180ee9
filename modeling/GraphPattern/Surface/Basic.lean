import GraphPattern.Token.Basic
import GraphPattern.Pattern
import GraphPattern.Statement.Extension

/-!
Surface forms, the syntax trees of the grammar. They are flat: a role or a type is a label
or a variable, and a player is a variable. A form records whether the subject is written and
keeps repeated properties.

The meaning of a form is the statement or pattern it denotes. It is partial on statements,
because a form may contain two different properties of one keyword.
-/

namespace GraphPattern.Surface

/-- A reference to a type or a role. -/
inductive TypeRef where
  | label (name : String)
  | var (v : Variable)
  deriving DecidableEq

inductive RolePlayer where
  | plain (player : Variable)
  | tagged (role : TypeRef) (player : Variable)
  deriving DecidableEq

inductive Property where
  | relation (players : List RolePlayer)
  | isa (type : TypeRef)
  | type (label : String)
  deriving DecidableEq

/-- A statement in surface form. The subject is absent if it is not written. -/
structure Statement where
  subject? : Option Variable
  properties : List Property
  deriving DecidableEq

/-- A pattern in surface form, with the introducing word or without it. -/
structure Pattern where
  introduced : Bool
  statements : List Statement
  deriving DecidableEq

/-! ### Tokens

The tokens that a surface form consists of. -/

def TypeRef.tokens : TypeRef → List Token
  | label name => [.label name]
  | var v => [.var v]

def RolePlayer.tokens : RolePlayer → List Token
  | plain player => [.var player]
  | tagged role player => role.tokens ++ [.colon, .var player]

def Property.tokens : Property → List Token
  | relation players =>
    .parenOpen :: [Token.comma].intercalate (players.map RolePlayer.tokens) ++ [.parenClose]
  | isa t => .isaWord :: t.tokens
  | type label => [.typeWord, .label label]

def Statement.tokens (s : Statement) : List Token :=
  s.subject?.toList.map .var ++ s.properties.flatMap Property.tokens

def Pattern.tokens (p : Pattern) : List Token :=
  (if p.introduced then [.matchWord] else []) ++
    p.statements.flatMap fun s => s.tokens ++ [.semicolon]

/-! ### Meaning -/

def TypeRef.meaning : TypeRef → GraphPattern.Statement
  | label name => .ofLabel name
  | var v => .bare v

def RolePlayer.meaning : RolePlayer → GraphPattern.RolePlayer
  | plain player => .plain (.bare player)
  | tagged role player => .tagged role.meaning (.bare player)

def Property.meaning : Property → GraphPattern.Property
  | relation players => .relation (players.map RolePlayer.meaning)
  | isa t => .isa t.meaning
  | type label => .type label

/-- The subject of the denoted statement. An omitted subject is anonymous. -/
def Statement.subject (s : Statement) : Variable :=
  s.subject?.getD .anonymous

def Statement.meaning (s : Statement) : Except Conflict GraphPattern.Statement :=
  (GraphPattern.Statement.bare s.subject).addProperties (s.properties.map Property.meaning)

/-- The meanings of statements in order, or the first conflict among them. -/
def meanings : List Statement → Except Conflict (List GraphPattern.Statement)
  | [] => .ok []
  | s :: ss =>
    match s.meaning with
    | .error e => .error e
    | .ok s' =>
      match meanings ss with
      | .error e => .error e
      | .ok ss' => .ok (s' :: ss')

def Pattern.meaning (p : Pattern) : Except Conflict GraphPattern.Pattern :=
  (meanings p.statements).map GraphPattern.Pattern.mk

/-! ### Extending a statement -/

/-- The empty form, which a reader starts from. -/
def Statement.empty : Statement := ⟨none, []⟩

/-- The form with one more property at the end. -/
def Statement.push (s : Statement) (p : Property) : Statement :=
  { s with properties := s.properties ++ [p] }

end GraphPattern.Surface
