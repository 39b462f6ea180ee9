/-!
How the fixed parts of the language are spelled. Printers and readers both take
their spellings from this module, so a mark or a word is written down once and
what is printed cannot drift away from what is read.

Texts are handled as lists of characters throughout the library; a `String` is
made of one only where a value leaves it.
-/

namespace GraphPattern

/-- Punctuation, with the spaced forms that printing uses. -/
inductive Mark where
  | parenOpen
  | parenClose
  | comma
  | commaSpace
  | colon
  | colonSpace
  | semicolon
  | space
  | dollar
  deriving DecidableEq

namespace Mark

def chars : Mark → List Char
  | parenOpen => ['(']
  | parenClose => [')']
  | comma => [',']
  | commaSpace => [',', ' ']
  | colon => [':']
  | colonSpace => [':', ' ']
  | semicolon => [';']
  | space => [' ']
  | dollar => ['$']

def text (m : Mark) : String := String.ofList m.chars

end Mark

/-- The words that name a property of a statement. A relation is recognised by
its parentheses alone, so `relation` is a name for it that no source contains
as a reserved word. -/
inductive Keyword where
  | relation
  | isa
  | type
  deriving DecidableEq

namespace Keyword

def chars : Keyword → List Char
  | relation => ['r', 'e', 'l', 'a', 't', 'i', 'o', 'n']
  | isa => ['i', 's', 'a']
  | type => ['t', 'y', 'p', 'e']

def text (k : Keyword) : String := String.ofList k.chars

/-- Whether a statement may carry at most one property of this keyword. All
keywords are unique. -/
def isUnique : Keyword → Bool
  | relation | isa | type => true

theorem isUnique_eq_true (k : Keyword) : k.isUnique = true := by
  cases k <;> rfl

end Keyword

/-- The word that may introduce a pattern. -/
def matchSpelling : List Char := ['m', 'a', 't', 'c', 'h']

/-- The name under which an anonymous variable is written. -/
def anonymousName : List Char := ['_']

/-! ### Characters

The language is ASCII: of the characters beyond it none starts, continues or
separates a token, and they may stand in comments only. -/

/-- Space, tab, carriage return, line feed and form feed. -/
def isBlank (c : Char) : Bool :=
  c == ' ' || c == '\t' || c == '\r' || c == '\n' || c == '\x0c'

/-- The characters of names: ASCII letters and digits, `_` and `-`. -/
def isNameChar (c : Char) : Bool :=
  c.isAlphanum || c == '_' || c == '-'

/-- A label may not begin with a digit or `-`, a variable's name may. -/
def isLabelStart (c : Char) : Bool :=
  c.isAlpha || c == '_'

/-- The number of bytes that `cs` takes in UTF-8, in which all offsets are
counted. -/
def utf8Length : List Char → Nat
  | [] => 0
  | c :: cs => c.utf8Size + utf8Length cs

@[simp] theorem utf8Length_nil : utf8Length [] = 0 := rfl

@[simp] theorem utf8Length_cons (c : Char) (cs : List Char) :
    utf8Length (c :: cs) = c.utf8Size + utf8Length cs := rfl

@[simp] theorem utf8Length_append (cs ds : List Char) :
    utf8Length (cs ++ ds) = utf8Length cs + utf8Length ds := by
  induction cs with
  | nil => simp
  | cons c cs ih => simp [ih, Nat.add_assoc]

end GraphPattern
