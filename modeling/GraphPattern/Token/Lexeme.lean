import GraphPattern.Token.Basic

/-!
Lexemes. Every source is tiled by lexemes. The first character of a lexeme determines which
characters continue it, and the lexeme extends over all of them that follow, which is the
longest match.

Whether a lexeme is layout, a token or a lexical error is decided for each lexeme
separately. So the tiling is total, and errors arise only in classifying its pieces.
-/

namespace GraphPattern

/-- A first character and the characters that continue it. -/
structure Lexeme where
  first : Char
  tail : List Char
  deriving DecidableEq

namespace Lexeme

def chars (l : Lexeme) : List Char := l.first :: l.tail

def utf8Size (l : Lexeme) : Nat := utf8Length l.chars

/-- The sign that opens a comment, which goes on to the end of the line. -/
def commentSign : Char := '#'

/-- Whether `first` opens a name: the sign of a variable does, and so does the first
character of a word. -/
def opensName (first : Char) : Bool :=
  [first] == Mark.dollar.chars || isLabelStart first

/-- Which characters continue a lexeme that begins with `first`. -/
def continues (first : Char) : Char → Bool :=
  if first = commentSign then (· != '\n')
  else if opensName first then isNameChar
  else fun _ => false

end Lexeme

/-- The lexemes that tile a source. -/
def lexemes : List Char → List Lexeme
  | [] => []
  | c :: cs =>
    ⟨c, cs.takeWhile (Lexeme.continues c)⟩ :: lexemes (cs.dropWhile (Lexeme.continues c))
termination_by cs => cs.length
decreasing_by exact Nat.lt_succ_of_le (List.dropWhile_sublist _).length_le

@[simp] theorem lexemes_nil : lexemes [] = [] := by
  rw [lexemes]

theorem lexemes_cons (c : Char) (cs : List Char) :
    lexemes (c :: cs) =
      ⟨c, cs.takeWhile (Lexeme.continues c)⟩ :: lexemes (cs.dropWhile (Lexeme.continues c)) := by
  rw [lexemes]

/-- The classification of a lexeme that is no lexical error. -/
inductive Reading where
  | layout
  | token (t : Token)
  deriving DecidableEq

/-- Classifies a lexeme. The result is `none` for a lone dollar sign and for a character
that no token or layout begins with. -/
def Lexeme.reading? (l : Lexeme) : Option Reading :=
  if isBlank l.first || l.first == commentSign then some .layout
  else if isLabelStart l.first then some (.token (Token.ofWord l.chars))
  else if [l.first] == Mark.dollar.chars then
    match l.tail with
    | [] => none
    | name@(_ :: _) => some (.token (.var (Variable.ofName (String.ofList name))))
  else (Token.ofMark? l.first).map .token

end GraphPattern
