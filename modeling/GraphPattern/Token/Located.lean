import GraphPattern.Token.Lexeme
import GraphPattern.Span

/-!
The lexer. Lexemes are classified from left to right, and tokens are collected with their
spans; the first lexeme that is a lexical error ends the pass and is reported by its first
character.
-/

namespace GraphPattern

/-- A token with its span. -/
structure Located where
  token : Token
  span : Span
  deriving DecidableEq

/-- A lexical error: a character that no rule of the lexer matches, with its span. -/
structure StrayCharacter where
  char : Char
  span : Span
  deriving DecidableEq

namespace StrayCharacter

def message (e : StrayCharacter) : String :=
  "Unexpected token " ++ String.ofList [e.char]

def text (e : StrayCharacter) : String :=
  e.span.text ++ ": " ++ e.message

end StrayCharacter

namespace Located

/-- The tokens of a row of lexemes of which the first begins at byte `offset`. -/
def ofLexemes (offset : Nat) : List Lexeme → Except StrayCharacter (List Located)
  | [] => .ok []
  | l :: ls =>
    match l.reading? with
    | none => .error ⟨l.first, offset, offset + l.first.utf8Size⟩
    | some .layout => ofLexemes (offset + l.utf8Size) ls
    | some (.token t) =>
      match ofLexemes (offset + l.utf8Size) ls with
      | .ok ts => .ok (⟨t, offset, offset + l.utf8Size⟩ :: ts)
      | .error e => .error e

/-- The tokens of a source. -/
def ofSource (source : String) : Except StrayCharacter (List Located) :=
  ofLexemes 0 (lexemes source.toList)

/-- Where the last of `ts` ends; the beginning of the source if there is none. -/
def endOf (ts : List Located) : Nat :=
  match ts.getLast? with
  | none => 0
  | some t => t.span.stop

end Located

end GraphPattern
