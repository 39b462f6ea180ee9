import GraphPattern.Token.Located
import GraphPattern.Pattern
import GraphPattern.Statement.Extension

/-!
Errors of reading, assembling and checking values. An error is a structured cause; its
message is computed from the cause in one place.
-/

namespace GraphPattern

inductive Error where
  /-- A part that must be given is absent. -/
  | missingArgument (argument : Argument)
  /-- A character of the source belongs to no token. -/
  | strayCharacter (cause : StrayCharacter)
  /-- A token stands where only `expected` may. -/
  | unexpectedToken (found : Located) (expected : List Terminal)
  /-- The source ends, at byte `offset`, where `expected` must follow. -/
  | unexpectedEnd (offset : Nat) (expected : List Terminal)
  /-- The parser error for an invalid token at byte `offset`. -/
  | invalidToken (offset : Nat)
  /-- The parser error for a token behind a complete value. -/
  | trailingToken (found : Located)
  /-- Two properties of one keyword differ. -/
  | conflict (cause : Conflict)
  /-- A property does not fit the kind of its statement. -/
  | clash (cause : Clash)
  deriving DecidableEq

namespace Error

/-- The source span of a lexical or syntax error. Errors about values have none. -/
def span? : Error → Option Span
  | strayCharacter cause => some cause.span
  | unexpectedToken found _ => some found.span
  | unexpectedEnd offset _ | invalidToken offset => some ⟨offset, offset⟩
  | trailingToken found => some found.span
  | missingArgument _ | conflict _ | clash _ => none

/-- The list of expected terminals that ends the message of a syntax error. -/
def expectation (expected : List Terminal) : String :=
  ", expected one of " ++ ", ".intercalate (expected.map Terminal.text)

/-- Values are quoted between grave accents. -/
def quoted (text : String) : String := "`" ++ text ++ "`"

/-- The message of an error. Those of lexical and syntax errors begin with the span. -/
def message : Error → String
  | missingArgument a => "Invalid argument: " ++ quoted a.text ++ " must be present"
  | strayCharacter e => "Lexical error at " ++ e.span.text ++ ": " ++ e.message
  | unexpectedToken t expected =>
    "Parse error at " ++ t.span.text ++ ": unexpected " ++ quoted t.token.text ++
      expectation expected
  | unexpectedEnd offset expected =>
    "Parse error at " ++ (Span.mk offset offset).text ++ ": unexpected end of input" ++
      expectation expected
  | invalidToken offset =>
    "Parse error at " ++ (Span.mk offset offset).text ++ ": invalid token"
  | trailingToken t =>
    "Parse error at " ++ t.span.text ++ ": unexpected trailing " ++ quoted t.token.text
  | conflict c =>
    "Statement " ++ quoted c.statement.text ++ " has conflicting properties: " ++
      quoted c.existing.text ++ " and " ++ quoted c.added.text
  | clash c =>
    "Property " ++ quoted c.property.text ++ " cannot be attached to " ++ c.kind.text ++
      " statement " ++ quoted c.statement.text

end Error

end GraphPattern
