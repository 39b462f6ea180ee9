import GraphPattern.Error
import GraphPattern.Surface.Progress

/-!
The parsers. The whole source is lexed first. Then an automaton reads a surface form off the
tokens, and the result is the value that the form denotes; patterns and statements are
validated last.

Lexical errors therefore precede syntax errors, and kind clashes come last. A conflict
between properties is raised where its statement ends. In a pattern that is the semicolon,
so the conflict precedes a syntax error further on.
-/

namespace GraphPattern

/-- The lexer stage of a parser. -/
def tokensOf (source : String) : Except Error (List Located) :=
  (Located.ofSource source).mapError .strayCharacter

/-- The syntax error of an automaton that has stopped while reading `ts`. -/
def Automaton.unexpected {σ α : Type} (m : Automaton σ α) (ts : List Located) (stop : Stop σ) :
    Error :=
  match stop.rest with
  | t :: _ => .unexpectedToken t (m.expected stop.state)
  | [] => .unexpectedEnd (Located.endOf ts) (m.expected stop.state)

namespace Pattern

/-- Reads on from the state `p`, whose closed statements denote `settled`. A statement is
given its meaning when its semicolon is taken, and a conflict is returned at once, before
the next token is looked at. -/
def readOn (ts : List Located) (p : Surface.PatternProgress) (settled : List Statement) :
    List Located → Except Error Pattern
  | [] =>
    match Surface.patternReader.result? p with
    | some _ => .ok ⟨settled⟩
    | none => .error (Surface.patternReader.unexpected ts ⟨p, []⟩)
  | t :: rest =>
    match Surface.patternReader.step p t.token with
    | none => .error (Surface.patternReader.unexpected ts ⟨p, t :: rest⟩)
    | some next =>
      match p.closes? t.token with
      | none => readOn ts next settled rest
      | some s =>
        match s.meaning with
        | .error c => .error (.conflict c)
        | .ok s' => readOn ts next (settled ++ [s']) rest

/-- Reads a pattern off its tokens, without validation. -/
def ofTokens (ts : List Located) : Except Error Pattern :=
  readOn ts Surface.patternReader.start [] ts

/-- Lexes and reads a pattern, without validation. -/
def read (source : String) : Except Error Pattern :=
  tokensOf source >>= ofTokens

/-- The pattern parser. -/
def parse (source : String) : Except Error Pattern := do
  let p ← read source
  p.validate.mapError .clash
  pure p

end Pattern

namespace Statement

/-- Reads a statement off its tokens, without validation. -/
def ofTokens (ts : List Located) : Except Error Statement :=
  match Surface.statementReader.run ts with
  | .ok s => s.meaning.mapError .conflict
  | .error stop => .error (Surface.statementReader.unexpected ts stop)

/-- The statement parser. No semicolon closes the statement. -/
def parse (source : String) : Except Error Statement := do
  let s ← tokensOf source >>= ofTokens
  s.validate.mapError .clash
  pure s

end Statement

namespace Relation

/-- Reads a relation off its tokens. -/
def ofTokens (ts : List Located) : Except Error Relation :=
  match Surface.relationReader.run ts with
  | .ok players => .ok ⟨players.map Surface.RolePlayer.meaning⟩
  | .error stop => .error (Surface.relationReader.unexpected ts stop)

/-- The relation parser. A relation on its own is not validated. -/
def parse (source : String) : Except Error Relation :=
  tokensOf source >>= ofTokens

end Relation

end GraphPattern
