import GraphPattern.Automaton
import GraphPattern.Surface.Basic

/-!
Reader states. A state holds the part of a surface form that has been read, and its
transitions are the productions of the grammar. There is one automaton each for relations,
statements and patterns; the pattern reader contains a statement reader, and that one a
relation reader.
-/

namespace GraphPattern.Surface

/-! ### Relations

A variable inside the parentheses is a role if a colon follows it and a player
if not, so the decision is left to the next token. A label can only be a role. -/

inductive RelationProgress where
  /-- Before the opening parenthesis. -/
  | outside
  /-- Behind the opening parenthesis or a comma. -/
  | awaiting (players : List RolePlayer)
  /-- Behind a variable that may be a role or a player. -/
  | roleOrPlayer (players : List RolePlayer) (v : Variable)
  /-- Behind a label, which is a role. -/
  | role (players : List RolePlayer) (label : String)
  /-- Behind the colon that follows a role. -/
  | tagged (players : List RolePlayer) (role : TypeRef)
  /-- Behind a player with its role, the last of `players`. -/
  | complete (players : List RolePlayer)
  /-- Behind the closing parenthesis. -/
  | closed (players : List RolePlayer)

namespace RelationProgress

/-- Players are separated by commas, and a role is tied to its player by a
colon. -/
def step : RelationProgress → Token → Option RelationProgress
  | outside, .parenOpen => some (awaiting [])
  | awaiting players, .var v => some (roleOrPlayer players v)
  | awaiting players, .label name => some (role players name)
  | roleOrPlayer players v, .colon => some (tagged players (.var v))
  | roleOrPlayer players v, .comma => some (awaiting (players ++ [.plain v]))
  | roleOrPlayer players v, .parenClose => some (closed (players ++ [.plain v]))
  | role players name, .colon => some (tagged players (.label name))
  | tagged players r, .var v => some (complete (players ++ [.tagged r v]))
  | complete players, .comma => some (awaiting players)
  | complete players, .parenClose => some (closed players)
  | _, _ => none

/-- A relation is read once it is closed. -/
def result? : RelationProgress → Option (List RolePlayer)
  | closed players => some players
  | _ => none

end RelationProgress

/-- Reads a relation. -/
def relationReader : Automaton RelationProgress (List RolePlayer) where
  start := .outside
  step := RelationProgress.step
  result? := RelationProgress.result?

/-! ### Statements -/

inductive StatementProgress where
  /-- Before the statement. -/
  | start
  /-- Behind `isa`. -/
  | isa (s : Statement)
  /-- Behind `type`. -/
  | type (s : Statement)
  /-- Inside a relation. -/
  | relation (s : Statement) (r : RelationProgress)
  /-- Behind the subject or a property: the statement may end here. -/
  | complete (s : Statement)

namespace StatementProgress

/-- Takes the first token of a property of `s`. -/
def property (s : Statement) : Token → Option StatementProgress
  | .isaWord => some (isa s)
  | .typeWord => some (type s)
  | .parenOpen => some (relation s (.awaiting []))
  | _ => none

/-- Goes on in a relation of `s`, or behind it once it is closed. -/
def inRelation (s : Statement) : RelationProgress → StatementProgress
  | .closed players => complete (s.push (.relation players))
  | r => relation s r

/-- A statement begins with its subject or with a property; behind either of
them only properties follow. -/
def step : StatementProgress → Token → Option StatementProgress
  | start, .var v => some (complete ⟨some v, []⟩)
  | start, t => property .empty t
  | isa s, .label name => some (complete (s.push (.isa (.label name))))
  | isa s, .var v => some (complete (s.push (.isa (.var v))))
  | isa _, _ => none
  | type s, .label name => some (complete (s.push (.type name)))
  | type _, _ => none
  | relation s r, t => (r.step t).map (inRelation s)
  | complete s, t => property s t

/-- A statement is read where it may end. -/
def result? : StatementProgress → Option Statement
  | complete s => some s
  | _ => none

end StatementProgress

/-- Reads a statement, without the semicolon that closes it in a pattern. -/
def statementReader : Automaton StatementProgress Statement where
  start := .start
  step := StatementProgress.step
  result? := StatementProgress.result?

/-! ### Patterns -/

/-- The state of the pattern reader: whether `match` has been read, the statements closed so
far, and the state of the statement reader. -/
structure PatternProgress where
  introduced : Bool
  closed : List Statement
  current : StatementProgress

namespace PatternProgress

/-- The initial state. -/
def start : PatternProgress := ⟨false, [], .start⟩

/-- The introducing word is taken at the very beginning only, a semicolon only
behind a statement. -/
def step (p : PatternProgress) (t : Token) : Option PatternProgress :=
  match t with
  | .matchWord =>
    match p with
    | ⟨false, [], .start⟩ => some { p with introduced := true }
    | _ => none
  | .semicolon =>
    p.current.result?.map fun s => { p with closed := p.closed ++ [s], current := .start }
  | t => (p.current.step t).map fun c => { p with current := c }

/-- The statement that is closed by a token. Only a semicolon closes one. -/
def closes? (p : PatternProgress) : Token → Option Statement
  | .semicolon => p.current.result?
  | _ => none

/-- A pattern has at least one statement, and each is closed. -/
def result? (p : PatternProgress) : Option Pattern :=
  match p.closed, p.current with
  | _ :: _, .start => some ⟨p.introduced, p.closed⟩
  | _, _ => none

end PatternProgress

/-- Reads a pattern. -/
def patternReader : Automaton PatternProgress Pattern where
  start := .start
  step := PatternProgress.step
  result? := PatternProgress.result?

end GraphPattern.Surface
