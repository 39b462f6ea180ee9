import GraphPattern.Token.Located

/-!
Deterministic automata over tokens. The grammar of the language is regular:
parentheses do not nest and nothing else brackets. So whatever can be written is
read by an automaton that looks at one token at a time and never goes back.

An automaton stops where its input ends or at the first token that its state
cannot take. What could have stood there need not be written down anywhere: it
is the list of the terminals that the state does take.
-/

namespace GraphPattern

/-- States of type `σ` and results of type `α`. A state that cannot take a token
has no next one, and only a state that may be the last has a result. -/
structure Automaton (σ α : Type) where
  start : σ
  step : σ → Token → Option σ
  result? : σ → Option α

/-- Where an automaton stopped without a result: the state it had reached and
the tokens it had not taken. -/
structure Stop (σ : Type) where
  state : σ
  rest : List Located

namespace Automaton

variable {σ α : Type}

/-- Takes tokens for as long as it can: the state reached and the tokens left. -/
def advance (m : Automaton σ α) (s : σ) : List Located → σ × List Located
  | [] => (s, [])
  | t :: ts =>
    match m.step s t.token with
    | some s' => m.advance s' ts
    | none => (s, t :: ts)

/-- Reads all of `ts`. -/
def run (m : Automaton σ α) (ts : List Located) : Except (Stop σ) α :=
  match m.advance m.start ts with
  | (s, []) =>
    match m.result? s with
    | some a => .ok a
    | none => .error ⟨s, []⟩
  | (s, t :: rest) => .error ⟨s, t :: rest⟩

/-- The terminals that a state takes. One token stands for all of its class:
names and labels go into a result, but no automaton here looks at them to decide
what it takes. -/
def expected (m : Automaton σ α) (s : σ) : List Terminal :=
  Terminal.all.filter fun t => (m.step s t.sample).isSome

theorem mem_expected {m : Automaton σ α} {s : σ} {t : Terminal} :
    t ∈ m.expected s ↔ (m.step s t.sample).isSome := by
  simp [expected, Terminal.mem_all]

@[simp] theorem advance_nil (m : Automaton σ α) (s : σ) : m.advance s [] = (s, []) := rfl

theorem advance_cons (m : Automaton σ α) (s : σ) (t : Located) (ts : List Located) :
    m.advance s (t :: ts) =
      match m.step s t.token with
      | some s' => m.advance s' ts
      | none => (s, t :: ts) := rfl

end Automaton

end GraphPattern
