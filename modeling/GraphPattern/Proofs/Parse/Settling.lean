import GraphPattern.Proofs.Parse.Stages
import GraphPattern.Proofs.Surface.Meaning

/-!
The one-pass pattern reader. `Pattern.readOn` gives each statement its meaning when its
semicolon is taken, and a conflict ends the pass. The automaton `patternReader` knows the
grammar only, and recognition is proved of it alone. It may run past a conflict, but then it
only closes further statements; so the conflict that ends the pass is the first one among
the statements that the automaton has closed when it stops.
-/

namespace GraphPattern

/-- The error of a pattern reader that has stopped: the first conflict among the closed
statements, or else the syntax error. -/
def Pattern.failure (ts : List Located) (stop : Stop Surface.PatternProgress) : Error :=
  match Surface.meanings stop.state.closed with
  | .error c => .conflict c
  | .ok _ => Surface.patternReader.unexpected ts stop

namespace Surface

/-! ### Closed statements -/

namespace PatternProgress

/-- A step appends the statement named by `closes?` to the closed statements. -/
theorem closed_of_step {p p' : PatternProgress} {t : Token} (h : p.step t = some p') :
    p'.closed = p.closed ++ (p.closes? t).toList := by
  obtain ⟨introduced, closed, current⟩ := p
  cases t with
  | matchWord =>
      cases introduced <;> cases closed <;> cases current <;> cases h
      rfl
  | semicolon =>
      obtain ⟨s, hs, rfl⟩ := Option.map_eq_some_iff.mp h
      rw [closes?, hs]
      rfl
  | _ =>
      obtain ⟨current', -, rfl⟩ := Option.map_eq_some_iff.mp h
      exact (List.append_nil closed).symm

theorem statements_of_result? {p : PatternProgress} {f : Pattern} (h : p.result? = some f) :
    f.statements = p.closed := by
  obtain ⟨introduced, closed, current⟩ := p
  cases closed <;> cases current <;> cases h
  rfl

end PatternProgress

/-- Reading on only appends to the closed statements. -/
theorem closed_prefix_advance (p : PatternProgress) (ts : List Located) :
    p.closed <+: (patternReader.advance p ts).1.closed := by
  induction ts generalizing p with
  | nil => exact List.prefix_rfl
  | cons t ts ih =>
      rw [Automaton.advance_cons]
      cases hstep : patternReader.step p t.token with
      | none => exact List.prefix_rfl
      | some p' =>
          have hone : p'.closed = p.closed ++ (p.closes? t.token).toList :=
            PatternProgress.closed_of_step hstep
          exact (hone ▸ List.prefix_append p.closed _).trans (ih p')

end Surface

/-! ### One pass -/

namespace Pattern

variable {ts rest : List Located} {p : Surface.PatternProgress} {settled : List Statement}
  {c : Conflict}

/-- The outcome of the automaton if it has stopped in the state `p` in front of `rest`, with
conflicts looked up among the closed statements. -/
def conclude (ts : List Located) (p : Surface.PatternProgress) (rest : List Located) :
    Except Error Pattern :=
  Surface.patternReader.outcome (fun f => f.meaning.mapError .conflict) (failure ts) p rest

/-- A conflict among the closed statements is the outcome wherever the automaton has
stopped. -/
theorem conclude_of_meanings_eq_error (h : Surface.meanings p.closed = .error c)
    (rest : List Located) : conclude ts p rest = .error (.conflict c) := by
  have hfailure (rest : List Located) : failure ts ⟨p, rest⟩ = .conflict c := by
    rw [failure, h]
  cases rest with
  | cons t rest => exact congrArg Except.error (hfailure (t :: rest))
  | nil =>
      rw [conclude, Automaton.outcome]
      cases hf : Surface.patternReader.result? p with
      | none => exact congrArg Except.error (hfailure [])
      | some f =>
          have hmeaning : f.meaning = .error c := by
            rw [Surface.Pattern.meaning_eq_error_iff,
              Surface.PatternProgress.statements_of_result? hf]
            exact h
          simp only [hmeaning]
          rfl

/-- Without a conflict, the outcome at the end of the tokens is the pattern of the denoted
statements or a syntax error. -/
theorem conclude_nil_of_meanings_eq_ok (h : Surface.meanings p.closed = .ok settled) :
    conclude ts p [] =
      match Surface.patternReader.result? p with
      | some _ => .ok ⟨settled⟩
      | none => .error (Surface.patternReader.unexpected ts ⟨p, []⟩) := by
  rw [conclude, Automaton.outcome]
  cases hf : Surface.patternReader.result? p with
  | none => simp only [failure, h]
  | some f =>
      have hclosed : f.statements = p.closed := Surface.PatternProgress.statements_of_result? hf
      simp only [Surface.Pattern.meaning, hclosed, h]
      rfl

theorem conclude_cons_of_meanings_eq_ok (h : Surface.meanings p.closed = .ok settled)
    (t : Located) (rest : List Located) :
    conclude ts p (t :: rest) = .error (Surface.patternReader.unexpected ts ⟨p, t :: rest⟩) := by
  rw [conclude, Automaton.outcome, failure, h]

theorem readOn_eq (h : Surface.meanings p.closed = .ok settled) :
    readOn ts p settled rest =
      conclude ts (Surface.patternReader.advance p rest).1
        (Surface.patternReader.advance p rest).2 := by
  induction rest generalizing p settled with
  | nil =>
      rw [Automaton.advance_nil]
      exact (conclude_nil_of_meanings_eq_ok h).symm
  | cons t rest ih =>
      rw [Automaton.advance_cons, readOn]
      cases hstep : Surface.patternReader.step p t.token with
      | none => exact (conclude_cons_of_meanings_eq_ok h t rest).symm
      | some next =>
          have hclosed : next.closed = p.closed ++ (p.closes? t.token).toList :=
            Surface.PatternProgress.closed_of_step hstep
          simp only
          cases hs : p.closes? t.token with
          | none =>
              refine ih ?_
              rw [hclosed, hs, Option.toList_none, List.append_nil]
              exact h
          | some s =>
              rw [hs, Option.toList_some] at hclosed
              simp only
              cases hmeaning : s.meaning with
              | ok s' =>
                  refine ih ?_
                  rw [hclosed, Surface.meanings_append, h, Surface.meanings_singleton, hmeaning]
                  rfl
              | error c =>
                  -- The automaton goes on, with the inconsistent statement among the closed ones.
                  have hnext : Surface.meanings next.closed = .error c := by
                    rw [hclosed, Surface.meanings_append, h, Surface.meanings_singleton, hmeaning]
                    rfl
                  obtain ⟨more, hmore⟩ := Surface.closed_prefix_advance next rest
                  refine (conclude_of_meanings_eq_error ?_ _).symm
                  rw [← hmore]
                  exact Surface.meanings_append_of_error hnext more

theorem ofTokens_eq_conclude (ts : List Located) :
    ofTokens ts =
      conclude ts (Surface.patternReader.advance Surface.patternReader.start ts).1
        (Surface.patternReader.advance Surface.patternReader.start ts).2 :=
  readOn_eq rfl

/-- The one-pass reader agrees with the automaton followed by a search for conflicts. -/
theorem ofTokens_eq :
    Pattern.ofTokens = Surface.patternReader.readWith
      (fun f => f.meaning.mapError .conflict) failure := by
  funext ts
  rw [Automaton.readWith_eq_outcome]
  exact ofTokens_eq_conclude ts

end Pattern

end GraphPattern
