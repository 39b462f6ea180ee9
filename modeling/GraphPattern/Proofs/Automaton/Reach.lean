import GraphPattern.Automaton

/-!
Reachability in automata. `advance` and `run` act on located tokens and stop by themselves.
Proofs follow the state along a row of bare tokens instead, which can be cut anywhere:
`reach?` is that view, and the lemmas here characterize `advance` and `run` by it.
-/

namespace GraphPattern.Automaton

variable {σ α : Type} {m : Automaton σ α} {s s' : σ}

/-- The state reached from `s` by all of `ts`, if no token is refused. -/
def reach? (m : Automaton σ α) (s : σ) (ts : List Token) : Option σ :=
  ts.foldlM m.step s

@[simp] theorem reach?_nil (m : Automaton σ α) (s : σ) : m.reach? s [] = some s := rfl

theorem reach?_cons (m : Automaton σ α) (s : σ) (t : Token) (ts : List Token) :
    m.reach? s (t :: ts) = (m.step s t).bind (m.reach? · ts) := rfl

@[simp] theorem reach?_singleton (m : Automaton σ α) (s : σ) (t : Token) :
    m.reach? s [t] = m.step s t := by
  simp [reach?_cons]

theorem reach?_append (m : Automaton σ α) (s : σ) (ts us : List Token) :
    m.reach? s (ts ++ us) = (m.reach? s ts).bind (m.reach? · us) :=
  List.foldlM_append

theorem reach?_append_of_eq {ts : List Token} (h : m.reach? s ts = some s') (us : List Token) :
    m.reach? s (ts ++ us) = m.reach? s' us := by
  rw [reach?_append, h, Option.bind_some]

theorem reach?_cons_of_eq {t : Token} (h : m.step s t = some s') (us : List Token) :
    m.reach? s (t :: us) = m.reach? s' us := by
  rw [reach?_cons, h, Option.bind_some]

/-- An invariant of states and the tokens that led to them holds of all reachable states if
it holds at the start and every step preserves it. -/
theorem reach?_induction {motive : σ → List Token → Prop} (hstart : motive m.start [])
    (hstep : ∀ s ts t s', motive s ts → m.step s t = some s' → motive s' (ts ++ [t]))
    {ts : List Token} (h : m.reach? m.start ts = some s) : motive s ts := by
  -- The induction is on the remaining tokens, so the run may begin in any state.
  suffices hfrom : ∀ ts s₀ before, motive s₀ before → m.reach? s₀ ts = some s →
      motive s (before ++ ts) from hfrom ts m.start [] hstart h
  intro ts
  induction ts with
  | nil =>
      intro s₀ before hbefore hreach
      obtain rfl : s₀ = s := by simpa using hreach
      rwa [List.append_nil]
  | cons t ts ih =>
      intro s₀ before hbefore hreach
      rw [reach?_cons] at hreach
      obtain ⟨middle, hmiddle, hrest⟩ := Option.bind_eq_some_iff.mp hreach
      rw [List.append_cons]
      exact ih middle (before ++ [t]) (hstep s₀ before t middle hbefore hmiddle) hrest

/-- If an outer automaton simulates an inner one step by step, through an embedding of
states, it does so on every row of tokens. -/
theorem reach?_embedded {τ β : Type} {outer : Automaton τ β} (embed : σ → τ)
    (hstep : ∀ s t s', m.step s t = some s' → outer.step (embed s) t = some (embed s'))
    {ts : List Token} (h : m.reach? s ts = some s') :
    outer.reach? (embed s) ts = some (embed s') := by
  induction ts generalizing s with
  | nil =>
      obtain rfl : s = s' := by simpa using h
      rfl
  | cons t ts ih =>
      rw [reach?_cons] at h
      obtain ⟨middle, hmiddle, hrest⟩ := Option.bind_eq_some_iff.mp h
      exact (reach?_cons_of_eq (hstep s t middle hmiddle) ts).trans (ih hrest)

/-! ### Runs -/

theorem advance_append_of_reach? {taken : List Located}
    (h : m.reach? s (taken.map Located.token) = some s') (rest : List Located) :
    m.advance s (taken ++ rest) = m.advance s' rest := by
  induction taken generalizing s with
  | nil =>
      obtain rfl : s = s' := by simpa using h
      rfl
  | cons t taken ih =>
      rw [List.map_cons, reach?_cons] at h
      obtain ⟨middle, hstep, hrest⟩ := Option.bind_eq_some_iff.mp h
      rw [List.cons_append, advance_cons, hstep]
      exact ih hrest

/-- `advance` commutes with a map that changes spans only. -/
theorem advance_map {f : Located → Located} (hf : ∀ t, (f t).token = t.token) (s : σ)
    (ts : List Located) :
    m.advance s (ts.map f) = ((m.advance s ts).1, (m.advance s ts).2.map f) := by
  induction ts generalizing s with
  | nil => rfl
  | cons t ts ih =>
      rw [List.map_cons, advance_cons, advance_cons, hf]
      cases m.step s t.token with
      | none => rfl
      | some s' => exact ih s'

/-- `advance` takes the longest row of tokens it can: either nothing is left, or the state
reached refuses the next token. -/
theorem exists_taken (m : Automaton σ α) (s : σ) (ts : List Located) :
    ∃ taken, ts = taken ++ (m.advance s ts).2 ∧
      m.reach? s (taken.map Located.token) = some (m.advance s ts).1 ∧
      ∀ t ∈ (m.advance s ts).2.head?, m.step (m.advance s ts).1 t.token = none := by
  induction ts generalizing s with
  | nil => exact ⟨[], rfl, rfl, by simp⟩
  | cons t ts ih =>
      rw [advance_cons]
      cases hstep : m.step s t.token with
      | none => exact ⟨[], rfl, rfl, by simpa using hstep⟩
      | some middle =>
          obtain ⟨taken, hsplit, hreach, hblocked⟩ := ih middle
          refine ⟨t :: taken, ?_, ?_, hblocked⟩
          · rw [List.cons_append, ← hsplit]
          · rw [List.map_cons, reach?_cons_of_eq hstep]
            exact hreach

/-- A stop at which the automaton neither takes the next token nor has a result. -/
def Blocks (m : Automaton σ α) (stop : Stop σ) : Prop :=
  match stop.rest with
  | [] => m.result? stop.state = none
  | t :: _ => m.step stop.state t.token = none

theorem advance_of_run_eq_ok {ts : List Located} {a : α} (h : m.run ts = .ok a) :
    ∃ s, m.advance m.start ts = (s, []) ∧ m.result? s = some a := by
  rw [run] at h
  cases hadvance : m.advance m.start ts with
  | mk s rest =>
      rw [hadvance] at h
      cases rest with
      | cons t rest => cases h
      | nil =>
          refine ⟨s, rfl, ?_⟩
          cases hresult : m.result? s with
          | none => simp [hresult] at h
          | some b => simpa [hresult] using h

theorem advance_of_run_eq_error {ts : List Located} {stop : Stop σ}
    (h : m.run ts = .error stop) : m.advance m.start ts = (stop.state, stop.rest) := by
  rw [run] at h
  cases hadvance : m.advance m.start ts with
  | mk s rest =>
      rw [hadvance] at h
      cases rest with
      | cons t rest =>
          cases h
          rfl
      | nil =>
          cases hresult : m.result? s with
          | some b => simp [hresult] at h
          | none =>
              obtain rfl : (⟨s, []⟩ : Stop σ) = stop := by simpa [hresult] using h
              rfl

theorem run_eq_ok_iff {ts : List Located} {a : α} :
    m.run ts = .ok a ↔
      ∃ s, m.reach? m.start (ts.map Located.token) = some s ∧ m.result? s = some a := by
  constructor
  · intro h
    obtain ⟨s, hadvance, hresult⟩ := advance_of_run_eq_ok h
    obtain ⟨taken, hsplit, hreach, -⟩ := m.exists_taken m.start ts
    rw [hadvance] at hsplit hreach
    obtain rfl : ts = taken := by simpa using hsplit
    exact ⟨s, hreach, hresult⟩
  · rintro ⟨s, hreach, hresult⟩
    have hadvance := advance_append_of_reach? hreach []
    rw [List.append_nil, advance_nil] at hadvance
    simp [run, hadvance, hresult]

theorem run_eq_error {ts : List Located} {stop : Stop σ} (h : m.run ts = .error stop) :
    ∃ taken, ts = taken ++ stop.rest ∧
      m.reach? m.start (taken.map Located.token) = some stop.state ∧ m.Blocks stop := by
  obtain ⟨taken, hsplit, hreach, hblocked⟩ := m.exists_taken m.start ts
  rw [advance_of_run_eq_error h] at hsplit hreach hblocked
  refine ⟨taken, hsplit, hreach, ?_⟩
  cases hrest : stop.rest with
  | cons t rest =>
      rw [Blocks, hrest]
      exact hblocked t (by rw [hrest]; rfl)
  | nil =>
      rw [Blocks, hrest]
      have hadvance := advance_of_run_eq_error h
      rw [run, hadvance, hrest] at h
      cases hresult : m.result? stop.state with
      | none => rfl
      | some b => simp [hresult] at h

end GraphPattern.Automaton
