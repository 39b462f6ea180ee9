import GraphPattern.Parse
import GraphPattern.Proofs.Automaton.Reach
import Mathlib.Computability.Language

/-!
Recognition. A grammar derives rows of tokens from forms, and an automaton recognizes it if
it returns a form exactly on the rows that the form derives. Errors depend on two further
conditions: from every state reached the automaton can still return a form, and its course
depends on the classes of tokens only.

These conditions determine the errors of the automaton. It stops at the first token that
extends no viable prefix, and the terminals it expects there are those that extend the
viable prefix read so far.
-/

namespace GraphPattern

/-- The terminals of the tokens of a source. -/
def kinds (ts : List Located) : List Terminal := ts.map fun t => t.token.terminal

theorem kinds_append (ts us : List Located) : kinds (ts ++ us) = kinds ts ++ kinds us :=
  List.map_append

theorem kinds_eq_map_terminal (ts : List Located) :
    kinds ts = (ts.map Located.token).map Token.terminal := by
  simp [kinds]

@[simp] theorem length_kinds (ts : List Located) : (kinds ts).length = ts.length :=
  List.length_map _

section Languages

variable {α : Type}

/-- The language of a grammar over terminals, names and labels apart. -/
def sentences (Derives : α → List Token → Prop) : Language Terminal :=
  {ks | ∃ a ts, Derives a ts ∧ ts.map Token.terminal = ks}

/-- Whether `ks` is a prefix of a sentence. -/
def Viable (L : Language Terminal) (ks : List Terminal) : Prop :=
  ∃ rest, ks ++ rest ∈ L

theorem Viable.of_append {L : Language Terminal} {ks ls : List Terminal}
    (h : Viable L (ks ++ ls)) : Viable L ks := by
  obtain ⟨rest, hrest⟩ := h
  exact ⟨ls ++ rest, by rwa [← List.append_assoc]⟩

theorem Viable.of_mem {L : Language Terminal} {ks : List Terminal} (h : ks ∈ L) : Viable L ks :=
  ⟨[], by rwa [List.append_nil]⟩

theorem Viable.take {L : Language Terminal} {ks : List Terminal} {i j : Nat} (hij : i ≤ j)
    (h : Viable L (ks.take j)) : Viable L (ks.take i) := by
  rw [← Nat.add_sub_cancel' hij, List.take_add] at h
  exact h.of_append

/-- The length `i` of the longest viable prefix of `ks`, which is no sentence if it is all
of `ks`. -/
structure BreaksAt (L : Language Terminal) (ks : List Terminal) (i : Nat) : Prop where
  le_length : i ≤ ks.length
  viable : Viable L (ks.take i)
  broken : if i < ks.length then ¬ Viable L (ks.take (i + 1)) else ks ∉ L

namespace BreaksAt

variable {L : Language Terminal} {ks : List Terminal} {i j : Nat}

theorem not_mem (h : BreaksAt L ks i) : ks ∉ L := by
  intro hmem
  have hbroken := h.broken
  split at hbroken
  · refine hbroken (Viable.take (j := ks.length) (by omega) ?_)
    rw [List.take_length]
    exact .of_mem hmem
  · exact hbroken hmem

/-- A viable prefix of `ks` is at most as long as the break. -/
theorem le_of_viable (h : BreaksAt L ks i) (hj : j ≤ ks.length) (hviable : Viable L (ks.take j)) :
    j ≤ i := by
  by_contra hlt
  have hbroken := h.broken
  rw [if_pos (by omega)] at hbroken
  exact hbroken (hviable.take (by omega))

theorem unique (hi : BreaksAt L ks i) (hj : BreaksAt L ks j) : i = j :=
  Nat.le_antisymm (hj.le_of_viable hi.le_length hi.viable) (hi.le_of_viable hj.le_length hj.viable)

end BreaksAt

/-- A derived row of tokens has no break. -/
theorem not_breaksAt_of_derives {Derives : α → List Token → Prop} {a : α} {ts : List Located}
    (h : Derives a (ts.map Located.token)) (i : Nat) :
    ¬ BreaksAt (sentences Derives) (kinds ts) i := by
  intro hi
  exact hi.not_mem ⟨a, _, h, (kinds_eq_map_terminal ts).symm⟩

end Languages

/-- The syntax error at index `i` of `ts`, where the length of `ts` stands for the end. -/
def Error.syntaxAt (ts : List Located) (i : Nat) (expected : List Terminal) : Error :=
  match ts[i]? with
  | some t => .unexpectedToken t expected
  | none => .unexpectedEnd (Located.endOf ts) expected

namespace Automaton

variable {σ α : Type} {m : Automaton σ α} {Derives : α → List Token → Prop}

/-- The automaton recognizes the grammar. -/
structure Recognizes (m : Automaton σ α) (Derives : α → List Token → Prop) : Prop where
  derives_iff : ∀ {a ts},
    Derives a ts ↔ ∃ s, m.reach? m.start ts = some s ∧ m.result? s = some a
  /-- Every reachable state can be completed. -/
  live : ∀ {ts s}, m.reach? m.start ts = some s →
    ∃ us s' a, m.reach? s us = some s' ∧ m.result? s' = some a
  /-- The course of the automaton depends on terminals only. -/
  blind : ∀ {ts us}, ts.map Token.terminal = us.map Token.terminal →
    (m.reach? m.start ts).map (fun s => (m.result? s).isSome) =
      (m.reach? m.start us).map fun s => (m.result? s).isSome

section Outlines

variable {outline : σ → σ}
  (hstep : ∀ s t, (m.step s t).map outline = (m.step (outline s) t.terminal.sample).map outline)

include hstep

theorem step_congr_outline {s s' : σ} {t u : Token} (hs : outline s = outline s')
    (ht : t.terminal = u.terminal) : (m.step s t).map outline = (m.step s' u).map outline := by
  rw [hstep s t, hstep s' u, hs, ht]

/-- Runs on tokens of the same terminals pass through states of the same outline. -/
theorem reach?_congr_outline {s s' : σ} {ts us : List Token} (hs : outline s = outline s')
    (hts : ts.map Token.terminal = us.map Token.terminal) :
    (m.reach? s ts).map outline = (m.reach? s' us).map outline := by
  induction ts generalizing us s s' with
  | nil =>
      obtain rfl : us = [] := by simpa using hts.symm
      simp [hs]
  | cons t ts ih =>
      cases us with
      | nil => simp at hts
      | cons u us =>
          obtain ⟨ht, hts⟩ := List.cons.inj hts
          have hone := step_congr_outline hstep hs ht
          rw [reach?_cons, reach?_cons]
          cases hs₁ : m.step s t with
          | none =>
              rw [hs₁, Option.map_none, eq_comm, Option.map_eq_none_iff] at hone
              rw [hone]
              rfl
          | some s₁ =>
              rw [hs₁, Option.map_some, eq_comm, Option.map_eq_some_iff] at hone
              obtain ⟨s₂, hs₂, hout⟩ := hone
              rw [hs₂]
              exact ih hout.symm hts

/-- An automaton depends on terminals only if its states have outlines, without names and
labels, and steps commute with taking outlines. -/
theorem blind_of_outline
    (hresult : ∀ s, (m.result? s).isSome = (m.result? (outline s)).isSome)
    {ts us : List Token} (h : ts.map Token.terminal = us.map Token.terminal) :
    (m.reach? m.start ts).map (fun s => (m.result? s).isSome) =
      (m.reach? m.start us).map fun s => (m.result? s).isSome := by
  have hend := congrArg (Option.map fun s => (m.result? s).isSome)
    (reach?_congr_outline hstep (s := m.start) rfl h)
  simpa only [Option.map_map, Function.comp_def, ← hresult] using hend

end Outlines

namespace Recognizes

variable {ts us : List Token} {s : σ}

theorem run_eq_ok_iff (h : m.Recognizes Derives) {ts : List Located} {a : α} :
    m.run ts = .ok a ↔ Derives a (ts.map Located.token) :=
  Automaton.run_eq_ok_iff.trans h.derives_iff.symm

/-- A row of tokens has at most one derivation. -/
theorem unique (h : m.Recognizes Derives) {a b : α} (ha : Derives a ts) (hb : Derives b ts) :
    a = b := by
  obtain ⟨s, hs, hsa⟩ := h.derives_iff.mp ha
  obtain ⟨s', hs', hsb⟩ := h.derives_iff.mp hb
  obtain rfl : s = s' := Option.some.inj (hs.symm.trans hs')
  exact Option.some.inj (hsa.symm.trans hsb)

theorem viable_of_reach? (h : m.Recognizes Derives) (hreach : m.reach? m.start ts = some s) :
    Viable (sentences Derives) (ts.map Token.terminal) := by
  obtain ⟨us, s', a, hrest, hresult⟩ := h.live hreach
  refine ⟨us.map Token.terminal, a, ts ++ us, ?_, List.map_append⟩
  exact h.derives_iff.mpr ⟨s', by rw [reach?_append_of_eq hreach, hrest], hresult⟩

theorem isSome_reach?_congr (h : m.Recognizes Derives)
    (heq : ts.map Token.terminal = us.map Token.terminal) :
    (m.reach? m.start ts).isSome = (m.reach? m.start us).isSome := by
  simpa using congrArg Option.isSome (h.blind heq)

/-- The automaton takes exactly the viable prefixes. -/
theorem viable_iff (h : m.Recognizes Derives) (ts : List Token) :
    Viable (sentences Derives) (ts.map Token.terminal) ↔ (m.reach? m.start ts).isSome := by
  constructor
  · rintro ⟨rest, a, us, ha, hus⟩
    -- The prefix `us₁` of the sentence has the same terminals as `ts`.
    obtain ⟨us₁, us₂, rfl, hus₁, -⟩ := List.map_eq_append_iff.mp hus
    obtain ⟨s, hs, -⟩ := h.derives_iff.mp ha
    rw [reach?_append, Option.bind_eq_some_iff] at hs
    obtain ⟨s₁, hs₁, -⟩ := hs
    rw [h.isSome_reach?_congr hus₁.symm, hs₁]
    rfl
  · intro hsome
    obtain ⟨s, hs⟩ := Option.isSome_iff_exists.mp hsome
    exact h.viable_of_reach? hs

theorem mem_sentences_iff (h : m.Recognizes Derives) :
    ts.map Token.terminal ∈ sentences Derives ↔ ∃ a, Derives a ts := by
  constructor
  · rintro ⟨a, us, ha, hus⟩
    obtain ⟨s', hs', hresult⟩ := h.derives_iff.mp ha
    have hblind := h.blind hus
    rw [hs', Option.map_some, hresult, eq_comm, Option.map_eq_some_iff] at hblind
    obtain ⟨s, hs, hsome⟩ := hblind
    obtain ⟨b, hb⟩ := Option.isSome_iff_exists.mp hsome
    exact ⟨b, h.derives_iff.mpr ⟨s, hs, hb⟩⟩
  · rintro ⟨a, ha⟩
    exact ⟨a, ts, ha, rfl⟩

/-- The expected terminals of a state are those that extend the viable prefix read so far.
-/
theorem mem_expected_iff (h : m.Recognizes Derives) (hreach : m.reach? m.start ts = some s)
    {t : Terminal} :
    t ∈ m.expected s ↔ Viable (sentences Derives) (ts.map Token.terminal ++ [t]) := by
  have hviable := h.viable_iff (ts ++ [t.sample])
  rw [List.map_append, List.map_singleton, Terminal.terminal_sample] at hviable
  rw [mem_expected, hviable, reach?_append_of_eq hreach, reach?_singleton]

/-! ### Errors -/

/-- A recognizer stops at the break and reports the terminals that extend the viable prefix
in front of it. -/
theorem exists_breaksAt (h : m.Recognizes Derives) {ts : List Located} {stop : Stop σ}
    (hrun : m.run ts = .error stop) :
    ∃ i, BreaksAt (sentences Derives) (kinds ts) i ∧
      m.unexpected ts stop = Error.syntaxAt ts i (m.expected stop.state) ∧
      ∀ t, t ∈ m.expected stop.state ↔
        Viable (sentences Derives) ((kinds ts).take i ++ [t]) := by
  obtain ⟨taken, hsplit, hreach, hblocks⟩ := run_eq_error hrun
  obtain ⟨s, rest⟩ := stop
  simp only at hsplit hreach hblocks ⊢
  subst hsplit
  have htake : (kinds (taken ++ rest)).take taken.length = kinds taken := by
    rw [kinds_append, ← length_kinds, List.take_left]
  refine ⟨taken.length, ⟨by simp, ?_, ?_⟩, ?_, ?_⟩
  · rw [htake, kinds_eq_map_terminal]
    exact h.viable_of_reach? hreach
  · cases rest with
    | nil =>
        -- All tokens are read, and the state reached has no result.
        rw [if_neg (by simp), List.append_nil, kinds_eq_map_terminal, h.mem_sentences_iff]
        rintro ⟨a, ha⟩
        obtain ⟨s', hs', hresult⟩ := h.derives_iff.mp ha
        obtain rfl : s = s' := Option.some.inj (hreach.symm.trans hs')
        have hnone : m.result? s = none := hblocks
        rw [hnone] at hresult
        cases hresult
    | cons t rest =>
        -- With the token that is refused, the prefix is not viable.
        rw [if_pos (by simp), kinds_append, ← length_kinds, List.take_length_add_append]
        have hnone : m.reach? m.start ((taken ++ [t]).map Located.token) = none := by
          rw [List.map_append, reach?_append_of_eq hreach]
          exact (reach?_singleton m s t.token).trans hblocks
        have hviable := h.viable_iff ((taken ++ [t]).map Located.token)
        rw [hnone, ← kinds_eq_map_terminal, kinds_append] at hviable
        simpa [kinds] using hviable
  · cases rest with
    | nil => simp [unexpected, Error.syntaxAt]
    | cons t rest => simp [unexpected, Error.syntaxAt]
  · intro t
    rw [htake, kinds_eq_map_terminal]
    exact h.mem_expected_iff hreach

end Recognizes

end Automaton

end GraphPattern
