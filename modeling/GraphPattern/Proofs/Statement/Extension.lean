import GraphPattern.Statement.Extension
import Mathlib.Data.List.Induction
import Mathlib.Data.List.Nodup

/-!
Adding properties one by one. As long as properties of one keyword are equal, the statement
consists of the deduplicated properties added so far. So the state of the fold is a function
of the list that has been folded, and a conflict is a property of that list.
-/

namespace GraphPattern

/-- Properties of one keyword are equal. -/
def Property.Consistent (ps : List Property) : Prop :=
  ∀ p ∈ ps, ∀ q ∈ ps, p.keyword = q.keyword → p = q

instance (ps : List Property) : Decidable (Property.Consistent ps) :=
  inferInstanceAs (Decidable (∀ p ∈ ps, ∀ q ∈ ps, p.keyword = q.keyword → p = q))

theorem Property.Consistent.of_append {ps qs : List Property}
    (h : Property.Consistent (ps ++ qs)) : Property.Consistent ps :=
  fun p hp q hq => h p (List.mem_append_left qs hp) q (List.mem_append_left qs hq)

theorem Property.Consistent.concat {ps : List Property} (h : Property.Consistent ps)
    {p : Property} (hp : ∀ q ∈ ps, q.keyword = p.keyword → q = p) :
    Property.Consistent (ps ++ [p]) := by
  intro a ha b hb hkey
  rw [List.mem_append, List.mem_singleton] at ha hb
  rcases ha with ha | rfl
  · rcases hb with hb | rfl
    · exact h a ha b hb hkey
    · exact hp a ha hkey
  · rcases hb with hb | rfl
    · exact (hp b hb hkey.symm).symm
    · rfl

/-- The first conflict as the properties `ps` of `v` are added in order: those before the
one to be added are consistent, and one of them has its keyword and differs from it. -/
def Property.Conflicts (v : Variable) (ps : List Property) (c : Conflict) : Prop :=
  ∃ before q p after, ps = before ++ p :: after ∧ Property.Consistent before ∧ q ∈ before ∧
    q.keyword = p.keyword ∧ q ≠ p ∧ c = ⟨⟨v, before.eraseDups⟩, q, p⟩

theorem eraseDups_concat_of_mem {α : Type} [BEq α] [LawfulBEq α] {as : List α} {a : α}
    (h : a ∈ as) : (as ++ [a]).eraseDups = as.eraseDups := by
  have hnil : [a].removeAll as = [] := by simp [List.removeAll, h]
  rw [List.eraseDups_append, hnil, List.eraseDups_nil, List.append_nil]

theorem eraseDups_concat_of_not_mem {α : Type} [BEq α] [LawfulBEq α] {as : List α} {a : α}
    (h : a ∉ as) : (as ++ [a]).eraseDups = as.eraseDups ++ [a] := by
  have hone : [a].removeAll as = [a] := by simp [List.removeAll, h]
  rw [List.eraseDups_append, hone, List.eraseDups_cons]
  rfl

theorem nodup_eraseDups {α : Type} [BEq α] [LawfulBEq α] (as : List α) : as.eraseDups.Nodup := by
  induction as using List.reverseRecOn with
  | nil => exact List.nodup_nil
  | append_singleton as a ih =>
      by_cases ha : a ∈ as
      · rwa [eraseDups_concat_of_mem ha]
      · rw [eraseDups_concat_of_not_mem ha, ← List.concat_eq_append]
        exact ih.concat fun hmem => ha (List.mem_eraseDups.mp hmem)

/-- Deduplication preserves consistency. -/
theorem Property.Consistent.eraseDups {ps : List Property} (h : Property.Consistent ps) :
    Property.Consistent ps.eraseDups :=
  fun p hp q hq => h p (List.mem_eraseDups.mp hp) q (List.mem_eraseDups.mp hq)

namespace Statement

variable {v : Variable} {s : Statement} {done ps : List Property} {p q : Property} {c : Conflict}

/-! ### One property -/

/-- The two cases of adding a property: its keyword is new, or the statement has a property
of this keyword to compare it with. -/
theorem addProperty_cases (s : Statement) (p : Property) :
    (∀ q ∈ s.properties, q.keyword ≠ p.keyword) ∧
        s.addProperty p = .ok { s with properties := s.properties ++ [p] } ∨
      ∃ q ∈ s.properties, q.keyword = p.keyword ∧
        s.addProperty p = if q = p then .ok s else .error ⟨s, q, p⟩ := by
  rw [addProperty, if_pos p.keyword.isUnique_eq_true]
  cases hfind : s.properties.find? (fun q => q.keyword == p.keyword) with
  | none =>
      have hnew : ∀ q ∈ s.properties, q.keyword ≠ p.keyword := by simpa using hfind
      exact .inl ⟨hnew, rfl⟩
  | some q =>
      have hkey : q.keyword = p.keyword := by simpa using List.find?_some hfind
      exact .inr ⟨q, List.mem_of_find?_eq_some hfind, hkey, rfl⟩

theorem addProperty_of_new (h : ∀ q ∈ s.properties, q.keyword ≠ p.keyword) :
    s.addProperty p = .ok { s with properties := s.properties ++ [p] } := by
  rcases addProperty_cases s p with ⟨-, hadd⟩ | ⟨q, hq, hkey, -⟩
  · exact hadd
  · exact absurd hkey (h q hq)

/-- The property compared with the new one is the one of its keyword. -/
theorem addProperty_of_keyword_eq (h : Property.Consistent s.properties) (hq : q ∈ s.properties)
    (hkey : q.keyword = p.keyword) :
    s.addProperty p = if q = p then .ok s else .error ⟨s, q, p⟩ := by
  rcases addProperty_cases s p with ⟨hnew, -⟩ | ⟨r, hr, hrkey, hadd⟩
  · exact absurd hkey (hnew q hq)
  · rw [hadd, h r hr q hq (hrkey.trans hkey.symm)]

/-- Adding a property fails exactly if the property of the same keyword differs from it. -/
theorem addProperty_eq_error_iff (h : Property.Consistent s.properties) :
    s.addProperty p = .error c ↔
      ∃ q ∈ s.properties, q.keyword = p.keyword ∧ q ≠ p ∧ c = ⟨s, q, p⟩ := by
  constructor
  · intro herror
    rcases addProperty_cases s p with ⟨-, hadd⟩ | ⟨q, hq, hkey, hadd⟩
    · rw [hadd] at herror
      cases herror
    · rw [hadd] at herror
      by_cases hqp : q = p
      · rw [if_pos hqp] at herror
        cases herror
      · rw [if_neg hqp] at herror
        exact ⟨q, hq, hkey, hqp, (Except.error.inj herror).symm⟩
  · rintro ⟨q, hq, hkey, hqp, rfl⟩
    rw [addProperty_of_keyword_eq h hq hkey, if_neg hqp]

/-- Adding a property succeeds exactly if it is consistent with those added before. -/
theorem addProperty_eraseDups_eq_ok_iff (hdone : Property.Consistent done) :
    addProperty ⟨v, done.eraseDups⟩ p = .ok s ↔
      Property.Consistent (done ++ [p]) ∧ s = ⟨v, (done ++ [p]).eraseDups⟩ := by
  by_cases hold : ∃ q ∈ done, q.keyword = p.keyword
  · obtain ⟨q, hq, hkey⟩ := hold
    rw [addProperty_of_keyword_eq hdone.eraseDups (List.mem_eraseDups.mpr hq) hkey]
    by_cases hqp : q = p
    · obtain rfl := hqp
      have hconsistent := hdone.concat fun r hr hrkey => hdone r hr q hq hrkey
      rw [if_pos rfl, eraseDups_concat_of_mem hq, Except.ok.injEq, eq_comm]
      exact (and_iff_right hconsistent).symm
    · rw [if_neg hqp]
      refine iff_of_false nofun ?_
      rintro ⟨hconsistent, -⟩
      exact hqp (hconsistent q (by simp [hq]) p (by simp) hkey)
  · have hnew : ∀ q ∈ done, q.keyword ≠ p.keyword := fun q hq hkey => hold ⟨q, hq, hkey⟩
    have hp : p ∉ done := fun hp => hnew p hp rfl
    have hconsistent := hdone.concat fun q hq hkey => absurd hkey (hnew q hq)
    rw [addProperty_of_new fun q hq => hnew q (List.mem_eraseDups.mp hq),
      eraseDups_concat_of_not_mem hp, Except.ok.injEq, eq_comm]
    exact (and_iff_right hconsistent).symm

theorem addProperty_eraseDups_eq_error_iff (hdone : Property.Consistent done) :
    addProperty ⟨v, done.eraseDups⟩ p = .error c ↔
      ∃ q ∈ done, q.keyword = p.keyword ∧ q ≠ p ∧ c = ⟨⟨v, done.eraseDups⟩, q, p⟩ := by
  rw [addProperty_eq_error_iff hdone.eraseDups]
  simp only [List.mem_eraseDups]

/-! ### Several properties -/

/-- The list `done` of the properties added before is a separate argument, because the
statement no longer shows repetitions. -/
theorem addProperties_eraseDups_eq_ok_iff (hdone : Property.Consistent done) :
    addProperties ⟨v, done.eraseDups⟩ ps = .ok s ↔
      Property.Consistent (done ++ ps) ∧ s = ⟨v, (done ++ ps).eraseDups⟩ := by
  induction ps generalizing done with
  | nil =>
      rw [List.append_nil, addProperties, Except.ok.injEq, eq_comm]
      exact (and_iff_right hdone).symm
  | cons p ps ih =>
      rw [addProperties, List.append_cons]
      cases hadd : addProperty ⟨v, done.eraseDups⟩ p with
      | ok s' =>
          obtain ⟨hconsistent, rfl⟩ := (addProperty_eraseDups_eq_ok_iff hdone).mp hadd
          exact ih hconsistent
      | error c =>
          refine iff_of_false nofun ?_
          rintro ⟨hconsistent, -⟩
          rw [(addProperty_eraseDups_eq_ok_iff hdone).mpr ⟨hconsistent.of_append, rfl⟩] at hadd
          cases hadd

/-- `c` is the first conflict as `ps` are added after `done`. -/
def ConflictsBehind (v : Variable) (done ps : List Property) (c : Conflict) : Prop :=
  ∃ before q p after, ps = before ++ p :: after ∧ Property.Consistent (done ++ before) ∧
    q ∈ done ++ before ∧ q.keyword = p.keyword ∧ q ≠ p ∧
    c = ⟨⟨v, (done ++ before).eraseDups⟩, q, p⟩

/-- The first conflict is at the head of the list, or it is in the tail. -/
theorem conflictsBehind_cons_iff (hdone : Property.Consistent done) :
    ConflictsBehind v done (p :: ps) c ↔
      addProperty ⟨v, done.eraseDups⟩ p = .error c ∨ ConflictsBehind v (done ++ [p]) ps c := by
  rw [addProperty_eraseDups_eq_error_iff hdone]
  constructor
  · rintro ⟨before, q, r, after, hps, hconsistent, hq, h⟩
    cases before with
    | nil =>
        obtain ⟨rfl, rfl⟩ := List.cons.inj hps
        rw [List.append_nil] at hq h
        exact .inl ⟨q, hq, h⟩
    | cons p' before =>
        obtain ⟨rfl, rfl⟩ := List.cons.inj hps
        rw [List.append_cons] at hconsistent hq h
        exact .inr ⟨before, q, r, after, rfl, hconsistent, hq, h⟩
  · rintro (⟨q, hq, h⟩ | ⟨before, q, r, after, rfl, h⟩)
    · rw [← List.append_nil done] at hdone hq h
      exact ⟨[], q, p, ps, rfl, hdone, hq, h⟩
    · rw [← List.append_cons] at h
      exact ⟨p :: before, q, r, after, rfl, h⟩

theorem addProperties_eraseDups_eq_error_iff (hdone : Property.Consistent done) :
    addProperties ⟨v, done.eraseDups⟩ ps = .error c ↔ ConflictsBehind v done ps c := by
  induction ps generalizing done with
  | nil => simp [addProperties, ConflictsBehind]
  | cons p ps ih =>
      rw [addProperties, conflictsBehind_cons_iff hdone]
      cases hadd : addProperty ⟨v, done.eraseDups⟩ p with
      | ok s =>
          obtain ⟨hconsistent, rfl⟩ := (addProperty_eraseDups_eq_ok_iff hdone).mp hadd
          rw [ih hconsistent]
          exact (or_iff_right nofun).symm
      | error d =>
          -- The property could not be added, so the fold has ended.
          refine (or_iff_left ?_).symm
          rintro ⟨before, q, r, after, -, hconsistent, -⟩
          rw [(addProperty_eraseDups_eq_ok_iff hdone).mpr ⟨hconsistent.of_append, rfl⟩] at hadd
          cases hadd

theorem addProperties_eq_error_iff :
    (bare v).addProperties ps = .error c ↔ Property.Conflicts v ps c :=
  addProperties_eraseDups_eq_error_iff (nofun : Property.Consistent [])

/-- Adding properties to a bare statement succeeds exactly if they are consistent, and
yields the deduplicated list. -/
theorem addProperties_eq_ok_iff :
    (bare v).addProperties ps = .ok s ↔ Property.Consistent ps ∧ s = ⟨v, ps.eraseDups⟩ :=
  addProperties_eraseDups_eq_ok_iff (nofun : Property.Consistent [])

end Statement

end GraphPattern
