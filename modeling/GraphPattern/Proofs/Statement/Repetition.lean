import GraphPattern.Error
import GraphPattern.Proofs.Statement.Extension

/-!
Closed form of adding properties to a bare variable. Either properties of one keyword are
equal at all places, and the first of each keyword is kept, or there is a first place at
which a property differs from an earlier one of its keyword, and this place determines the
conflict.

That exactly the first property of each keyword is kept is proved from the end of the list:
a further property is kept exactly if its keyword is new.
-/

namespace GraphPattern

namespace Property

variable {ps : List Property} {p : Property}

/-- The first property of each keyword, in the order in which they stand. -/
def firsts : List Property → List Property
  | [] => []
  | p :: ps => p :: (firsts ps).filter fun q => q.keyword != p.keyword

/-- The property at `i` differs from one of its keyword that stands before it. -/
def DiffersAt (ps : List Property) (i : Nat) : Prop :=
  ∃ p ∈ ps[i]?, ∃ q ∈ ps.take i, q.keyword = p.keyword ∧ q ≠ p

instance (ps : List Property) (i : Nat) : Decidable (DiffersAt ps i) :=
  inferInstanceAs (Decidable (∃ p ∈ ps[i]?, ∃ q ∈ ps.take i, q.keyword = p.keyword ∧ q ≠ p))

theorem firsts_concat_of_new (h : ¬ ∃ q ∈ ps, q.keyword = p.keyword) :
    firsts (ps ++ [p]) = firsts ps ++ [p] := by
  induction ps with
  | nil => rfl
  | cons r ps ih =>
      rw [List.exists_mem_cons_iff, not_or] at h
      have hp : [p].filter (fun q => q.keyword != r.keyword) = [p] := by simp [Ne.symm h.1]
      show r :: (firsts (ps ++ [p])).filter _ = r :: (firsts ps).filter _ ++ [p]
      rw [ih h.2, List.filter_append, hp]
      rfl

theorem firsts_concat_of_old (h : ∃ q ∈ ps, q.keyword = p.keyword) :
    firsts (ps ++ [p]) = firsts ps := by
  induction ps with
  | nil =>
      obtain ⟨q, hq, -⟩ := h
      cases hq
  | cons r ps ih =>
      rw [List.exists_mem_cons_iff] at h
      show r :: (firsts (ps ++ [p])).filter _ = r :: (firsts ps).filter _
      by_cases hold : ∃ q ∈ ps, q.keyword = p.keyword
      · rw [ih hold]
      · -- The keyword is new to the rest of the list, so it is that of `r`.
        have hr : r.keyword = p.keyword := h.resolve_right hold
        have hp : [p].filter (fun q => q.keyword != r.keyword) = [] := by simp [hr]
        rw [firsts_concat_of_new hold, List.filter_append, hp, List.append_nil]

/-- For consistent properties, the first of each keyword are the deduplicated list. -/
theorem Consistent.firsts_eq (h : Consistent ps) : firsts ps = ps.eraseDups := by
  induction ps using List.reverseRecOn with
  | nil => rfl
  | append_singleton ps p ih =>
      have hps := ih h.of_append
      by_cases hold : ∃ q ∈ ps, q.keyword = p.keyword
      · have hp : p ∈ ps := by
          obtain ⟨q, hq, hkey⟩ := hold
          obtain rfl : q = p := h q (by simp [hq]) p (by simp) hkey
          exact hq
        rw [firsts_concat_of_old hold, eraseDups_concat_of_mem hp, hps]
      · have hp : p ∉ ps := fun hp => hold ⟨p, hp, rfl⟩
        rw [firsts_concat_of_new hold, eraseDups_concat_of_not_mem hp, hps]

theorem Consistent.not_differsAt {i : Nat} (h : Consistent (ps.take i)) {j : Nat} (hj : j < i) :
    ¬ DiffersAt ps j := by
  rintro ⟨p, hp, q, hq, hkey, hne⟩
  have hpi : p ∈ ps.take i := by
    apply List.mem_of_getElem? (i := j)
    rw [List.getElem?_take_of_lt hj, hp]
  have hqi : q ∈ ps.take i := List.take_subset_take_left ps (Nat.le_of_lt hj) hq
  exact hne (h q hqi p hpi hkey)

/-! ### The conflict -/

variable {v : Variable} {c : Conflict}

/-- The conflict is at the first place where a property differs from an earlier one of its
keyword. The earlier one is the first of the keyword, since the properties before the place
are consistent. -/
theorem Conflicts.exists_place (h : Conflicts v ps c) :
    ∃ (i : Nat) (first second : Property), DiffersAt ps i ∧ (∀ j < i, ¬ DiffersAt ps j) ∧
      ps[i]? = some second ∧ ps.find? (fun p => p.keyword == second.keyword) = some first ∧
      c = ⟨⟨v, firsts (ps.take i)⟩, first, second⟩ := by
  obtain ⟨before, q, p, after, rfl, hbefore, hq, hkey, hne, rfl⟩ := h
  have htake : (before ++ p :: after).take before.length = before := List.take_left
  have hget : (before ++ p :: after)[before.length]? = some p := by simp
  have hfind : before.find? (fun r => r.keyword == p.keyword) = some q := by
    cases hr : before.find? (fun r => r.keyword == p.keyword) with
    | none => exact absurd hkey (by simpa using List.find?_eq_none.mp hr q hq)
    | some r =>
        have hrkey : r.keyword = p.keyword := by simpa using List.find?_some hr
        rw [hbefore r (List.mem_of_find?_eq_some hr) q hq (hrkey.trans hkey.symm)]
  refine ⟨before.length, q, p, ⟨p, hget, q, ?_, hkey, hne⟩, fun j hj => ?_, hget, ?_, ?_⟩
  · rwa [htake]
  · apply Consistent.not_differsAt _ hj
    rwa [htake]
  · rw [List.find?_append, hfind, Option.some_or]
  · rw [htake, hbefore.firsts_eq]

/-- Properties behind a conflict do not matter. -/
theorem Conflicts.append (h : Conflicts v ps c) (qs : List Property) :
    Conflicts v (ps ++ qs) c := by
  obtain ⟨before, q, p, after, rfl, hconflict⟩ := h
  exact ⟨before, q, p, after ++ qs, by simp, hconflict⟩

/-- Consistency depends only on the set of properties. -/
theorem consistent_congr {qs : List Property} (h : ∀ p, p ∈ qs ↔ p ∈ ps) :
    Consistent qs ↔ Consistent ps := by
  simp only [Consistent, h]

end Property

namespace Statement

variable {v : Variable} {ps : List Property}

theorem exists_addProperties_eq_ok_iff :
    (∃ s, (bare v).addProperties ps = .ok s) ↔ Property.Consistent ps := by
  simp only [addProperties_eq_ok_iff, exists_and_left, exists_eq, and_true]

theorem addProperties_of_consistent (h : Property.Consistent ps) :
    (bare v).addProperties ps = .ok ⟨v, Property.firsts ps⟩ := by
  rw [addProperties_eq_ok_iff, h.firsts_eq]
  exact ⟨h, rfl⟩

theorem exists_conflicts (h : ¬ Property.Consistent ps) : ∃ c, Property.Conflicts v ps c := by
  cases hadd : (bare v).addProperties ps with
  | ok s => exact absurd (exists_addProperties_eq_ok_iff.mp ⟨s, hadd⟩) h
  | error c => exact ⟨c, addProperties_eq_error_iff.mp hadd⟩

theorem addProperties_append_copies {copies : List Property} (h : copies ⊆ ps) :
    (bare v).addProperties (ps ++ copies) = (bare v).addProperties ps := by
  by_cases hps : Property.Consistent ps
  · have hsame : ∀ p, p ∈ ps ++ copies ↔ p ∈ ps := by
      intro p
      rw [List.mem_append]
      exact or_iff_left_of_imp fun hp => h hp
    have hnil : copies.removeAll ps = [] := by
      rw [List.removeAll, List.filter_eq_nil_iff]
      intro p hp
      simpa using h hp
    have hall := (Property.consistent_congr hsame).mpr hps
    rw [addProperties_of_consistent hps, addProperties_of_consistent hall, hps.firsts_eq,
      hall.firsts_eq, List.eraseDups_append, hnil, List.eraseDups_nil, List.append_nil]
  · obtain ⟨c, hc⟩ := exists_conflicts (v := v) hps
    rw [addProperties_eq_error_iff.mpr hc, addProperties_eq_error_iff.mpr (hc.append copies)]

/-- Adding properties to a bare variable in closed form, for every list of properties. -/
theorem addProperties_closed_form :
    ∀ (v : Variable) (ps : List Property),
      ((∃ s, (bare v).addProperties ps = .ok s) ↔ Property.Consistent ps) ∧
      (Property.Consistent ps → (bare v).addProperties ps = .ok ⟨v, Property.firsts ps⟩) ∧
      (¬ Property.Consistent ps → ∃ (i : Nat) (first second : Property) (c : Conflict),
        (Property.DiffersAt ps i ∧ ∀ j < i, ¬ Property.DiffersAt ps j) ∧
        ps[i]? = some second ∧ ps.find? (fun p => p.keyword == second.keyword) = some first ∧
        c = ⟨⟨v, Property.firsts (ps.take i)⟩, first, second⟩ ∧
        (bare v).addProperties ps = .error c ∧
        (Error.conflict c).message =
          "Statement " ++ Error.quoted (text ⟨v, Property.firsts (ps.take i)⟩) ++
            " has conflicting properties: " ++ Error.quoted first.text ++ " and " ++
            Error.quoted second.text) ∧
      (∀ qs : List Property, qs.Perm ps →
        ((∃ s, (bare v).addProperties qs = .ok s) ↔ ∃ s, (bare v).addProperties ps = .ok s)) ∧
      ∀ copies : List Property, copies ⊆ ps →
        (bare v).addProperties (ps ++ copies) = (bare v).addProperties ps := by
  intro v ps
  refine ⟨exists_addProperties_eq_ok_iff, addProperties_of_consistent, fun h => ?_,
    fun qs hqs => ?_, fun copies => addProperties_append_copies⟩
  · obtain ⟨c, hc⟩ := exists_conflicts (v := v) h
    obtain ⟨i, first, second, hdiffers, hleast, hsecond, hfirst, rfl⟩ := hc.exists_place
    exact ⟨i, first, second, _, ⟨hdiffers, hleast⟩, hsecond, hfirst, rfl,
      addProperties_eq_error_iff.mpr hc, rfl⟩
  · rw [exists_addProperties_eq_ok_iff, exists_addProperties_eq_ok_iff]
    exact Property.consistent_congr fun p => hqs.mem_iff

/-- A repeated type is dropped, and properties behind the first conflict do not matter. -/
theorem addProperties_closed_form_marriage :
    let marriage : Property := .isa (.ofLabel "marriage")
    let x : Property := .relation [.plain (bare (.visible "x"))]
    let y : Property := .relation [.plain (bare (.visible "y"))]
    (bare (.visible "r")).addProperties [marriage, x, marriage] =
        .ok ⟨.visible "r", [marriage, x]⟩ ∧
      (bare (.visible "r")).addProperties ([marriage, x, marriage, y] ++ [y, x]) =
        .error ⟨⟨.visible "r", [marriage, x]⟩, x, y⟩ := by
  intro marriage x y
  obtain ⟨-, hok, -⟩ := addProperties_closed_form (.visible "r") [marriage, x, marriage]
  obtain ⟨-, -, herror, -, hcopies⟩ :=
    addProperties_closed_form (.visible "r") [marriage, x, marriage, y]
  obtain ⟨i, first, second, c, ⟨hdiffers, hleast⟩, hsecond, hfirst, hc, hadd, -⟩ :=
    herror (by decide +kernel)
  have hi : i = 3 := by
    rcases Nat.lt_trichotomy i 3 with hlt | heq | hgt
    · have hnone : ∀ j < 3, ¬ Property.DiffersAt [marriage, x, marriage, y] j := by decide +kernel
      exact absurd hdiffers (hnone i hlt)
    · exact heq
    · exact absurd (by decide +kernel) (hleast 3 hgt)
  subst hi
  obtain rfl : y = second := Option.some.inj hsecond
  obtain rfl : x = first := Option.some.inj hfirst
  refine ⟨hok (by decide +kernel), ?_⟩
  rw [hcopies [y, x] (by simp), hadd, hc]
  rfl

end Statement

end GraphPattern
