import GraphPattern.Statement.Validity
import Mathlib.Data.List.Induction
import Mathlib.Tactic.ByContra

/-!
Characterization of validity. Kinds unify unless exactly one of them is that of types, so a
statement has a clash exactly if it has a `type` property next to one of another keyword.
Without such a pair, the kind folded so far depends only on the set of keywords; the clash
is at the first property that completes a pair. Leaves, which a flat statement consists of,
have no clash.
-/

namespace GraphPattern

/-- Whether a type property stands beside an `isa` or a relation property. -/
def Property.Mixed (ps : List Property) : Prop :=
  (∃ p ∈ ps, p.keyword = .type) ∧ ∃ p ∈ ps, p.keyword = .isa ∨ p.keyword = .relation

instance (ps : List Property) : Decidable (Property.Mixed ps) :=
  inferInstanceAs (Decidable ((∃ p ∈ ps, p.keyword = .type) ∧
    ∃ p ∈ ps, p.keyword = .isa ∨ p.keyword = .relation))

theorem Property.mixed_iff_keywords {ps : List Property} :
    Property.Mixed ps ↔ .type ∈ ps.map keyword ∧
      (.isa ∈ ps.map keyword ∨ .relation ∈ ps.map keyword) := by
  simp only [Property.Mixed, List.mem_map, and_or_left, exists_or]

/-- The unified kind of properties that are not mixed. -/
def Property.kindOf (ps : List Property) : Kind :=
  if .type ∈ ps.map keyword then .type
  else if .relation ∈ ps.map keyword then .relation
  else .thing

namespace Property

variable {ps : List Property}

theorem Mixed.append (h : Mixed ps) (qs : List Property) : Mixed (ps ++ qs) := by
  rw [mixed_iff_keywords] at h ⊢
  rw [List.map_append]
  simp only [List.mem_append]
  exact ⟨.inl h.1, h.2.imp .inl .inl⟩

theorem not_mixed_singleton (p : Property) : ¬ Mixed [p] := by
  rw [mixed_iff_keywords]
  cases p <;> simp [keyword]

theorem kindOf_singleton (p : Property) : kindOf [p] = p.kind := by
  cases p <;> simp [kindOf, keyword, kind]

/-- The fold over unmixed properties yields their unified kind, and the next property
clashes with it exactly if it makes them mixed. -/
theorem unify_kindOf (hps : ps ≠ []) (h : ¬ Mixed ps) (p : Property) :
    (kindOf ps).unify p.kind = if Mixed (ps ++ [p]) then none else some (kindOf (ps ++ [p])) := by
  have hsome : .type ∈ ps.map keyword ∨ .isa ∈ ps.map keyword ∨ .relation ∈ ps.map keyword := by
    obtain ⟨q, qs, rfl⟩ := List.exists_cons_of_ne_nil hps
    cases q <;> simp [keyword]
  simp only [mixed_iff_keywords, kindOf, List.map_append, List.mem_append, List.map_singleton,
    List.mem_singleton] at h ⊢
  generalize ps.map keyword = ks at hsome h ⊢
  by_cases htype : .type ∈ ks
  · cases p <;> simp_all [keyword, kind, Kind.unify]
  · by_cases hrelation : .relation ∈ ks
    · cases p <;> simp_all [keyword, kind, Kind.unify]
    · cases p <;> simp_all [keyword, kind, Kind.unify]

/-- Mixed properties have a shortest mixed prefix. -/
theorem Mixed.exists_first (h : Mixed ps) :
    ∃ before p after, ps = before ++ p :: after ∧ ¬ Mixed before ∧ Mixed (before ++ [p]) := by
  induction ps using List.reverseRecOn with
  | nil => exact absurd h (by decide)
  | append_singleton ps q ih =>
      by_cases hps : Mixed ps
      · obtain ⟨before, p, after, rfl, hfirst⟩ := ih hps
        exact ⟨before, p, after ++ [q], by simp, hfirst⟩
      · exact ⟨ps, q, [], rfl, hps, h⟩

end Property

namespace Statement

variable {s : Statement}

/-- The clash of a statement: the first property that is mixed with those before it. -/
def HasFault (s : Statement) (c : Clash) : Prop :=
  ∃ before p after, s.properties = before ++ p :: after ∧ ¬ Property.Mixed before ∧
    Property.Mixed (before ++ [p]) ∧ c = ⟨s, Property.kindOf before, p⟩

theorem kindFrom_append {done before : List Property} (hdone : done ≠ [])
    (h : ¬ Property.Mixed (done ++ before)) (ps : List Property) :
    s.kindFrom (Property.kindOf done) (before ++ ps) =
      s.kindFrom (Property.kindOf (done ++ before)) ps := by
  induction before generalizing done with
  | nil => simp
  | cons p before ih =>
      rw [List.append_cons] at h
      have hp : ¬ Property.Mixed (done ++ [p]) := fun hp => h (hp.append before)
      have hbefore : ¬ Property.Mixed done := fun hmixed => hp (hmixed.append [p])
      rw [List.cons_append, kindFrom, Property.unify_kindOf hdone hbefore, if_neg hp,
        List.append_cons done p before]
      exact ih (by simp) h

theorem kind_of_append {before after : List Property} (hps : s.properties = before ++ after)
    (hbefore : before ≠ []) (h : ¬ Property.Mixed before) :
    s.kind = s.kindFrom (Property.kindOf before) after := by
  obtain ⟨p, before, rfl⟩ := List.exists_cons_of_ne_nil hbefore
  have hfrom := s.kindFrom_append (List.cons_ne_nil p []) h after
  rw [Property.kindOf_singleton] at hfrom
  simp only [kind, hps, List.cons_append]
  exact hfrom

theorem kind_of_not_mixed (h : ¬ Property.Mixed s.properties) :
    s.kind = .ok (Property.kindOf s.properties) := by
  cases hps : s.properties with
  | nil => simp [kind, hps, Property.kindOf]
  | cons p ps =>
      rw [hps] at h
      rw [kind_of_append (hps.trans (List.append_nil _).symm) (List.cons_ne_nil p ps) h, kindFrom]

theorem HasFault.kind_eq {c : Clash} (h : s.HasFault c) : s.kind = .error c := by
  obtain ⟨before, p, after, hps, hbefore, hp, rfl⟩ := h
  have hne : before ≠ [] := by
    rintro rfl
    exact Property.not_mixed_singleton p hp
  rw [kind_of_append hps hne hbefore, kindFrom, Property.unify_kindOf hne hbefore, if_pos hp]

theorem exists_hasFault (h : Property.Mixed s.properties) : ∃ c, s.HasFault c := by
  obtain ⟨before, p, after, hps, hfirst⟩ := h.exists_first
  exact ⟨_, before, p, after, hps, hfirst.1, hfirst.2, rfl⟩

theorem kind_eq_ok_iff {k : Kind} :
    s.kind = .ok k ↔ ¬ Property.Mixed s.properties ∧ k = Property.kindOf s.properties := by
  by_cases h : Property.Mixed s.properties
  · obtain ⟨c, hc⟩ := exists_hasFault h
    rw [hc.kind_eq]
    exact iff_of_false nofun fun hk => hk.1 h
  · rw [kind_of_not_mixed h, and_iff_right h, Except.ok.injEq, eq_comm]

theorem kind_eq_error_iff {c : Clash} : s.kind = .error c ↔ s.HasFault c := by
  refine ⟨fun hkind => ?_, HasFault.kind_eq⟩
  have h : Property.Mixed s.properties := by
    by_contra h
    rw [kind_of_not_mixed h] at hkind
    cases hkind
  obtain ⟨d, hd⟩ := exists_hasFault h
  rw [hd.kind_eq, Except.error.injEq] at hkind
  rwa [← hkind]

theorem clash?_eq_some_iff {c : Clash} : s.clash? = some c ↔ s.HasFault c := by
  rw [← kind_eq_error_iff, clash?]
  cases s.kind <;> simp

/-- A single statement has no clash exactly if it is not mixed. -/
theorem clash?_eq_none_iff : s.clash? = none ↔ ¬ Property.Mixed s.properties := by
  rw [clash?]
  cases hkind : s.kind with
  | ok k => exact iff_of_true rfl (kind_eq_ok_iff.mp hkind).1
  | error c =>
      refine iff_of_false nofun fun h => ?_
      rw [kind_of_not_mixed h] at hkind
      cases hkind

theorem validateAll_eq_ok_iff {ss : List Statement} :
    validateAll ss = .ok () ↔ ∀ s ∈ ss, s.clash? = none := by
  rw [validateAll, ← List.findSome?_eq_none_iff]
  cases ss.findSome? clash? with
  | none => exact iff_of_true rfl rfl
  | some e => exact iff_of_false nofun nofun

/-- Validation reports the clash of the first mixed statement. -/
theorem validateAll_eq_error_iff {ss : List Statement} {c : Clash} :
    validateAll ss = .error c ↔
      ∃ before t after, ss = before ++ t :: after ∧
        (∀ b ∈ before, ¬ Property.Mixed b.properties) ∧ t.HasFault c := by
  have hfind : validateAll ss = .error c ↔ ss.findSome? clash? = some c := by
    rw [validateAll]
    cases ss.findSome? clash? <;> simp
  rw [hfind, List.findSome?_eq_some_iff]
  simp only [clash?_eq_some_iff, clash?_eq_none_iff, and_comm]

/-! ### Flat statements -/

/-- A bare variable or a label. -/
def IsLeaf (s : Statement) : Prop :=
  (∃ v, s = bare v) ∨ ∃ label, s = ofLabel label

theorem isLeaf_bare (v : Variable) : (bare v).IsLeaf := .inl ⟨v, rfl⟩

theorem isLeaf_ofLabel (label : String) : (ofLabel label).IsLeaf := .inr ⟨label, rfl⟩

theorem IsLeaf.children_eq_nil (h : s.IsLeaf) : s.children = [] := by
  rcases h with ⟨v, rfl⟩ | ⟨label, rfl⟩ <;> rfl

theorem IsLeaf.clash?_eq_none (h : s.IsLeaf) : s.clash? = none := by
  rcases h with ⟨v, rfl⟩ | ⟨label, rfl⟩ <;> rfl

theorem walk_of_isLeaf {ss : List Statement} (h : ∀ s ∈ ss, s.IsLeaf) : walk ss = ss := by
  induction ss with
  | nil => exact walk_nil
  | cons s ss ih =>
      rw [List.forall_mem_cons] at h
      rw [walk_cons, h.1.children_eq_nil, List.nil_append, ih h.2]

/-- The inner statements of a statement whose children are leaves. -/
theorem innerStatements_of_isLeaf (h : ∀ c ∈ s.children, c.IsLeaf) :
    s.innerStatements = s :: s.children := by
  rw [innerStatements, walk_cons, List.append_nil, walk_of_isLeaf h]

/-- Statements whose children are leaves are valid exactly if none of them is mixed. -/
theorem validateAll_eq_ok_iff_of_isLeaf (ss : List Statement)
    (h : ∀ s ∈ ss, ∀ c ∈ s.children, c.IsLeaf) :
    validateAll (ss.flatMap innerStatements) = .ok () ↔
      ∀ s ∈ ss, ¬ Property.Mixed s.properties := by
  rw [validateAll_eq_ok_iff]
  constructor
  · intro hvalid s hs
    refine clash?_eq_none_iff.mp (hvalid s ?_)
    rw [List.mem_flatMap]
    exact ⟨s, hs, by rw [innerStatements_of_isLeaf (h s hs)]; exact List.mem_cons_self⟩
  · intro hmixed t ht
    obtain ⟨s, hs, hts⟩ := List.mem_flatMap.mp ht
    rw [innerStatements_of_isLeaf (h s hs), List.mem_cons] at hts
    rcases hts with rfl | hts
    · exact clash?_eq_none_iff.mpr (hmixed t hs)
    · exact (h s hs t hts).clash?_eq_none

end Statement

end GraphPattern
