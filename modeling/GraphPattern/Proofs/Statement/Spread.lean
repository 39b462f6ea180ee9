import GraphPattern.Proofs.Statement.Tokens

/-!
The spread of a statement. A type that is a variable with properties of its own is printed
in full, and its properties cannot be told from those of the statement around it. `spread`
moves them there: the result has the same tokens, and no type in it is a variable with
properties.

The tokens of a statement are writable if the names and labels in it and in its nested
statements are.
-/

namespace GraphPattern

/-! ### Spreading -/

mutual

/-- The properties that a property reads as: those of a type variable follow the `isa`
property. -/
def Property.spread : Property → List Property
  | .isa ⟨.visible name, ps⟩ => .isa (.bare (.visible name)) :: Property.spreadList ps
  | p => [p]

def Property.spreadList : List Property → List Property
  | [] => []
  | p :: ps => p.spread ++ Property.spreadList ps

end

theorem Property.spreadList_eq_flatMap (ps : List Property) :
    spreadList ps = ps.flatMap spread := by
  induction ps with
  | nil => rfl
  | cons p ps ih => rw [spreadList, ih, List.flatMap_cons]

/-- A type that is a variable has no properties. -/
def Property.IsPlain : Property → Prop
  | isa t => t.properties = [] ∨ t.subject = .anonymous
  | relation _ | type _ => True

/-- The statement with the properties of its type variables moved to it. -/
def Statement.spread (s : Statement) : Statement :=
  ⟨s.subject, s.properties.flatMap Property.spread⟩

theorem Property.spread_ne_nil (p : Property) : p.spread ≠ [] := by
  fun_cases spread p <;> simp

theorem Property.spread_of_isPlain {p : Property} (h : p.IsPlain) : p.spread = [p] := by
  cases p with
  | relation players => rfl
  | type label => rfl
  | isa t =>
      obtain ⟨v, ps⟩ := t
      cases v with
      | anonymous => rfl
      | visible name =>
          obtain rfl : ps = [] := by simpa [IsPlain] using h
          rfl

mutual

theorem Property.isPlain_of_mem_spread (p : Property) : ∀ q ∈ p.spread, q.IsPlain := by
  match p with
  | .relation players => exact List.forall_mem_singleton.mpr trivial
  | .type label => exact List.forall_mem_singleton.mpr trivial
  | .isa ⟨.anonymous, ps⟩ => exact List.forall_mem_singleton.mpr (.inr rfl)
  | .isa ⟨.visible name, ps⟩ =>
      exact List.forall_mem_cons.mpr ⟨.inl rfl, isPlain_of_mem_spreadList ps⟩

theorem Property.isPlain_of_mem_spreadList (ps : List Property) :
    ∀ q ∈ spreadList ps, q.IsPlain := by
  match ps with
  | [] => exact List.forall_mem_nil _
  | p :: ps =>
      exact List.forall_mem_append.mpr ⟨p.isPlain_of_mem_spread, isPlain_of_mem_spreadList ps⟩

end

mutual

/-- Spreading a property preserves its tokens. -/
theorem Property.flatMap_tokens_spread (p : Property) : p.spread.flatMap tokens = p.tokens := by
  match p with
  | .relation players => exact List.flatMap_singleton _ _
  | .type label => exact List.flatMap_singleton _ _
  | .isa ⟨.anonymous, ps⟩ => exact List.flatMap_singleton _ _
  | .isa ⟨.visible name, ps⟩ =>
      have htype : (Property.isa ⟨.visible name, ps⟩).tokens =
          .isaWord :: .var (.visible name) :: ps.flatMap tokens := by
        rw [tokens, Statement.shortTokens_eq, List.flatMap_def]
        rfl
      rw [htype, spread, List.flatMap_cons, flatMap_tokens_spreadList ps]
      rfl

theorem Property.flatMap_tokens_spreadList (ps : List Property) :
    (spreadList ps).flatMap tokens = ps.flatMap tokens := by
  match ps with
  | [] => rfl
  | p :: ps =>
      rw [spreadList, List.flatMap_append, p.flatMap_tokens_spread, flatMap_tokens_spreadList ps,
        List.flatMap_cons]

end

namespace Statement

variable {s : Statement}

/-- The tokens of a statement are its written subject and the tokens of its properties. -/
theorem tokens_eq (s : Statement) :
    s.tokens = (if s.subject = .anonymous ∧ s.properties ≠ [] then [] else [.var s.subject]) ++
      s.properties.flatMap Property.tokens := by
  obtain ⟨v, ps⟩ := s
  rw [tokens, List.flatMap_def]
  cases v <;> cases ps <;> simp [fullTokens]

theorem isPlain_of_mem_spread (s : Statement) : ∀ p ∈ s.spread.properties, p.IsPlain := by
  rw [spread, ← Property.spreadList_eq_flatMap]
  exact Property.isPlain_of_mem_spreadList s.properties

theorem tokens_spread (s : Statement) : s.spread.tokens = s.tokens := by
  have hflat : s.spread.properties.flatMap Property.tokens =
      s.properties.flatMap Property.tokens := by
    rw [spread, ← Property.spreadList_eq_flatMap, Property.flatMap_tokens_spreadList]
  have hnil : s.spread.properties = [] ↔ s.properties = [] := by
    simp only [spread, List.flatMap_eq_nil_iff, Property.spread_ne_nil, imp_false]
    exact List.eq_nil_iff_forall_not_mem.symm
  have hsubject : s.spread.subject = s.subject := rfl
  rw [tokens_eq, tokens_eq, hflat]
  simp only [hsubject, hnil, ne_eq]

/-! ### Names

The tokens of a statement are writable if the names in it are. -/

/-- The subject and the labels of the statement are writable. -/
structure HasWritableNames (s : Statement) : Prop where
  subject : s.subject.IsWritable
  labels : ∀ label, .type label ∈ s.properties → IsLabelName label

end Statement

instance : DecidablePred Statement.HasWritableNames := fun s =>
  decidable_of_iff
    (s.subject.IsWritable ∧ ∀ label ∈ s.properties.filterMap Property.typeLabel?, IsLabelName label)
    (by
      simp only [List.mem_filterMap, Property.typeLabel?_eq_some_iff, exists_eq_right]
      exact ⟨fun h => ⟨h.1, h.2⟩, fun h => ⟨h.subject, h.labels⟩⟩)

theorem RolePlayer.isWritable_tokens {a : RolePlayer}
    (h : ∀ c ∈ a.statements, ∀ k ∈ c.shortTokens, k.IsWritable) : ∀ k ∈ a.tokens, k.IsWritable := by
  cases a with
  | plain player => exact h player (List.mem_singleton_self _)
  | tagged role player =>
      rw [statements, List.forall_mem_cons, List.forall_mem_singleton] at h
      rw [tokens, List.forall_mem_append, List.forall_mem_cons]
      exact ⟨h.2, trivial, h.1⟩

theorem Property.isWritable_tokens {p : Property}
    (h : ∀ c ∈ p.statements, ∀ k ∈ c.shortTokens, k.IsWritable)
    (hlabel : ∀ label, p = .type label → IsLabelName label) : ∀ k ∈ p.tokens, k.IsWritable := by
  cases p with
  | isa t => exact List.forall_mem_cons.mpr ⟨trivial, h t (List.mem_singleton_self _)⟩
  | type label =>
      exact List.forall_mem_cons.mpr ⟨trivial, List.forall_mem_singleton.mpr (hlabel label rfl)⟩
  | relation players =>
      rw [tokens_relation, List.forall_mem_append, List.forall_mem_cons]
      refine ⟨⟨trivial, forall_mem_joined trivial fun a ha => ?_⟩,
        List.forall_mem_singleton.mpr trivial⟩
      exact RolePlayer.isWritable_tokens fun c hc => h c (List.mem_flatMap_of_mem ha hc)

namespace Statement

variable {s : Statement}

theorem HasWritableNames.tokens (h : s.HasWritableNames)
    (hchildren : ∀ c ∈ s.children, ∀ k ∈ c.shortTokens, k.IsWritable) :
    ∀ k ∈ s.tokens, k.IsWritable := by
  refine isWritable_fullTokens_iff.mpr ⟨h.subject, List.forall_mem_map.mpr fun p hp => ?_⟩
  refine Property.isWritable_tokens (fun c hc => hchildren c (List.mem_flatMap_of_mem hp hc)) ?_
  rintro label rfl
  exact h.labels label hp

theorem isWritable_shortTokens (h : ∀ t ∈ s.innerStatements, t.HasWritableNames) :
    ∀ k ∈ s.shortTokens, k.IsWritable := by
  induction s using child_induction with
  | step s ih =>
      obtain ⟨hs, hchildren⟩ := forall_mem_innerStatements_iff.mp h
      rcases shortForm_cases s.subject s.properties with ⟨label, hv, hps⟩ | ⟨-, htokens⟩
      · rw [shortTokens_eq, hv, hps]
        exact List.forall_mem_singleton.mpr (hs.labels label (by simp [hps]))
      · rw [shortTokens_eq, htokens]
        exact hs.tokens fun c hc => ih c hc (hchildren c hc)

theorem isWritable_tokens (h : ∀ t ∈ s.innerStatements, t.HasWritableNames) :
    ∀ k ∈ s.tokens, k.IsWritable := by
  obtain ⟨hs, hchildren⟩ := forall_mem_innerStatements_iff.mp h
  exact hs.tokens fun c hc => isWritable_shortTokens (hchildren c hc)

end Statement

end GraphPattern
