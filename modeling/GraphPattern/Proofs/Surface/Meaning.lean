import GraphPattern.Proofs.Statement.Extension
import GraphPattern.Proofs.Statement.Validity
import GraphPattern.Proofs.Surface.Grammar

/-!
The denotation of a surface form. The meaning of a statement is partial, because its
properties are added one by one. `denoted` is total and defines the statement in closed
form, with each of its properties once, in the order of first occurrence. The two agree on
consistent forms, and inconsistent ones have no meaning.

A denoted value is flat, so its validity can be read off its properties.
-/

namespace GraphPattern.Surface

/-! ### Statements -/

/-- The meanings of the properties of a form, in order. -/
def Statement.propertyMeanings (s : Statement) : List GraphPattern.Property :=
  s.properties.map Property.meaning

/-- Properties of one keyword have one meaning. -/
def Statement.IsConsistent (s : Statement) : Prop := Property.Consistent s.propertyMeanings

/-- A type property stands beside an `isa` or a relation property. -/
def Statement.IsMixed (s : Statement) : Prop := Property.Mixed s.propertyMeanings

/-- The conflict of a form: its first property that differs from an earlier one of its
keyword. -/
def Statement.Conflicts (s : Statement) (c : Conflict) : Prop :=
  Property.Conflicts s.subject s.propertyMeanings c

instance (s : Statement) : Decidable s.IsConsistent :=
  inferInstanceAs (Decidable (Property.Consistent s.propertyMeanings))

instance (s : Statement) : Decidable s.IsMixed :=
  inferInstanceAs (Decidable (Property.Mixed s.propertyMeanings))

/-- The denoted statement, with the first of equal properties. -/
def Statement.denoted (s : Statement) : GraphPattern.Statement :=
  ⟨s.subject, s.propertyMeanings.eraseDups⟩

theorem Statement.meaning_eq_ok_iff {s : Statement} {s' : GraphPattern.Statement} :
    s.meaning = .ok s' ↔ s.IsConsistent ∧ s' = s.denoted :=
  Statement.addProperties_eq_ok_iff

theorem Statement.meaning_of_isConsistent {s : Statement} (h : s.IsConsistent) :
    s.meaning = .ok s.denoted :=
  meaning_eq_ok_iff.mpr ⟨h, rfl⟩

theorem Statement.meaning_eq_error_iff {s : Statement} {c : Conflict} :
    s.meaning = .error c ↔ s.Conflicts c :=
  Statement.addProperties_eq_error_iff

/-! ### Rows of statements -/

theorem meanings_cons_eq_ok_iff {s : Statement} {ss : List Statement}
    {ss' : List GraphPattern.Statement} :
    meanings (s :: ss) = .ok ss' ↔
      s.IsConsistent ∧ ∃ ts, meanings ss = .ok ts ∧ ss' = s.denoted :: ts := by
  rw [meanings]
  cases hs : s.meaning with
  | error c =>
      refine iff_of_false nofun ?_
      rintro ⟨hconsistent, -⟩
      rw [s.meaning_of_isConsistent hconsistent] at hs
      cases hs
  | ok s' =>
      obtain ⟨hconsistent, rfl⟩ := Statement.meaning_eq_ok_iff.mp hs
      cases meanings ss <;> simp [hconsistent, eq_comm]

/-- Only consistent statements precede the first conflict. -/
theorem meanings_cons_eq_error_iff {s : Statement} {ss : List Statement} {c : Conflict} :
    meanings (s :: ss) = .error c ↔ s.Conflicts c ∨ s.IsConsistent ∧ meanings ss = .error c := by
  rw [← Statement.meaning_eq_error_iff, meanings]
  cases hs : s.meaning with
  | error c' =>
      have hnot : ¬ s.IsConsistent := by
        intro hconsistent
        rw [s.meaning_of_isConsistent hconsistent] at hs
        cases hs
      simp [hnot]
  | ok s' =>
      obtain ⟨hconsistent, rfl⟩ := Statement.meaning_eq_ok_iff.mp hs
      cases meanings ss <;> simp [hconsistent]

/-- The conflict of a row of statements is that of the first inconsistent one. -/
theorem meanings_eq_error_iff {ss : List Statement} {c : Conflict} :
    meanings ss = .error c ↔
      ∃ before s after, ss = before ++ s :: after ∧ (∀ b ∈ before, b.IsConsistent) ∧
        s.Conflicts c := by
  induction ss with
  | nil => simp [meanings]
  | cons s ss ih =>
      rw [meanings_cons_eq_error_iff, ih]
      constructor
      · rintro (hs | ⟨hs, before, t, after, rfl, hbefore, ht⟩)
        · exact ⟨[], s, ss, rfl, List.forall_mem_nil _, hs⟩
        · exact ⟨s :: before, t, after, rfl, List.forall_mem_cons.mpr ⟨hs, hbefore⟩, ht⟩
      · rintro ⟨before, t, after, hss, hbefore, ht⟩
        cases before with
        | nil =>
            obtain ⟨rfl, rfl⟩ := List.cons.inj hss
            exact .inl ht
        | cons b before =>
            obtain ⟨rfl, rfl⟩ := List.cons.inj hss
            rw [List.forall_mem_cons] at hbefore
            exact .inr ⟨hbefore.1, before, t, after, rfl, hbefore.2, ht⟩

theorem meanings_eq_ok_iff {ss : List Statement} {ss' : List GraphPattern.Statement} :
    meanings ss = .ok ss' ↔
      (∀ s ∈ ss, s.IsConsistent) ∧ ss' = ss.map Statement.denoted := by
  induction ss generalizing ss' with
  | nil => simp [meanings, eq_comm]
  | cons s ss ih => simp [meanings_cons_eq_ok_iff, ih, and_assoc]

/-- Meanings of concatenated rows, unless the first row has a conflict. -/
theorem meanings_append (ss ts : List Statement) :
    meanings (ss ++ ts) = (meanings ss).bind fun ss' => (meanings ts).map (ss' ++ ·) := by
  induction ss with
  | nil =>
      rw [List.nil_append, meanings]
      cases meanings ts <;> rfl
  | cons s ss ih =>
      rw [List.cons_append, meanings, meanings, ih]
      cases s.meaning with
      | error c => rfl
      | ok s' =>
          cases meanings ss with
          | error c => rfl
          | ok ss' => cases meanings ts <;> rfl

theorem meanings_singleton (s : Statement) : meanings [s] = s.meaning.map fun s' => [s'] := by
  rw [meanings]
  cases s.meaning <;> rfl

theorem meanings_append_of_error {ss : List Statement} {c : Conflict} (h : meanings ss = .error c)
    (ts : List Statement) : meanings (ss ++ ts) = .error c := by
  rw [meanings_append, h]
  rfl

theorem meanings_of_isConsistent {ss : List Statement} (h : ∀ s ∈ ss, s.IsConsistent) :
    meanings ss = .ok (ss.map Statement.denoted) :=
  meanings_eq_ok_iff.mpr ⟨h, rfl⟩

/-! ### Patterns -/

/-- Every statement of the pattern is consistent. -/
def Pattern.IsConsistent (p : Pattern) : Prop := ∀ s ∈ p.statements, s.IsConsistent

/-- Some statement of the pattern is mixed. -/
def Pattern.IsMixed (p : Pattern) : Prop := ∃ s ∈ p.statements, s.IsMixed

instance (p : Pattern) : Decidable p.IsConsistent :=
  inferInstanceAs (Decidable (∀ s ∈ p.statements, s.IsConsistent))

instance (p : Pattern) : Decidable p.IsMixed :=
  inferInstanceAs (Decidable (∃ s ∈ p.statements, s.IsMixed))

/-- The denoted pattern. -/
def Pattern.denoted (p : Pattern) : GraphPattern.Pattern :=
  ⟨p.statements.map Statement.denoted⟩

theorem Pattern.meaning_eq_ok_iff {p : Pattern} {p' : GraphPattern.Pattern} :
    p.meaning = .ok p' ↔ p.IsConsistent ∧ p' = p.denoted := by
  rw [Pattern.meaning]
  cases h : meanings p.statements with
  | error c =>
      refine iff_of_false nofun ?_
      rintro ⟨hall, -⟩
      rw [meanings_of_isConsistent hall] at h
      cases h
  | ok ss =>
      obtain ⟨hall, rfl⟩ := meanings_eq_ok_iff.mp h
      rw [Except.map, Except.ok.injEq, eq_comm]
      exact (and_iff_right hall).symm

theorem Pattern.meaning_eq_error_iff {p : Pattern} {c : Conflict} :
    p.meaning = .error c ↔ meanings p.statements = .error c := by
  rw [Pattern.meaning]
  cases meanings p.statements with
  | error c' => rw [Except.map, Except.error.injEq, Except.error.injEq]
  | ok ss => exact iff_of_false nofun nofun

/-! ### Validity -/

theorem TypeRef.isLeaf_meaning (t : TypeRef) : t.meaning.IsLeaf := by
  cases t with
  | label name => exact Statement.isLeaf_ofLabel name
  | var v => exact Statement.isLeaf_bare v

theorem RolePlayer.isLeaf_of_mem_statements (a : RolePlayer) :
    ∀ s ∈ a.meaning.statements, s.IsLeaf := by
  cases a with
  | plain player => simpa [meaning, RolePlayer.statements] using Statement.isLeaf_bare player
  | tagged role player =>
      simpa [meaning, RolePlayer.statements] using
        ⟨Statement.isLeaf_bare player, role.isLeaf_meaning⟩

theorem Property.isLeaf_of_mem_statements (p : Property) :
    ∀ s ∈ p.meaning.statements, s.IsLeaf := by
  cases p with
  | relation as =>
      intro s hs
      obtain ⟨a, ha, hsa⟩ := List.mem_flatMap.mp hs
      obtain ⟨b, -, rfl⟩ := List.mem_map.mp ha
      exact b.isLeaf_of_mem_statements s hsa
  | isa t => simpa [meaning, GraphPattern.Property.statements] using t.isLeaf_meaning
  | type label =>
      intro s hs
      cases hs

/-- The children of a denoted statement are leaves. -/
theorem Statement.isLeaf_of_mem_children (s : Statement) :
    ∀ c ∈ s.denoted.children, c.IsLeaf := by
  intro c hc
  obtain ⟨p, hp, hcp⟩ := List.mem_flatMap.mp hc
  obtain ⟨q, -, rfl⟩ := List.mem_map.mp (List.mem_eraseDups.mp hp)
  exact q.isLeaf_of_mem_statements c hcp

theorem Statement.mixed_denoted_iff (s : Statement) :
    Property.Mixed s.denoted.properties ↔ s.IsMixed := by
  simp only [denoted, IsMixed, Property.Mixed, List.mem_eraseDups]

/-- A consistent pattern is valid unless one of its statements is mixed. -/
theorem Pattern.validate_denoted_eq_ok_iff (p : Pattern) :
    p.denoted.validate = .ok () ↔ ¬ p.IsMixed := by
  rw [Pattern.validate, Pattern.innerStatements, Statement.validateAll_eq_ok_iff_of_isLeaf]
  · simp [denoted, IsMixed, Statement.mixed_denoted_iff]
  · intro s hs
    obtain ⟨t, -, rfl⟩ := List.mem_map.mp hs
    exact t.isLeaf_of_mem_children

theorem Statement.validate_denoted_eq_ok_iff (s : Statement) :
    s.denoted.validate = .ok () ↔ ¬ s.IsMixed := by
  have h := Statement.validateAll_eq_ok_iff_of_isLeaf [s.denoted]
    (by simpa using s.isLeaf_of_mem_children)
  simpa [Statement.validate, Statement.mixed_denoted_iff] using h

end GraphPattern.Surface
