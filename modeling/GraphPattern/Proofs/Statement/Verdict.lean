import GraphPattern.Error
import GraphPattern.Proofs.Statement.Nesting
import GraphPattern.Proofs.Statement.Validity

/-!
Validation reports the first clash, in the order of the walk and of the properties within a
statement. Whether there is a clash, and the kind of a valid statement, depend only on the
sets of keywords in the single statements, so they are invariant under reordering properties
at any depth.
-/

namespace GraphPattern

namespace Statement

/-! ### Reordering -/

/-- The second statement is the first with properties permuted, in the statement itself and
in all nested ones. -/
inductive Reordered : Statement → Statement → Prop
  | perm (v : Variable) {ps qs : List Property} (h : ps.Perm qs) : Reordered ⟨v, ps⟩ ⟨v, qs⟩
  | isa (v : Variable) (ps qs : List Property) {t t' : Statement} (h : Reordered t t') :
      Reordered ⟨v, ps ++ .isa t :: qs⟩ ⟨v, ps ++ .isa t' :: qs⟩
  | player (v : Variable) (ps qs : List Property) (as bs : List RolePlayer)
      (role? : Option Statement) {t t' : Statement} (h : Reordered t t') :
      Reordered ⟨v, ps ++ .relation (as ++ .ofRole? role? t :: bs) :: qs⟩
        ⟨v, ps ++ .relation (as ++ .ofRole? role? t' :: bs) :: qs⟩
  | role (v : Variable) (ps qs : List Property) (as bs : List RolePlayer) (player : Statement)
      {t t' : Statement} (h : Reordered t t') :
      Reordered ⟨v, ps ++ .relation (as ++ .tagged t player :: bs) :: qs⟩
        ⟨v, ps ++ .relation (as ++ .tagged t' player :: bs) :: qs⟩
  | trans {s t u : Statement} (hst : Reordered s t) (htu : Reordered t u) : Reordered s u

variable {s s' : Statement}

theorem Reordered.mem_keywords_iff (h : s.Reordered s') {k : Keyword} :
    k ∈ s.properties.map Property.keyword ↔ k ∈ s'.properties.map Property.keyword := by
  induction h with
  | perm v h => exact (h.map Property.keyword).mem_iff
  | isa | player | role => simp only [List.map_append, List.map_cons, Property.keyword]
  | trans _ _ ih ih' => exact ih.trans ih'

theorem Reordered.mixed_iff (h : s.Reordered s') :
    Property.Mixed s.properties ↔ Property.Mixed s'.properties := by
  simp only [Property.mixed_iff_keywords, h.mem_keywords_iff]

theorem Reordered.kindOf_eq (h : s.Reordered s') :
    Property.kindOf s.properties = Property.kindOf s'.properties := by
  simp only [Property.kindOf, h.mem_keywords_iff]

theorem Reordered.kind_eq_ok_iff (h : s.Reordered s') {k : Kind} :
    s.kind = .ok k ↔ s'.kind = .ok k := by
  rw [Statement.kind_eq_ok_iff, Statement.kind_eq_ok_iff, h.mixed_iff, h.kindOf_eq]

end Statement

theorem RolePlayer.statements_ofRole? (role? : Option Statement) (player : Statement) :
    (ofRole? role? player).statements = player :: role?.toList := by
  cases role? <;> rfl

namespace Statement

variable {s s' : Statement}

/-- No inner statement is mixed. -/
def IsUnmixed (s : Statement) : Prop := ∀ t ∈ s.innerStatements, ¬ Property.Mixed t.properties

theorem isUnmixed_iff :
    s.IsUnmixed ↔ ¬ Property.Mixed s.properties ∧ ∀ c ∈ s.children, c.IsUnmixed :=
  forall_mem_innerStatements_iff

/-- Reordering preserves unmixed statements. -/
theorem Reordered.isUnmixed_iff (h : s.Reordered s') : s.IsUnmixed ↔ s'.IsUnmixed := by
  have hmixed := h.mixed_iff
  induction h with
  | trans hst htu ih ih' => exact (ih hst.mixed_iff).trans (ih' htu.mixed_iff)
  | perm v hperm =>
      have hchildren := hperm.flatMap_right Property.statements
      rw [Statement.isUnmixed_iff, Statement.isUnmixed_iff, hmixed]
      simp only [children, hchildren.mem_iff]
  | isa v ps qs h ih =>
      rw [Statement.isUnmixed_iff, Statement.isUnmixed_iff, hmixed]
      simp only [children, Property.statements, List.flatMap_append, List.flatMap_cons,
        List.forall_mem_append, List.forall_mem_singleton, ih h.mixed_iff]
  | player v ps qs as bs role? h ih =>
      rw [Statement.isUnmixed_iff, Statement.isUnmixed_iff, hmixed]
      simp only [children, Property.statements, List.flatMap_append, List.flatMap_cons,
        RolePlayer.statements_ofRole?, List.forall_mem_append, List.forall_mem_cons,
        ih h.mixed_iff]
  | role v ps qs as bs player h ih =>
      rw [Statement.isUnmixed_iff, Statement.isUnmixed_iff, hmixed]
      simp only [children, Property.statements, List.flatMap_append, List.flatMap_cons,
        RolePlayer.statements, List.forall_mem_append, List.forall_mem_cons, ih h.mixed_iff]

/-! ### Verdicts -/

theorem validate_eq_ok_iff : s.validate = .ok () ↔ s.IsUnmixed := by
  rw [validate, validateAll_eq_ok_iff]
  simp only [clash?_eq_none_iff, IsUnmixed]

/-- `c` is the clash of the first mixed statement. -/
def FirstClash (ss : List Statement) (c : Clash) : Prop :=
  ∃ before t after, ss = before ++ t :: after ∧
    (∀ b ∈ before, ¬ Property.Mixed b.properties) ∧ t.HasFault c

end Statement

theorem Pattern.validate_eq_ok_iff {p : Pattern} :
    p.validate = .ok () ↔ ∀ s ∈ p.statements, s.IsUnmixed := by
  rw [validate, Statement.validateAll_eq_ok_iff]
  simp only [Statement.clash?_eq_none_iff, innerStatements, List.mem_flatMap,
    forall_exists_index, and_imp]
  exact ⟨fun h s hs t ht => h t s hs ht, fun h t s hs ht => h s hs t ht⟩

theorem Pattern.validate_eq_ok_iff_of_reordered {p q : Pattern}
    (h : List.Forall₂ Statement.Reordered p.statements q.statements) :
    p.validate = .ok () ↔ q.validate = .ok () := by
  obtain ⟨ss⟩ := p
  obtain ⟨ts⟩ := q
  rw [validate_eq_ok_iff, validate_eq_ok_iff]
  simp only at h
  induction h with
  | nil => exact Iff.rfl
  | cons hst _ ih => rw [List.forall_mem_cons, List.forall_mem_cons, hst.isUnmixed_iff, ih]

/-- A statement or a pattern is valid exactly if none of its inner statements is mixed, and
validity and the kind of a valid statement are invariant under reordering properties.
Otherwise the error is the clash of the first mixed statement on the walk, at the first
property that is mixed with those before it. -/
theorem validate_reports_first_clash :
    (∀ s : Statement,
      (s.validate = .ok () ↔ ∀ t ∈ s.innerStatements, ¬ Property.Mixed t.properties) ∧
      (∀ k : Kind, s.kind = .ok k ↔
        ¬ Property.Mixed s.properties ∧ k = Property.kindOf s.properties) ∧
      (∀ c : Clash, s.validate = .error c ↔ Statement.FirstClash s.innerStatements c) ∧
      s.innerStatements = s :: s.children.flatMap Statement.innerStatements) ∧
    (∀ p : Pattern,
      (p.validate = .ok () ↔ ∀ t ∈ p.innerStatements, ¬ Property.Mixed t.properties) ∧
      (∀ c : Clash, p.validate = .error c ↔ Statement.FirstClash p.innerStatements c) ∧
      p.innerStatements = p.statements.flatMap Statement.innerStatements) ∧
    (∀ s s' : Statement, s.Reordered s' →
      (s.validate = .ok () ↔ s'.validate = .ok ()) ∧
      ∀ k : Kind, s.kind = .ok k ↔ s'.kind = .ok k) ∧
    (∀ p q : Pattern, List.Forall₂ Statement.Reordered p.statements q.statements →
      (p.validate = .ok () ↔ q.validate = .ok ())) ∧
    ∀ c : Clash, (Error.clash c).message =
      "Property " ++ Error.quoted c.property.text ++ " cannot be attached to " ++ c.kind.text ++
        " statement " ++ Error.quoted c.statement.text := by
  refine ⟨fun s => ⟨Statement.validate_eq_ok_iff, fun k => Statement.kind_eq_ok_iff, fun c => ?_,
    s.innerStatements_eq⟩, fun p => ⟨?_, fun c => ?_, rfl⟩, fun s s' h => ⟨?_, fun k => ?_⟩,
    fun p q => Pattern.validate_eq_ok_iff_of_reordered, fun c => rfl⟩
  · exact Statement.validateAll_eq_error_iff
  · rw [Pattern.validate, Statement.validateAll_eq_ok_iff]
    simp only [Statement.clash?_eq_none_iff]
  · exact Statement.validateAll_eq_error_iff
  · rw [Statement.validate_eq_ok_iff, Statement.validate_eq_ok_iff, h.isUnmixed_iff]
  · exact h.kind_eq_ok_iff

/-- The player is checked before the role, and the type label of the role precedes its `isa`
property. With the two properties exchanged it is still invalid. -/
theorem validate_reports_first_clash_role :
    Statement.validate ⟨.visible "r", [.relation [.tagged
        ⟨.visible "role", [.type "wife", .isa (.ofLabel "person")]⟩ (.ofName "x")]]⟩ =
      .error ⟨⟨.visible "role", [.type "wife", .isa (.ofLabel "person")]⟩, .type,
        .isa (.ofLabel "person")⟩ ∧
    Statement.validate ⟨.visible "r", [.relation [.tagged
        ⟨.visible "role", [.isa (.ofLabel "person"), .type "wife"]⟩ (.ofName "x")]]⟩ ≠ .ok () := by
  let role : Statement := ⟨.visible "role", [.type "wife", .isa (.ofLabel "person")]⟩
  let role' : Statement := ⟨.visible "role", [.isa (.ofLabel "person"), .type "wife"]⟩
  let s : Statement := ⟨.visible "r", [.relation [.tagged role (.ofName "x")]]⟩
  let s' : Statement := ⟨.visible "r", [.relation [.tagged role' (.ofName "x")]]⟩
  obtain ⟨hstatement, -, hreordered, -⟩ := validate_reports_first_clash
  have hinner : s.innerStatements = [s, .ofName "x"] ++ role :: [.ofLabel "person"] := by
    decide +kernel
  have herror : s.validate = .error ⟨role, .type, .isa (.ofLabel "person")⟩ :=
    ((hstatement s).2.2.1 _).mpr ⟨_, role, _, hinner, by decide +kernel,
      [.type "wife"], .isa (.ofLabel "person"), [], rfl, by decide, by decide, rfl⟩
  have horder : s.Reordered s' :=
    .role _ [] [] [] [] _ (.perm _ (List.Perm.swap _ _ []))
  refine ⟨herror, fun hok => ?_⟩
  rw [((hreordered s s' horder).1).mpr hok] at herror
  cases herror

end GraphPattern
