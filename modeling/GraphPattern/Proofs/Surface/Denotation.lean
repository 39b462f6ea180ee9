import GraphPattern.Proofs.Surface.Form

/-!
Denotations are in surface form. A form is flat and its tokens contain every name in it. So
if these names are writable, the denoted value is in surface form: types and roles are
references, players are variables, and of equal properties the first is kept.

Surface form is inherited by nested statements. The children of a statement in surface form
are references, and a reference is a statement in surface form without further children, so
the walk yields the statement and references only.
-/

namespace GraphPattern

/-! ### Nested statements -/

theorem Statement.IsReference.isLeaf {s : Statement} (h : s.IsReference) : s.IsLeaf := by
  rcases h with ⟨v, -, rfl⟩ | ⟨label, -, rfl⟩
  · exact isLeaf_bare v
  · exact isLeaf_ofLabel label

theorem Statement.IsReference.inSurfaceForm {s : Statement} (h : s.IsReference) :
    s.InSurfaceForm := by
  have hmixed : ¬ Property.Mixed s.properties :=
    clash?_eq_none_iff.mp h.isLeaf.clash?_eq_none
  rcases h with ⟨v, hv, rfl⟩ | ⟨label, hlabel, rfl⟩
  · exact ⟨hv, nofun, List.nodup_nil, hmixed⟩
  · exact ⟨trivial, List.forall_mem_singleton.mpr hlabel, List.nodup_singleton _, hmixed⟩

theorem RolePlayer.InSurfaceForm.isReference {a : RolePlayer} (h : a.InSurfaceForm) :
    ∀ s ∈ a.statements, s.IsReference := by
  cases a with
  | plain player => exact List.forall_mem_singleton.mpr (.inl h)
  | tagged role player =>
      exact List.forall_mem_cons.mpr ⟨.inl h.2, List.forall_mem_singleton.mpr h.1⟩

theorem Relation.InSurfaceForm.isReference {r : Relation} (h : r.InSurfaceForm) :
    ∀ s ∈ r.statements, s.IsReference := by
  intro s hs
  obtain ⟨a, ha, hsa⟩ := List.mem_flatMap.mp hs
  exact (h.players a ha).isReference s hsa

theorem Property.InSurfaceForm.isReference {p : Property} (h : p.InSurfaceForm) :
    ∀ s ∈ p.statements, s.IsReference := by
  cases p with
  | relation players => exact Relation.InSurfaceForm.isReference (r := ⟨players⟩) h
  | isa type => exact List.forall_mem_singleton.mpr h
  | type label => exact nofun

namespace Statement

variable {s t : Statement}

theorem InSurfaceForm.isReference_of_mem_children (h : s.InSurfaceForm) :
    ∀ c ∈ s.children, c.IsReference := by
  intro c hc
  obtain ⟨p, hp, hcp⟩ := List.mem_flatMap.mp hc
  exact (h.properties p hp).isReference c hcp

/-- The inner statements of a statement in surface form are in surface form. -/
theorem InSurfaceForm.of_mem_innerStatements (h : s.InSurfaceForm) (ht : t ∈ s.innerStatements) :
    t.InSurfaceForm := by
  have hchildren := h.isReference_of_mem_children
  rw [innerStatements_of_isLeaf fun c hc => (hchildren c hc).isLeaf, List.mem_cons] at ht
  rcases ht with rfl | ht
  · exact h
  · exact (hchildren t ht).inSurfaceForm

end Statement

theorem Relation.InSurfaceForm.of_mem_innerStatements {r : Relation} (h : r.InSurfaceForm)
    {t : Statement} (ht : t ∈ r.statements.flatMap Statement.innerStatements) :
    t.InSurfaceForm := by
  obtain ⟨s, hs, hts⟩ := List.mem_flatMap.mp ht
  exact (h.isReference s hs).inSurfaceForm.of_mem_innerStatements hts

theorem Pattern.InSurfaceForm.of_mem_innerStatements {p : Pattern} (h : p.InSurfaceForm)
    {t : Statement} (ht : t ∈ p.innerStatements) : t.InSurfaceForm := by
  obtain ⟨s, hs, hts⟩ := List.mem_flatMap.mp ht
  exact (h.statements s hs).of_mem_innerStatements hts

/-! ### Denoted values -/

namespace Surface

theorem TypeRef.isReference_meaning {t : TypeRef} (h : ∀ k ∈ t.tokens, k.IsWritable) :
    t.meaning.IsReference := by
  cases t with
  | label name => exact .inr ⟨name, h (.label name) (List.mem_singleton_self _), rfl⟩
  | var v => exact .inl ⟨v, h (.var v) (List.mem_singleton_self _), rfl⟩

theorem RolePlayer.inSurfaceForm_meaning {a : RolePlayer} (h : ∀ k ∈ a.tokens, k.IsWritable) :
    a.meaning.InSurfaceForm := by
  cases a with
  | plain player => exact ⟨player, h (.var player) (List.mem_singleton_self _), rfl⟩
  | tagged role player =>
      simp only [tokens, List.forall_mem_append, List.forall_mem_cons] at h
      obtain ⟨hrole, -, hplayer, -⟩ := h
      exact ⟨TypeRef.isReference_meaning hrole, player, hplayer, rfl⟩

theorem inSurfaceForm_players {as : List RolePlayer} (hne : as ≠ [])
    (h : ∀ k ∈ relationTokens as, k.IsWritable) :
    Relation.InSurfaceForm ⟨as.map RolePlayer.meaning⟩ := by
  refine ⟨by simpa using hne, List.forall_mem_map.mpr fun a ha => ?_⟩
  refine RolePlayer.inSurfaceForm_meaning fun k hk => h k ?_
  have hplayers : k ∈ playersTokens as := mem_intercalate_of_mem (List.mem_map_of_mem ha) hk
  exact List.mem_append_left _ (List.mem_cons_of_mem _ hplayers)

theorem Property.inSurfaceForm_meaning {p : Property} (hwritten : p.IsWritten)
    (h : ∀ k ∈ p.tokens, k.IsWritable) : p.meaning.InSurfaceForm := by
  cases p with
  | relation as => exact inSurfaceForm_players hwritten h
  | isa t => exact TypeRef.isReference_meaning fun k hk => h k (List.mem_cons_of_mem _ hk)
  | type label => exact h (.label label) (by simp [tokens])

theorem Statement.isWritable_subject {f : Statement} (h : ∀ k ∈ f.tokens, k.IsWritable) :
    f.subject.IsWritable := by
  obtain ⟨subject?, ps⟩ := f
  cases subject? with
  | none => trivial
  | some v => exact h (.var v) (by simp [tokens])

theorem Statement.inSurfaceForm_denoted {f : Statement} (hwritten : f.IsWritten)
    (hconsistent : f.IsConsistent) (hmixed : ¬ f.IsMixed) (h : ∀ k ∈ f.tokens, k.IsWritable) :
    f.denoted.InSurfaceForm where
  subject := isWritable_subject h
  properties := by
    intro p hp
    obtain ⟨q, hq, rfl⟩ := List.mem_map.mp (List.mem_eraseDups.mp hp)
    refine Property.inSurfaceForm_meaning (hwritten.properties q hq) fun k hk => h k ?_
    exact List.mem_append_right _ (List.mem_flatMap.mpr ⟨q, hq, hk⟩)
  nodup := by
    refine (nodup_eraseDups f.propertyMeanings).map_on fun p hp q hq hkey => ?_
    exact hconsistent p (List.mem_eraseDups.mp hp) q (List.mem_eraseDups.mp hq) hkey
  unmixed := f.mixed_denoted_iff.not.mpr hmixed

theorem Pattern.inSurfaceForm_denoted {f : Pattern} (hwritten : f.IsWritten)
    (hconsistent : f.IsConsistent) (hmixed : ¬ f.IsMixed) (h : ∀ k ∈ f.tokens, k.IsWritable) :
    f.denoted.InSurfaceForm where
  nonempty := by simpa [denoted] using hwritten.nonempty
  statements := by
    refine List.forall_mem_map.mpr fun s hs => ?_
    refine Statement.inSurfaceForm_denoted (hwritten.statements s hs) (hconsistent s hs)
      (fun hs' => hmixed ⟨s, hs, hs'⟩) fun k hk => h k ?_
    exact List.mem_append_right _ (List.mem_flatMap.mpr ⟨s, hs, List.mem_append_left _ hk⟩)

end Surface

end GraphPattern
