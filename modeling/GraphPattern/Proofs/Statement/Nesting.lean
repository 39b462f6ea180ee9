import GraphPattern.Statement.Walk

/-!
Induction on nested statements. A property that passes from the children of a statement to
the statement holds of all statements. The children of a statement have smaller size, so
definitions that recur on them need not be unfolded further.
-/

namespace GraphPattern.Statement

theorem size_le_totalSize {s : Statement} {ss : List Statement} (h : s ∈ ss) :
    s.size ≤ totalSize ss := by
  induction ss with
  | nil => cases h
  | cons t ss ih =>
      rw [totalSize_cons]
      rcases List.mem_cons.mp h with rfl | h
      · exact Nat.le_add_right _ _
      · exact Nat.le_add_left_of_le (ih h)

theorem size_lt_of_mem_children {s c : Statement} (h : c ∈ s.children) : c.size < s.size := by
  rw [s.size_eq]
  exact Nat.lt_succ_of_le (size_le_totalSize h)

theorem child_induction {motive : Statement → Prop}
    (step : ∀ s, (∀ c ∈ s.children, motive c) → motive s) (s : Statement) : motive s :=
  step s fun c _ => child_induction step c
termination_by s.size
decreasing_by exact size_lt_of_mem_children ‹_›

/-! ### Walks

The stack of a walk only orders its work: the walk of a stack is the concatenation of the
walks of its statements, and each statement precedes those nested in it. -/

theorem walk_append (ss ts : List Statement) : walk (ss ++ ts) = walk ss ++ walk ts := by
  fun_induction walk ss with
  | case1 => rfl
  | case2 s ss ih =>
      rw [List.append_assoc] at ih
      rw [List.cons_append, walk_cons, ih, List.cons_append]

theorem walk_eq_flatMap (ss : List Statement) : walk ss = ss.flatMap innerStatements := by
  induction ss with
  | nil => exact walk_nil
  | cons s ss ih => rw [← List.singleton_append, walk_append, ih, List.flatMap_append,
      List.flatMap_singleton, innerStatements]

theorem innerStatements_eq (s : Statement) :
    s.innerStatements = s :: s.children.flatMap innerStatements := by
  rw [innerStatements, walk_cons, List.append_nil, walk_eq_flatMap]

theorem self_mem_innerStatements (s : Statement) : s ∈ s.innerStatements := by
  rw [innerStatements_eq]
  exact List.mem_cons_self

/-- A predicate on all inner statements holds of the statement and of the inner statements
of its children. -/
theorem forall_mem_innerStatements_iff {s : Statement} {P : Statement → Prop} :
    (∀ t ∈ s.innerStatements, P t) ↔
      P s ∧ ∀ c ∈ s.children, ∀ t ∈ c.innerStatements, P t := by
  rw [innerStatements_eq, List.forall_mem_cons]
  refine and_congr_right fun _ => ?_
  simp only [List.mem_flatMap, forall_exists_index, and_imp]
  exact ⟨fun h c hc t ht => h t c hc ht, fun h t c hc ht => h c hc t ht⟩

/-- Nesting is transitive. -/
theorem innerStatements_subset {s t : Statement} (h : t ∈ s.innerStatements) :
    t.innerStatements ⊆ s.innerStatements := by
  induction s using child_induction with
  | step s ih =>
      rw [innerStatements_eq, List.mem_cons] at h
      rcases h with rfl | h
      · exact List.Subset.refl _
      · obtain ⟨c, hc, hct⟩ := List.mem_flatMap.mp h
        intro u hu
        rw [innerStatements_eq]
        exact List.mem_cons_of_mem _ (List.mem_flatMap.mpr ⟨c, hc, ih c hc hct hu⟩)

end GraphPattern.Statement
