import GraphPattern.Proofs.Statement.Names

/-!
Visible variables in order of first occurrence. They are deduplicated at two levels: for
each statement along its walk, and for the pattern across the lists of its statements. Each
level keeps a list `seen` of the variables met so far.

`firstSeen` is one such pass, with `seen` as an argument, which the induction on statements
needs. A pass with a smaller list `seen` may be inserted in front of a pass without effect,
since it drops only what the latter would drop.
-/

namespace GraphPattern

section Pass

variable {α : Type} [DecidableEq α] {seen seen' as bs : List α} {a b : α}

/-- One deduplicating pass over a list, from left to right, that starts with `seen`. -/
def firstSeen (seen : List α) : List α → List α
  | [] => []
  | a :: as => if a ∈ seen then firstSeen seen as else a :: firstSeen (a :: seen) as

theorem firstSeen_cons_of_mem (h : a ∈ seen) (as : List α) :
    firstSeen seen (a :: as) = firstSeen seen as := by
  rw [firstSeen, if_pos h]

theorem firstSeen_cons_of_not_mem (h : a ∉ seen) (as : List α) :
    firstSeen seen (a :: as) = a :: firstSeen (a :: seen) as := by
  rw [firstSeen, if_neg h]

/-- A pass depends only on the elements of `seen`. -/
theorem firstSeen_congr (h : ∀ b, b ∈ seen ↔ b ∈ seen') (as : List α) :
    firstSeen seen as = firstSeen seen' as := by
  induction as generalizing seen seen' with
  | nil => rfl
  | cons a as ih =>
      by_cases ha : a ∈ seen
      · rw [firstSeen_cons_of_mem ha, firstSeen_cons_of_mem ((h a).mp ha), ih h]
      · have ha' : a ∉ seen' := fun hmem => ha ((h a).mpr hmem)
        have hcons : ∀ b, b ∈ a :: seen ↔ b ∈ a :: seen' := by simp [h]
        rw [firstSeen_cons_of_not_mem ha, firstSeen_cons_of_not_mem ha', ih hcons]

/-- An element of `seen` need not be added again. -/
theorem firstSeen_seen_of_mem (h : a ∈ seen) (as : List α) :
    firstSeen (a :: seen) as = firstSeen seen as :=
  firstSeen_congr (fun _ => by rw [List.mem_cons, or_iff_right_of_imp (by rintro rfl; exact h)]) as

theorem firstSeen_seen_middle (seen seen' : List α) (a : α) (as : List α) :
    firstSeen (seen ++ a :: seen') as = firstSeen (a :: (seen ++ seen')) as :=
  firstSeen_congr (fun _ => List.perm_middle.mem_iff) as

theorem mem_firstSeen_iff : b ∈ firstSeen seen as ↔ b ∈ as ∧ b ∉ seen := by
  induction as generalizing seen with
  | nil => simp [firstSeen]
  | cons a as ih =>
      by_cases ha : a ∈ seen
      · rw [firstSeen_cons_of_mem ha, ih, List.mem_cons, or_and_right]
        refine (or_iff_right ?_).symm
        rintro ⟨rfl, hb⟩
        exact hb ha
      · rw [firstSeen_cons_of_not_mem ha, List.mem_cons, ih, List.mem_cons, List.mem_cons]
        by_cases hb : b = a
        · simp [hb, ha]
        · simp [hb]

/-- A pass over a concatenation continues with the elements of `as` added to `seen`. -/
theorem firstSeen_append (seen as bs : List α) :
    firstSeen seen (as ++ bs) = firstSeen seen as ++ firstSeen (as ++ seen) bs := by
  induction as generalizing seen with
  | nil => rfl
  | cons a as ih =>
      rw [List.cons_append, List.cons_append]
      by_cases ha : a ∈ seen
      · rw [firstSeen_cons_of_mem ha, firstSeen_cons_of_mem ha, ih,
          firstSeen_seen_of_mem (List.mem_append_right _ ha)]
      · rw [firstSeen_cons_of_not_mem ha, firstSeen_cons_of_not_mem ha, ih,
          firstSeen_seen_middle, List.cons_append]

theorem firstSeen_nil_eq_eraseDups (as : List α) : firstSeen [] as = as.eraseDups := by
  induction as using List.reverseRecOn with
  | nil => rfl
  | append_singleton as a ih =>
      rw [firstSeen_append, ih, List.append_nil]
      by_cases ha : a ∈ as
      · rw [eraseDups_concat_of_mem ha, firstSeen_cons_of_mem ha, firstSeen, List.append_nil]
      · rw [eraseDups_concat_of_not_mem ha, firstSeen_cons_of_not_mem ha, firstSeen]

/-- A pass with a larger list `seen` is a filter of one with a smaller list. -/
theorem firstSeen_append_seen (seen seen' as : List α) :
    firstSeen (seen ++ seen') as = (firstSeen seen' as).filter (· ∉ seen) := by
  induction as generalizing seen' with
  | nil => rfl
  | cons a as ih =>
      by_cases ha' : a ∈ seen'
      · rw [firstSeen_cons_of_mem ha', firstSeen_cons_of_mem (List.mem_append_right _ ha'), ih]
      · rw [firstSeen_cons_of_not_mem ha', List.filter_cons, ← ih, firstSeen_seen_middle]
        by_cases ha : a ∈ seen
        · have hmem : a ∈ seen ++ seen' := List.mem_append_left _ ha
          rw [firstSeen_cons_of_mem hmem, firstSeen_seen_of_mem hmem]
          simp [ha]
        · have hmem : a ∉ seen ++ seen' := by simp [ha, ha']
          rw [firstSeen_cons_of_not_mem hmem]
          simp [ha]

/-- A pass absorbs an earlier pass with a smaller list `seen`. -/
theorem firstSeen_firstSeen (h : seen' ⊆ seen) (as : List α) :
    firstSeen seen (firstSeen seen' as) = firstSeen seen as := by
  induction as generalizing seen seen' with
  | nil => rfl
  | cons a as ih =>
      by_cases ha' : a ∈ seen'
      · rw [firstSeen_cons_of_mem ha', firstSeen_cons_of_mem (h ha'), ih h]
      · rw [firstSeen_cons_of_not_mem ha']
        by_cases ha : a ∈ seen
        · rw [firstSeen_cons_of_mem ha, firstSeen_cons_of_mem ha,
            ih (List.cons_subset.mpr ⟨ha, h⟩)]
        · rw [firstSeen_cons_of_not_mem ha, firstSeen_cons_of_not_mem ha,
            ih (List.cons_subset_cons a h)]

/-- Passes over the single lists may be inserted in front of a pass over their
concatenation. -/
theorem firstSeen_flatMap {β : Type} (f : β → List α) (seen : List α) (bs : List β) :
    firstSeen seen (bs.flatMap fun b => firstSeen [] (f b)) = firstSeen seen (bs.flatMap f) := by
  induction bs generalizing seen with
  | nil => rfl
  | cons b bs ih =>
      have hsame : ∀ a, a ∈ firstSeen [] (f b) ++ seen ↔ a ∈ f b ++ seen := by
        simp [mem_firstSeen_iff]
      rw [List.flatMap_cons, List.flatMap_cons, firstSeen_append, firstSeen_append,
        firstSeen_firstSeen (List.nil_subset seen), firstSeen_congr hsame, ih]

end Pass

/-! ### Variables -/

/-- The visible subjects of statements, with repetitions. -/
def Statement.visibleSubjects (ss : List Statement) : List Variable :=
  (ss.map subject).filter Variable.isVisible

theorem Statement.visibleVariables_eq_firstSeen (s : Statement) :
    s.visibleVariables = firstSeen [] (visibleSubjects s.innerStatements) :=
  (firstSeen_nil_eq_eraseDups _).symm

namespace Pattern

theorem visibleSubjects_innerStatements (p : Pattern) :
    Statement.visibleSubjects p.innerStatements =
      p.statements.flatMap fun s => Statement.visibleSubjects s.innerStatements := by
  simp only [Statement.visibleSubjects, innerStatements, List.map_flatMap, List.filter_flatMap]

/-- The two levels of deduplication equal one pass over the whole walk. -/
theorem visibleVariables_eq_firstSeen (p : Pattern) :
    p.visibleVariables = firstSeen [] (Statement.visibleSubjects p.innerStatements) := by
  calc
    p.visibleVariables = firstSeen [] (p.statements.flatMap Statement.visibleVariables) :=
      (firstSeen_nil_eq_eraseDups _).symm
    _ = firstSeen [] (p.statements.flatMap fun s =>
          firstSeen [] (Statement.visibleSubjects s.innerStatements)) :=
      congrArg (firstSeen []) (List.flatMap_congr fun s _ => s.visibleVariables_eq_firstSeen)
    _ = firstSeen [] (p.statements.flatMap fun s =>
          Statement.visibleSubjects s.innerStatements) := firstSeen_flatMap _ [] _
    _ = firstSeen [] (Statement.visibleSubjects p.innerStatements) := by
      rw [visibleSubjects_innerStatements]

theorem visibleVariables_append (p q : Pattern) :
    Pattern.visibleVariables ⟨p.statements ++ q.statements⟩ =
      p.visibleVariables ++ q.visibleVariables.filter (· ∉ p.visibleVariables) := by
  have hsubjects : Statement.visibleSubjects
      (innerStatements ⟨p.statements ++ q.statements⟩) =
        Statement.visibleSubjects p.innerStatements ++
          Statement.visibleSubjects q.innerStatements := by
    simp only [visibleSubjects_innerStatements, List.flatMap_append]
  have hsame : ∀ v, v ∈ Statement.visibleSubjects p.innerStatements ++ [] ↔
      v ∈ p.visibleVariables ++ [] := by
    simp [p.visibleVariables_eq_firstSeen, mem_firstSeen_iff]
  rw [visibleVariables_eq_firstSeen, hsubjects, firstSeen_append, firstSeen_congr hsame,
    firstSeen_append_seen, ← visibleVariables_eq_firstSeen, ← visibleVariables_eq_firstSeen]

/-- The visible variables of a pattern are the visible subjects on its whole walk in order
of first occurrence, without repetitions. For a concatenation of patterns, the new variables
of the second follow those of the first. The walk lists each statement of the pattern,
followed by the inner statements of its children. -/
theorem visibleVariables_as_first_seen :
    (∀ p : Pattern,
      p.visibleVariables = (Statement.visibleSubjects p.innerStatements).eraseDups ∧
      p.visibleVariables = firstSeen [] (Statement.visibleSubjects p.innerStatements) ∧
      p.visibleVariables.Nodup ∧
      (∀ v, v ∈ p.visibleVariables ↔
        v.isVisible = true ∧ ∃ t ∈ p.innerStatements, t.subject = v) ∧
      ∀ q : Pattern, Pattern.visibleVariables ⟨p.statements ++ q.statements⟩ =
        p.visibleVariables ++ q.visibleVariables.filter (· ∉ p.visibleVariables)) ∧
    (∀ p : Pattern, p.innerStatements = p.statements.flatMap Statement.innerStatements) ∧
    ∀ s : Statement, s.innerStatements = s :: s.children.flatMap Statement.innerStatements := by
  refine ⟨fun p => ?_, fun _ => rfl, Statement.innerStatements_eq⟩
  have hpass := p.visibleVariables_eq_firstSeen
  refine ⟨?_, hpass, ?_, fun v => mem_visibleVariables_iff, p.visibleVariables_append⟩
  · rw [hpass, firstSeen_nil_eq_eraseDups]
  · exact nodup_eraseDups _

end Pattern

end GraphPattern
