import GraphPattern.Proofs.Statement.Extension

/-!
Builder calls. Two of the four calls add a property and first look for one of its keyword.
The other two add a role player to the relation that is there, or a new relation if there is
none, and never fail. A call that fails leaves the statement as it was.

`Grows` is the inversion of a call: it lists what any call can do to a statement. What calls
preserve is derived from it, independently of their order.
-/

namespace GraphPattern

/-- A builder call with its arguments. -/
inductive Call where
  | addProperty (p : Property)
  | isa (type : Statement)
  | rel (role player : Statement)
  | relPlayer (player : Statement)

/-- The argument statements of a call, also those inside a property or a role player. -/
def Call.statements : Call → List Statement
  | addProperty p => p.statements
  | isa type => [type]
  | rel role player => [player, role]
  | relPlayer player => [player]

namespace Statement

def call (s : Statement) : Call → Except Conflict Statement
  | .addProperty p => s.addProperty p
  | .isa type => s.isa type
  | .rel role player => .ok (s.rel role player)
  | .relPlayer player => .ok (s.relPlayer player)

theorem call_isa (s type : Statement) : s.call (.isa type) = s.addProperty (.isa type) := rfl

/-- The statement after a call; a failed call leaves it as it was. -/
def after (s : Statement) (c : Call) : Statement :=
  match s.call c with
  | .ok s' => s'
  | .error _ => s

/-! ### Inversion -/

/-- The statements that a call with the argument statements `given` can produce. -/
inductive Grows (given : List Statement) : Statement → Statement → Prop
  | same (s : Statement) : Grows given s s
  | property (v : Variable) {ps : List Property} {p : Property}
      (hnew : ∀ q ∈ ps, q.keyword ≠ p.keyword) (hgiven : p.statements ⊆ given) :
      Grows given ⟨v, ps⟩ ⟨v, ps ++ [p]⟩
  | player (v : Variable) (before after : List Property) (as : List RolePlayer) {a : RolePlayer}
      (hgiven : a.statements ⊆ given) :
      Grows given ⟨v, before ++ .relation as :: after⟩
        ⟨v, before ++ .relation (as ++ [a]) :: after⟩

theorem grows_of_addProperty {s s' : Statement} {p : Property} (h : s.addProperty p = .ok s') :
    Grows p.statements s s' := by
  obtain ⟨v, ps⟩ := s
  rcases addProperty_cases ⟨v, ps⟩ p with ⟨hnew, hadd⟩ | ⟨q, hq, hkey, hadd⟩
  · rw [hadd] at h
    obtain rfl := Except.ok.inj h
    exact .property v hnew (List.Subset.refl _)
  · rw [hadd] at h
    by_cases hqp : q = p
    · rw [if_pos hqp] at h
      obtain rfl := Except.ok.inj h
      exact .same ⟨v, ps⟩
    · rw [if_neg hqp] at h
      cases h

/-- A role player joins the first relation property, or becomes a new one at the end. -/
theorem joined_cases (a : RolePlayer) (ps : List Property) :
    (∀ q ∈ ps, q.keyword ≠ .relation) ∧ addRolePlayer.joined a ps = ps ++ [.relation [a]] ∨
      ∃ before as after, ps = before ++ .relation as :: after ∧
        addRolePlayer.joined a ps = before ++ .relation (as ++ [a]) :: after := by
  induction ps with
  | nil => exact .inl ⟨nofun, rfl⟩
  | cons p ps ih =>
      cases p with
      | relation as => exact .inr ⟨[], as, ps, rfl, rfl⟩
      | isa | type =>
          rw [addRolePlayer.joined]
          rcases ih with ⟨hnone, hjoined⟩ | ⟨before, as, after, rfl, hjoined⟩
          · rw [hjoined]
            exact .inl ⟨List.forall_mem_cons.mpr ⟨nofun, hnone⟩, rfl⟩
          · rw [hjoined]
            exact .inr ⟨_ :: before, as, after, rfl, rfl⟩
          · exact nofun

theorem grows_addRolePlayer (s : Statement) (a : RolePlayer) :
    Grows a.statements s (s.addRolePlayer a) := by
  obtain ⟨v, ps⟩ := s
  rw [addRolePlayer]
  rcases joined_cases a ps with ⟨hnone, hjoined⟩ | ⟨before, as, after, rfl, hjoined⟩
  · simp only [hjoined]
    refine .property v hnone ?_
    simp [Property.statements]
  · simp only [hjoined]
    exact .player v before after as (List.Subset.refl _)

/-- Every call, successful or not, is an instance of `Grows`. -/
theorem grows_after (s : Statement) (c : Call) : Grows c.statements s (s.after c) := by
  rw [after]
  cases hcall : s.call c with
  | error e => exact .same s
  | ok s' =>
      cases c with
      | addProperty p => exact grows_of_addProperty hcall
      | isa type =>
          rw [call_isa] at hcall
          exact grows_of_addProperty hcall
      | rel role player =>
          obtain rfl := Except.ok.inj hcall
          exact grows_addRolePlayer s (.tagged role player)
      | relPlayer player =>
          obtain rfl := Except.ok.inj hcall
          exact grows_addRolePlayer s (.plain player)

/-! ### Preservation -/

namespace Grows

variable {given : List Statement} {s s' : Statement}

theorem subject_eq (h : Grows given s s') : s'.subject = s.subject := by
  cases h <;> rfl

/-- Keywords remain pairwise distinct. -/
theorem nodup_keywords (h : Grows given s s') (hs : (s.properties.map Property.keyword).Nodup) :
    (s'.properties.map Property.keyword).Nodup := by
  cases h with
  | same => exact hs
  | property v hnew =>
      rw [List.map_append, List.map_singleton, ← List.concat_eq_append]
      refine hs.concat fun hmem => ?_
      obtain ⟨q, hq, hkey⟩ := List.mem_map.mp hmem
      exact hnew q hq hkey
  | player => simpa [Property.keyword] using hs

/-- The children after a call are children before it or arguments of the call. -/
theorem mem_children (h : Grows given s s') {c : Statement} (hc : c ∈ s'.children) :
    c ∈ s.children ∨ c ∈ given := by
  cases h with
  | same => exact .inl hc
  | property v _ hgiven =>
      rw [children, List.flatMap_append, List.mem_append, List.flatMap_singleton] at hc
      exact hc.imp_right fun hc => hgiven hc
  | player v before after as hgiven =>
      simp only [children, List.flatMap_append, List.flatMap_cons, List.mem_append,
        Property.statements, List.flatMap_nil, List.append_nil] at hc ⊢
      rcases hc with hc | (hc | hc) | hc
      · exact .inl (.inl hc)
      · exact .inl (.inr (.inl hc))
      · exact .inr (hgiven hc)
      · exact .inl (.inr (.inr hc))

end Grows

end Statement

end GraphPattern
