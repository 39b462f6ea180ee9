import GraphPattern.Proofs.Parse.Closure

/-!
Relations as statements. The text of a relation is also that of the statement without a
written subject whose only property is this relation. The relation parser and the statement
parser agree on it, and validation always succeeds, because a single property clashes with
nothing.

For the converse the source has to be restricted. The same statement has further texts, with
a written subject or with the relation repeated; these do not begin with an opening
parenthesis or contain a second one.
-/

namespace GraphPattern

namespace Surface

/-! ### Opening parentheses -/

theorem RolePlayer.parenOpen_notMem_tokens (a : RolePlayer) : .parenOpen ∉ a.tokens := by
  rcases a with v | ⟨_ | _, v⟩ <;> simp [tokens, TypeRef.tokens]

theorem count_parenOpen_relationTokens (as : List RolePlayer) :
    (relationTokens as).count .parenOpen = 1 := by
  have hplayers : ∀ k ∈ playersTokens as, k ≠ .parenOpen :=
    forall_mem_joined (by decide) fun a _ k hk hopen => a.parenOpen_notMem_tokens (hopen ▸ hk)
  have hcount : (playersTokens as).count .parenOpen = 0 :=
    List.count_eq_zero_of_not_mem fun hmem => hplayers _ hmem rfl
  rw [relationTokens, List.count_append, List.count_cons_self, hcount]
  rfl

/-- Each relation property contributes an opening parenthesis. -/
theorem length_le_count_parenOpen {ps : List Property}
    (h : ∀ p ∈ ps, ∃ as, p = .relation as) :
    ps.length ≤ (ps.flatMap Property.tokens).count .parenOpen := by
  induction ps with
  | nil => exact Nat.le_refl 0
  | cons p ps ih =>
      rw [List.forall_mem_cons] at h
      obtain ⟨⟨as, rfl⟩, hps⟩ := h
      have hrest := ih hps
      have hfirst : (Property.relation as).tokens.count .parenOpen = 1 :=
        count_parenOpen_relationTokens as
      rw [List.flatMap_cons, List.count_append, List.length_cons]
      omega

/-! ### Statements that are relations -/

/-- The form without a subject whose only property is a relation. -/
def Statement.ofRelation (as : List RolePlayer) : Statement := ⟨none, [.relation as]⟩

theorem Statement.derives_ofRelation_iff {as : List RolePlayer} {ts : List Token} :
    (ofRelation as).Derives ts ↔ RelationDerives as ts := by
  have htokens : (ofRelation as).tokens = relationTokens as := List.append_nil _
  rw [derives_iff, relationDerives_iff, htokens]
  refine and_congr_left fun _ => ⟨fun h => h.properties _ (List.mem_singleton_self _), fun h => ?_⟩
  exact ⟨fun _ => List.cons_ne_nil _ _, List.forall_mem_singleton.mpr h⟩

/-- A form that denotes the statement of a single relation is that relation alone, if its
tokens begin with an opening parenthesis and contain no other. -/
theorem Statement.eq_ofRelation {f : Statement} {r : Relation}
    (hdenoted : f.denoted = ⟨.anonymous, [r.toProperty]⟩)
    (hhead : f.tokens.head? = some .parenOpen) (hcount : f.tokens.count .parenOpen = 1) :
    ∃ as, f = ofRelation as ∧ r = ⟨as.map RolePlayer.meaning⟩ := by
  obtain ⟨subject?, ps⟩ := f
  have hmeanings : (ps.map Property.meaning).eraseDups = [r.toProperty] :=
    (GraphPattern.Statement.mk.inj hdenoted).2
  -- Every property of the form denotes this relation.
  have hrelation : ∀ p ∈ ps, ∃ as, p = .relation as ∧ r = ⟨as.map RolePlayer.meaning⟩ := by
    intro p hp
    have hmeaning : p.meaning ∈ (ps.map Property.meaning).eraseDups :=
      List.mem_eraseDups.mpr (List.mem_map_of_mem hp)
    rw [hmeanings, List.mem_singleton] at hmeaning
    obtain ⟨players⟩ := r
    cases p with
    | relation as =>
        have hplayers := GraphPattern.Property.relation.inj hmeaning
        exact ⟨as, rfl, congrArg Relation.mk hplayers.symm⟩
    | isa t => cases hmeaning
    | type label => cases hmeaning
  cases subject? with
  | some v => cases hhead
  | none =>
      have hlength := length_le_count_parenOpen fun p hp =>
        (hrelation p hp).imp fun _ => And.left
      have htokens : Statement.tokens ⟨none, ps⟩ = ps.flatMap Property.tokens := rfl
      rw [← htokens, hcount] at hlength
      rcases ps with _ | ⟨p, _ | ⟨q, ps⟩⟩
      case nil => cases hhead
      case cons.nil =>
        obtain ⟨as, rfl, hr⟩ := hrelation p (List.mem_singleton_self _)
        exact ⟨as, rfl, hr⟩
      case cons.cons =>
        simp only [List.length_cons] at hlength
        omega

end Surface

variable {source : String} {r : Relation}

theorem Relation.parse_eq_ok_iff_statement :
    Relation.parse source = .ok r ↔
      Statement.parse source = .ok ⟨.anonymous, [r.toProperty]⟩ ∧
        ∃ ts : List Located, Located.ofSource source = .ok ts ∧
          (ts.map Located.token).head? = some .parenOpen ∧
          (ts.map Located.token).count .parenOpen = 1 := by
  rw [Relation.parse_eq_ok_iff, Statement.parse_eq_ok_iff]
  constructor
  · rintro ⟨ts, as, hts, hderives, rfl⟩
    have hform : (Surface.Statement.ofRelation as).Derives (ts.map Located.token) :=
      Surface.Statement.derives_ofRelation_iff.mpr hderives
    obtain ⟨-, htokens⟩ := Surface.relationDerives_iff.mp hderives
    refine ⟨⟨ts, .ofRelation as, hts, hform, ?consistent, ?unmixed, rfl⟩, ts, hts, ?head, ?count⟩
    case consistent =>
      intro p hp q hq _
      rw [List.mem_singleton.mp hp, List.mem_singleton.mp hq]
    case unmixed => exact Property.not_mixed_singleton _
    case head =>
      rw [htokens]
      rfl
    case count =>
      rw [htokens]
      exact Surface.count_parenOpen_relationTokens as
  · rintro ⟨⟨ts, f, hts, hform, -, -, hdenoted⟩, ts', hts', hhead, hcount⟩
    obtain rfl : ts = ts' := Except.ok.inj (hts.symm.trans hts')
    obtain ⟨-, htokens⟩ := Surface.Statement.derives_iff.mp hform
    rw [htokens] at hhead hcount
    obtain ⟨as, rfl, hr⟩ := Surface.Statement.eq_ofRelation hdenoted.symm hhead hcount
    exact ⟨ts, as, hts, Surface.Statement.derives_ofRelation_iff.mp hform, hr⟩

/-- The statement of a parsed relation is valid, whatever its subject. -/
theorem Relation.validate_of_parse (h : Relation.parse source = .ok r) (v : Variable) :
    Statement.validate ⟨v, [r.toProperty]⟩ = .ok () := by
  obtain ⟨ts, as, -, -, rfl⟩ := Relation.parse_eq_ok_iff.mp h
  have hform := Surface.Statement.validate_denoted_eq_ok_iff ⟨some v, [.relation as]⟩
  exact hform.mpr (Property.not_mixed_singleton _)

/-- The relation parser accepts a source exactly if the statement parser returns the
statement of that relation and the source begins with its only opening parenthesis. -/
theorem relation_and_statement_readers_agree :
    (∀ (source : String) (r : Relation), Relation.parse source = .ok r ↔
      Statement.parse source = .ok ⟨.anonymous, [r.toProperty]⟩ ∧
        ∃ ts : List Located, Located.ofSource source = .ok ts ∧
          (ts.map Located.token).head? = some .parenOpen ∧
          (ts.map Located.token).count .parenOpen = 1) ∧
    ∀ (source : String) (r : Relation), Relation.parse source = .ok r →
      ∀ v : Variable, Statement.validate ⟨v, [r.toProperty]⟩ = .ok () :=
  ⟨fun _ _ => Relation.parse_eq_ok_iff_statement, fun _ _ => Relation.validate_of_parse⟩

/-- A marriage parses as a relation and as a statement; with its relation repeated, as a
statement only. -/
theorem relation_and_statement_readers_agree_marriage :
    let r : Relation := ⟨[.tagged (.ofLabel "wife") (.ofName "x"), .plain .anonymous]⟩
    Statement.parse "(wife: $x, $_)" = .ok ⟨.anonymous, [r.toProperty]⟩ ∧
      Statement.validate ⟨.visible "m", [r.toProperty]⟩ = .ok () ∧
      Statement.parse "(wife: $x, $_) (wife: $x, $_)" = .ok ⟨.anonymous, [r.toProperty]⟩ ∧
      Relation.parse "(wife: $x, $_) (wife: $x, $_)" ≠ .ok r := by
  intro r
  obtain ⟨hagree, hvalid⟩ := relation_and_statement_readers_agree
  have hparse : Relation.parse "(wife: $x, $_)" = .ok r := by decide +kernel
  refine ⟨((hagree _ _).mp hparse).1, hvalid _ _ hparse _, by decide +kernel, fun htwice => ?_⟩
  obtain ⟨-, ts, hts, -, hcount⟩ := (hagree _ _).mp htwice
  have htwo : (Located.ofSource "(wife: $x, $_) (wife: $x, $_)").map
      (fun ts => (ts.map Located.token).count .parenOpen) = .ok 2 := by
    decide +kernel
  rw [hts] at htwo
  have hsame : (ts.map Located.token).count .parenOpen = 2 := Except.ok.inj htwo
  omega

end GraphPattern
