import GraphPattern.Proofs.Parse.Closure
import GraphPattern.Proofs.Statement.Calls

/-!
Assembled statements: the values that constructors, parsers and builder calls produce. Not
every value of the type is among them. Two properties of one keyword, or a visible variable
that prints like the anonymous one, do not occur.

Each builder call preserves the invariant of the statement it extends. The invariant holds
of nested statements as well, because a call inserts nothing but its arguments, and these
are assembled themselves.
-/

namespace GraphPattern

/-! ### Variables -/

/-- The variable is a value of `Variable.ofName`. -/
def Variable.IsNamed (v : Variable) : Prop := ∃ name, v = ofName name

namespace Variable

variable {v w : Variable}

theorem isNamed_anonymous : anonymous.IsNamed := ⟨"", rfl⟩

theorem IsWritable.isNamed (h : v.IsWritable) : v.IsNamed := by
  cases v with
  | anonymous => exact isNamed_anonymous
  | visible name => exact ⟨name, (ofName_of_isVariableName h).symm⟩

theorem anonymous_ne_visible (name : String) : anonymous ≠ visible name := nofun

/-- The only variables that `ofName` does not construct are the visible ones with the two
names of the anonymous variable. -/
theorem isNamed_iff : v.IsNamed ↔ v ≠ visible "" ∧ v ≠ visible "_" := by
  constructor
  · rintro ⟨name, rfl⟩
    fun_cases ofName name with
    | case1 => exact ⟨anonymous_ne_visible "", anonymous_ne_visible "_"⟩
    | case2 hname =>
        rw [not_or] at hname
        refine ⟨?_, ?_⟩
        · rintro ⟨⟩
          exact hname.1 rfl
        · rintro ⟨⟩
          exact hname.2 rfl
  · rintro ⟨hempty, hunderscore⟩
    cases v with
    | anonymous => exact isNamed_anonymous
    | visible name =>
        refine ⟨name, ?_⟩
        rw [ofName, if_neg]
        rintro (h | h)
        · exact hempty (congrArg visible (String.toList_inj.mp h))
        · exact hunderscore (congrArg visible (String.toList_inj.mp h))

/-- The name of a variable can be recovered from its text. -/
theorem IsNamed.ofName_tail_chars (h : v.IsNamed) : ofName (String.ofList v.chars.tail) = v := by
  obtain ⟨name, rfl⟩ := h
  fun_cases ofName name with
  | case1 => rfl
  | case2 hname =>
      change ofName (String.ofList name.toList) = visible name
      rw [String.ofList_toList, ofName, if_neg hname]

/-- Printing is injective on variables that are constructed by `ofName`. -/
theorem text_eq_iff (hv : v.IsNamed) (hw : w.IsNamed) : v.text = w.text ↔ v = w := by
  refine ⟨fun h => ?_, fun h => congrArg text h⟩
  have hchars : v.chars = w.chars := String.ofList_injective h
  rw [← hv.ofName_tail_chars, hchars, hw.ofName_tail_chars]

end Variable

/-! ### Statements -/

namespace Statement

/-- The statements that constructors, parsers and builder calls produce. -/
inductive IsAssembled : Statement → Prop
  | new {v : Variable} (hv : v.IsNamed) : IsAssembled (bare v)
  | ofLabel (label : String) : IsAssembled (ofLabel label)
  /-- A builder call, of which all argument statements are assembled. -/
  | after {s : Statement} {c : Call} (hs : IsAssembled s) (hc : ∀ t ∈ c.statements, IsAssembled t) :
      IsAssembled (s.after c)
  /-- A statement nested in an assembled one, as the walk returns it. -/
  | nested {s t : Statement} (hs : IsAssembled s) (ht : t ∈ s.innerStatements) : IsAssembled t
  | parsed {source : String} {s : Statement} (h : parse source = .ok s) : IsAssembled s
  | parsedInPattern {source : String} {p : Pattern} {s : Statement}
      (h : Pattern.parse source = .ok p) (hs : s ∈ p.statements) : IsAssembled s
  | parsedInRelation {source : String} {r : Relation} {s : Statement}
      (h : Relation.parse source = .ok r) (hs : s ∈ r.statements) : IsAssembled s

/-- The invariant of a single statement, nested statements apart. -/
structure IsCoherent (s : Statement) : Prop where
  /-- Keywords are pairwise distinct. -/
  nodup : (s.properties.map Property.keyword).Nodup
  named : s.subject.IsNamed

theorem IsCoherent.after {s : Statement} (h : s.IsCoherent) (c : Call) :
    (s.after c).IsCoherent where
  nodup := (s.grows_after c).nodup_keywords h.nodup
  named := by
    rw [(s.grows_after c).subject_eq]
    exact h.named

theorem InSurfaceForm.isCoherent {s : Statement} (h : s.InSurfaceForm) : s.IsCoherent :=
  ⟨h.nodup, h.subject.isNamed⟩

/-- All inner statements of an assembled statement satisfy the invariant. -/
theorem IsAssembled.isCoherent {s : Statement} (h : s.IsAssembled) :
    ∀ t ∈ s.innerStatements, t.IsCoherent := by
  induction h with
  | new hv => exact forall_mem_innerStatements_iff.mpr ⟨⟨List.nodup_nil, hv⟩, nofun⟩
  | ofLabel label =>
      exact forall_mem_innerStatements_iff.mpr
        ⟨⟨List.nodup_singleton _, Variable.isNamed_anonymous⟩, nofun⟩
  | @after s c _ _ ihs ihc =>
      obtain ⟨hs, hchildren⟩ := forall_mem_innerStatements_iff.mp ihs
      refine forall_mem_innerStatements_iff.mpr ⟨hs.after c, fun t ht => ?_⟩
      rcases (s.grows_after c).mem_children ht with ht | ht
      · exact hchildren t ht
      · exact ihc t ht
  | nested _ ht ih => exact fun u hu => ih u (innerStatements_subset ht hu)
  | parsed h =>
      exact fun t ht => ((inSurfaceForm_of_parse h).of_mem_innerStatements ht).isCoherent
  | parsedInPattern h hs =>
      have hform := (Pattern.inSurfaceForm_of_parse h).statements _ hs
      exact fun t ht => (hform.of_mem_innerStatements ht).isCoherent
  | parsedInRelation h hs =>
      have hform := ((Relation.inSurfaceForm_of_parse h).isReference _ hs).inSurfaceForm
      exact fun t ht => (hform.of_mem_innerStatements ht).isCoherent

end Statement

/-! ### Consequences -/

/-- If keywords are pairwise distinct, `findSome?` returns the only property of the keyword
`k`. Here `f` is the projection to the payload and `g` the constructor. -/
theorem Property.findSome?_eq_some_iff {α : Type} {f : Property → Option α} {g : α → Property}
    {k : Keyword} (hf : ∀ p a, f p = some a ↔ p = g a) (hg : ∀ a, (g a).keyword = k)
    {ps : List Property} (h : (ps.map keyword).Nodup) {a : α} :
    ps.findSome? f = some a ↔ g a ∈ ps := by
  constructor
  · intro hfind
    obtain ⟨p, hp, hpa⟩ := List.exists_of_findSome?_eq_some hfind
    rwa [← (hf p a).mp hpa]
  · intro hmem
    cases hfind : ps.findSome? f with
    | none =>
        have hnone := List.findSome?_eq_none_iff.mp hfind (g a) hmem
        rw [(hf (g a) a).mpr rfl] at hnone
        cases hnone
    | some b =>
        obtain ⟨p, hp, hpb⟩ := List.exists_of_findSome?_eq_some hfind
        obtain rfl := (hf p b).mp hpb
        have hab : g b = g a := List.inj_on_of_nodup_map h hp hmem ((hg b).trans (hg a).symm)
        rw [← (hf (g a) b).mpr hab.symm, (hf (g a) a).mpr rfl]

namespace Statement

variable {s : Statement}

theorem IsCoherent.relation?_eq_some_iff (h : s.IsCoherent) {r : Relation} :
    s.relation? = some r ↔ r.toProperty ∈ s.properties := by
  refine Property.findSome?_eq_some_iff (g := Relation.toProperty) (fun p r => ?_)
    (fun _ => rfl) h.nodup
  obtain ⟨players⟩ := r
  cases p <;> simp [Property.relation?, Relation.toProperty]

theorem IsCoherent.typeLabel?_eq_some_iff (h : s.IsCoherent) {label : String} :
    s.typeLabel? = some label ↔ .type label ∈ s.properties := by
  exact Property.findSome?_eq_some_iff (fun _ _ => Property.typeLabel?_eq_some_iff)
    (fun _ => rfl) h.nodup

end Statement

/-- In every statement that builder runs and parsers make, and in all its inner statements,
keywords are pairwise distinct and visible variables are constructed by name. So `relation?`
and `typeLabel?` return the only property of their keyword, and variables print alike only
if they are equal. The inner statements are the statement itself followed by those of its
children. -/
theorem isAssembled_unambiguous :
    (∀ s : Statement, s.IsAssembled → ∀ t ∈ s.innerStatements,
      (t.properties.map Property.keyword).Nodup ∧
      (t.subject ≠ .visible "" ∧ t.subject ≠ .visible "_") ∧
      (∀ r : Relation, t.relation? = some r ↔ r.toProperty ∈ t.properties) ∧
      (∀ label : String, t.typeLabel? = some label ↔ .type label ∈ t.properties) ∧
      ∀ u ∈ s.innerStatements, t.subject.text = u.subject.text ↔ t.subject = u.subject) ∧
    ∀ s : Statement, s.innerStatements = s :: s.children.flatMap Statement.innerStatements := by
  refine ⟨fun s hs t ht => ?_, Statement.innerStatements_eq⟩
  have h := hs.isCoherent t ht
  refine ⟨h.nodup, Variable.isNamed_iff.mp h.named, fun r => h.relation?_eq_some_iff,
    fun label => h.typeLabel?_eq_some_iff, fun u hu => ?_⟩
  exact Variable.text_eq_iff h.named (hs.isCoherent u hu).named

/-- The second type is refused, and the players join one relation. The type of a player is
nested two levels deep. -/
theorem isAssembled_unambiguous_marriage :
    Statement.relation? ⟨.visible "x", [.isa (.ofLabel "marriage"),
        .relation [.tagged (.ofLabel "wife") ⟨.visible "y", [.isa (.ofLabel "person")]⟩,
          .plain .anonymous]]⟩ =
      some ⟨[.tagged (.ofLabel "wife") ⟨.visible "y", [.isa (.ofLabel "person")]⟩,
        .plain .anonymous]⟩ ∧
    Statement.ofLabel "person" ∈ Statement.innerStatements ⟨.visible "x",
      [.isa (.ofLabel "marriage"),
        .relation [.tagged (.ofLabel "wife") ⟨.visible "y", [.isa (.ofLabel "person")]⟩,
          .plain .anonymous]]⟩ ∧
    Statement.typeLabel? (.ofLabel "person") = some "person" := by
  let wife : Statement := ⟨.visible "y", [.isa (.ofLabel "person")]⟩
  let players : List RolePlayer := [.tagged (.ofLabel "wife") wife, .plain .anonymous]
  let marriage : Statement := ⟨.visible "x", [.isa (.ofLabel "marriage"), .relation players]⟩
  have hwife : Statement.parse "$y isa person" = .ok wife := by decide +kernel
  have hcalls : ((((Statement.ofName "x").after (.isa (.ofLabel "marriage"))).after
      (.isa (.ofLabel "wedding"))).after (.rel (.ofLabel "wife") wife)).after
        (.relPlayer (.ofName "_")) = marriage := by decide +kernel
  have hmarriage : marriage.IsAssembled := by
    rw [← hcalls]
    refine .after (.after (.after (.after (.new ⟨"x", rfl⟩) ?_) ?_) ?_) ?_
    · exact List.forall_mem_singleton.mpr (.ofLabel "marriage")
    · exact List.forall_mem_singleton.mpr (.ofLabel "wedding")
    · exact List.forall_mem_cons.mpr
        ⟨.parsed hwife, List.forall_mem_singleton.mpr (.ofLabel "wife")⟩
    · exact List.forall_mem_singleton.mpr (.new ⟨"_", rfl⟩)
  obtain ⟨-, -, hrelation, -⟩ :=
    isAssembled_unambiguous.1 marriage hmarriage marriage marriage.self_mem_innerStatements
  have hmem : Relation.toProperty ⟨players⟩ ∈ marriage.properties :=
    List.mem_cons_of_mem _ (List.mem_singleton_self _)
  have hperson : Statement.ofLabel "person" ∈ marriage.innerStatements := by decide +kernel
  obtain ⟨-, -, -, hlabel, -⟩ := isAssembled_unambiguous.1 marriage hmarriage _ hperson
  exact ⟨(hrelation ⟨players⟩).mpr hmem, hperson,
    (hlabel "person").mpr (List.mem_singleton_self _)⟩

end GraphPattern
