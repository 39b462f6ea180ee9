import GraphPattern.Proofs.Statement.Tokens
import GraphPattern.Proofs.Surface.Meaning
import Mathlib.Data.List.Nodup

/-!
Values in surface form. Values nest without a bound and surface forms are flat, so not every
value is denoted by a form. `InSurfaceForm` characterizes those that are: roles and types
are references, players are variables, and names are writable.

For such a value there is a form that denotes it and whose tokens are those that the value
is printed with.
-/

namespace GraphPattern

/-! ### Values -/

/-- A bare variable with a writable name. -/
def Statement.IsVariable (s : Statement) : Prop := ∃ v : Variable, v.IsWritable ∧ s = bare v

/-- A reference to a type or a role: a bare variable or a label. -/
def Statement.IsReference (s : Statement) : Prop :=
  s.IsVariable ∨ ∃ label, IsLabelName label ∧ s = ofLabel label

def RolePlayer.InSurfaceForm : RolePlayer → Prop
  | plain player => player.IsVariable
  | tagged role player => role.IsReference ∧ player.IsVariable

structure Relation.InSurfaceForm (r : Relation) : Prop where
  nonempty : r.players ≠ []
  players : ∀ a ∈ r.players, a.InSurfaceForm

def Property.InSurfaceForm : Property → Prop
  | relation players => Relation.InSurfaceForm ⟨players⟩
  | isa t => t.IsReference
  | type label => IsLabelName label

structure Statement.InSurfaceForm (s : Statement) : Prop where
  subject : s.subject.IsWritable
  properties : ∀ p ∈ s.properties, p.InSurfaceForm
  /-- Keywords are pairwise distinct. -/
  nodup : (s.properties.map Property.keyword).Nodup
  unmixed : ¬ Property.Mixed s.properties

structure Pattern.InSurfaceForm (p : Pattern) : Prop where
  nonempty : p.statements ≠ []
  statements : ∀ s ∈ p.statements, s.InSurfaceForm

namespace Surface

/-! ### Tokens of denoted values

The tokens of roles, players and properties are those of their forms. A denoted statement
has the tokens of its form without repeated properties and without a redundant subject. -/

theorem TypeRef.shortTokens_meaning (t : TypeRef) : t.meaning.shortTokens = t.tokens := by
  cases t with
  | label name => exact Statement.shortTokens_ofLabel name
  | var v => exact Statement.shortTokens_bare v

theorem RolePlayer.tokens_meaning (a : RolePlayer) : a.meaning.tokens = a.tokens := by
  cases a with
  | plain player => exact Statement.shortTokens_bare player
  | tagged role player =>
      rw [meaning, GraphPattern.RolePlayer.tokens, role.shortTokens_meaning,
        Statement.shortTokens_bare, tokens]

theorem Property.tokens_meaning (p : Property) : p.meaning.tokens = p.tokens := by
  cases p with
  | relation as =>
      rw [meaning, GraphPattern.Property.tokens_relation, List.map_map, tokens]
      simp only [Function.comp_def, RolePlayer.tokens_meaning]
  | isa t => rw [meaning, GraphPattern.Property.tokens, t.shortTokens_meaning, tokens]
  | type label => rfl

/-! ### Forms of values -/

section Forms

/-- Preimages of all elements of a list form a preimage of the list. -/
theorem exists_map_eq {α β : Type} {f : α → β} {P : α → Prop} {bs : List β}
    (h : ∀ b ∈ bs, ∃ a, f a = b ∧ P a) : ∃ as : List α, as.map f = bs ∧ ∀ a ∈ as, P a := by
  induction bs with
  | nil => exact ⟨[], rfl, nofun⟩
  | cons b bs ih =>
      rw [List.forall_mem_cons] at h
      obtain ⟨⟨a, rfl, ha⟩, hbs⟩ := h
      obtain ⟨as, rfl, has⟩ := ih hbs
      exact ⟨a :: as, rfl, List.forall_mem_cons.mpr ⟨ha, has⟩⟩

theorem TypeRef.exists_meaning_eq {s : GraphPattern.Statement} (h : s.IsReference) :
    ∃ t : TypeRef, t.meaning = s ∧ ∀ k ∈ t.tokens, k.IsWritable := by
  rcases h with ⟨v, hv, rfl⟩ | ⟨label, hlabel, rfl⟩
  · exact ⟨.var v, rfl, List.forall_mem_singleton.mpr hv⟩
  · exact ⟨.label label, rfl, List.forall_mem_singleton.mpr hlabel⟩

theorem RolePlayer.exists_meaning_eq {a : GraphPattern.RolePlayer} (h : a.InSurfaceForm) :
    ∃ b : RolePlayer, b.meaning = a ∧ ∀ k ∈ b.tokens, k.IsWritable := by
  cases a with
  | plain player =>
      obtain ⟨v, hv, rfl⟩ := h
      exact ⟨.plain v, rfl, List.forall_mem_singleton.mpr hv⟩
  | tagged role player =>
      obtain ⟨hrole, v, hv, rfl⟩ := h
      obtain ⟨t, rfl, ht⟩ := TypeRef.exists_meaning_eq hrole
      refine ⟨.tagged t v, rfl, ?_⟩
      simp only [tokens, List.forall_mem_append, List.forall_mem_cons]
      exact ⟨ht, trivial, hv, nofun⟩

theorem isWritable_relationTokens {as : List RolePlayer}
    (h : ∀ a ∈ as, ∀ k ∈ a.tokens, k.IsWritable) : ∀ k ∈ relationTokens as, k.IsWritable := by
  have hplayers : ∀ k ∈ playersTokens as, k.IsWritable := forall_mem_joined trivial h
  simp only [relationTokens, List.cons_append, List.forall_mem_cons, List.forall_mem_append]
  exact ⟨trivial, hplayers, trivial, nofun⟩

theorem exists_players_eq {r : Relation} (h : r.InSurfaceForm) :
    ∃ as : List RolePlayer, as.map RolePlayer.meaning = r.players ∧ as ≠ [] ∧
      ∀ k ∈ relationTokens as, k.IsWritable := by
  obtain ⟨as, has, hwritable⟩ :=
    exists_map_eq fun a ha => RolePlayer.exists_meaning_eq (h.players a ha)
  refine ⟨as, has, ?_, isWritable_relationTokens hwritable⟩
  rintro rfl
  exact h.nonempty has.symm

theorem Property.exists_meaning_eq {p : GraphPattern.Property} (h : p.InSurfaceForm) :
    ∃ q : Property, q.meaning = p ∧ q.IsWritten ∧ ∀ k ∈ q.tokens, k.IsWritable := by
  cases p with
  | relation players =>
      obtain ⟨as, has, hne, hwritable⟩ := exists_players_eq h
      exact ⟨.relation as, congrArg GraphPattern.Property.relation has, hne, hwritable⟩
  | isa s =>
      obtain ⟨t, rfl, ht⟩ := TypeRef.exists_meaning_eq h
      exact ⟨.isa t, rfl, trivial, List.forall_mem_cons.mpr ⟨trivial, ht⟩⟩
  | type label =>
      refine ⟨.type label, rfl, trivial, ?_⟩
      simp only [tokens, List.forall_mem_cons]
      exact ⟨trivial, h, nofun⟩

/-- A form that denotes the statement and has its tokens. -/
structure Statement.IsFormOf (f : Statement) (s : GraphPattern.Statement) : Prop where
  written : f.IsWritten
  consistent : f.IsConsistent
  unmixed : ¬ f.IsMixed
  denoted : f.denoted = s
  tokens : f.tokens = s.tokens
  writable : ∀ k ∈ s.tokens, k.IsWritable

/-- The written subject, which an anonymous one in front of a property is not. -/
def writtenSubject (v : Variable) (ps : List Property) : Option Variable :=
  match v, ps with
  | .anonymous, _ :: _ => none
  | v, _ => some v

theorem eraseDups_eq_self_of_nodup {ps : List GraphPattern.Property} (h : ps.Nodup) :
    ps.eraseDups = ps := by
  induction ps with
  | nil => rfl
  | cons p ps ih =>
      obtain ⟨hp, hps⟩ := List.nodup_cons.mp h
      have hfilter : ps.filter (fun q => !q == p) = ps := by
        rw [List.filter_eq_self]
        intro q hq
        have hne : q ≠ p := by
          rintro rfl
          exact hp hq
        simpa using hne
      rw [List.eraseDups_cons, hfilter, ih hps]

/-- A writable subject and properties in surface form have a form with the same tokens. -/
theorem Statement.exists_propertyMeanings_eq {s : GraphPattern.Statement}
    (hsubject : s.subject.IsWritable) (hproperties : ∀ p ∈ s.properties, p.InSurfaceForm) :
    ∃ f : Statement, f.IsWritten ∧ f.subject = s.subject ∧ f.propertyMeanings = s.properties ∧
      f.tokens = s.tokens ∧ ∀ k ∈ s.tokens, k.IsWritable := by
  obtain ⟨qs, hqs, hwritten⟩ :=
    exists_map_eq fun p hp => Property.exists_meaning_eq (hproperties p hp)
  obtain ⟨v, ps⟩ := s
  simp only at hqs
  subst hqs
  have htokens : (qs.map Property.meaning).map GraphPattern.Property.tokens =
      qs.map Property.tokens := by
    simp only [List.map_map, Function.comp_def, Property.tokens_meaning]
  refine ⟨⟨writtenSubject v qs, qs⟩, ⟨?_, fun p hp => (hwritten p hp).1⟩, ?_, rfl, ?_, ?_⟩
  · rintro hnone rfl
    cases v <;> cases hnone
  · cases v <;> cases qs <;> rfl
  · rw [GraphPattern.Statement.tokens, htokens]
    cases v <;> cases qs
    all_goals simp [Statement.tokens, writtenSubject, fullTokens, List.flatMap_def]
  · refine isWritable_fullTokens_iff.mpr ⟨hsubject, ?_⟩
    rw [htokens]
    intro row hrow
    obtain ⟨q, hq, rfl⟩ := List.mem_map.mp hrow
    exact (hwritten q hq).2

theorem Statement.exists_isFormOf {s : GraphPattern.Statement} (h : s.InSurfaceForm) :
    ∃ f : Statement, f.IsFormOf s := by
  obtain ⟨f, hwritten, hsubject, hmeanings, htokens, hwritable⟩ :=
    Statement.exists_propertyMeanings_eq h.subject h.properties
  -- Properties of distinct keywords are distinct, so deduplication keeps all of them.
  have hnodup : s.properties.Nodup := h.nodup.of_map
  refine ⟨f, hwritten, ?_, ?_, ?_, htokens, hwritable⟩
  · rw [IsConsistent, hmeanings]
    exact fun p hp q hq hkeyword => List.inj_on_of_nodup_map h.nodup hp hq hkeyword
  · rw [IsMixed, hmeanings]
    exact h.unmixed
  · obtain ⟨v, ps⟩ := s
    rw [denoted, hsubject, hmeanings, eraseDups_eq_self_of_nodup hnodup]

structure Pattern.IsFormOf (f : Pattern) (p : GraphPattern.Pattern) : Prop where
  written : f.IsWritten
  consistent : f.IsConsistent
  unmixed : ¬ f.IsMixed
  denoted : f.denoted = p
  tokens : f.tokens = p.tokens
  writable : ∀ k ∈ p.tokens, k.IsWritable

theorem Pattern.exists_isFormOf {p : GraphPattern.Pattern} (h : p.InSurfaceForm) :
    ∃ f : Pattern, f.IsFormOf p := by
  obtain ⟨fs, hfs, hforms⟩ : ∃ fs : List Statement, fs.map Statement.denoted = p.statements ∧
      ∀ f ∈ fs, f.IsFormOf f.denoted := by
    refine exists_map_eq fun s hs => ?_
    obtain ⟨f, hf⟩ := Statement.exists_isFormOf (h.statements s hs)
    exact ⟨f, hf.denoted, by rwa [hf.denoted]⟩
  obtain ⟨ss⟩ := p
  simp only at hfs
  subst hfs
  refine ⟨⟨false, fs⟩, ⟨?_, fun f hf => (hforms f hf).written⟩,
    fun f hf => (hforms f hf).consistent, ?_, rfl, ?_, ?_⟩
  · rintro rfl
    exact h.nonempty rfl
  · rintro ⟨f, hf, hmixed⟩
    exact (hforms f hf).unmixed hmixed
  · rw [GraphPattern.Pattern.tokens, List.flatMap_map]
    refine List.flatMap_congr fun f hf => ?_
    rw [(hforms f hf).tokens]
  · intro k hk
    obtain ⟨s, hs, hk⟩ := List.mem_flatMap.mp hk
    obtain ⟨f, hf, rfl⟩ := List.mem_map.mp hs
    rcases List.mem_append.mp hk with hk | hk
    · exact (hforms f hf).writable k hk
    · obtain rfl := List.mem_singleton.mp hk
      trivial

end Forms

end Surface

theorem Statement.InSurfaceForm.isWritable_tokens {s : Statement} (h : s.InSurfaceForm) :
    ∀ t ∈ s.tokens, t.IsWritable := by
  obtain ⟨f, hf⟩ := Surface.Statement.exists_isFormOf h
  exact hf.writable

theorem Pattern.InSurfaceForm.isWritable_tokens {p : Pattern} (h : p.InSurfaceForm) :
    ∀ t ∈ p.tokens, t.IsWritable := by
  obtain ⟨f, hf⟩ := Surface.Pattern.exists_isFormOf h
  exact hf.writable

end GraphPattern
