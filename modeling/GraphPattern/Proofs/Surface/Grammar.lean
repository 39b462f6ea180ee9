import GraphPattern.Surface.Basic

/-!
The grammar. A surface form is a derivation tree, and `Derives` relates it to the row of
tokens that it derives, with one constructor for each production. Some surface forms
correspond to no production and derive nothing: a relation without players, a statement
without subject and properties, and a pattern without statements.

The row that a form derives is its `tokens`, so the productions only restrict that function
to written forms.
-/

namespace GraphPattern.Surface

/-! ### Productions -/

/-- `TypeRef := label | Variable` -/
inductive TypeRef.Derives : TypeRef → List Token → Prop
  | label (name : String) : Derives (.label name) [.label name]
  | var (v : Variable) : Derives (.var v) [.var v]

/-- `RolePlayer := (TypeRef :)? Variable` -/
inductive RolePlayer.Derives : RolePlayer → List Token → Prop
  | plain (player : Variable) : Derives (.plain player) [.var player]
  | tagged {role : TypeRef} {ts : List Token} (player : Variable) (h : role.Derives ts) :
      Derives (.tagged role player) (ts ++ [.colon, .var player])

/-- `RolePlayer (, RolePlayer)*` -/
inductive PlayersDerive : List RolePlayer → List Token → Prop
  | one {a : RolePlayer} {ts : List Token} (h : a.Derives ts) : PlayersDerive [a] ts
  | cons {a : RolePlayer} {as : List RolePlayer} {ts us : List Token} (h : a.Derives ts)
      (hs : PlayersDerive as us) : PlayersDerive (a :: as) (ts ++ .comma :: us)

/-- `Relation := ( RolePlayer (, RolePlayer)* )` -/
inductive RelationDerives : List RolePlayer → List Token → Prop
  | enclosed {as : List RolePlayer} {ts : List Token} (h : PlayersDerive as ts) :
      RelationDerives as (.parenOpen :: ts ++ [.parenClose])

/-- `Property := Relation | isa TypeRef | type label` -/
inductive Property.Derives : Property → List Token → Prop
  | relation {as : List RolePlayer} {ts : List Token} (h : RelationDerives as ts) :
      Derives (.relation as) ts
  | isa {type : TypeRef} {ts : List Token} (h : type.Derives ts) :
      Derives (.isa type) (.isaWord :: ts)
  | type (label : String) : Derives (.type label) [.typeWord, .label label]

/-- `Property*` -/
inductive PropertiesDerive : List Property → List Token → Prop
  | nil : PropertiesDerive [] []
  | cons {p : Property} {ps : List Property} {ts us : List Token} (h : p.Derives ts)
      (hs : PropertiesDerive ps us) : PropertiesDerive (p :: ps) (ts ++ us)

/-- `Statement := Variable Property* | Property+` -/
inductive Statement.Derives : Statement → List Token → Prop
  | subject (v : Variable) {ps : List Property} {ts : List Token} (hs : PropertiesDerive ps ts) :
      Derives ⟨some v, ps⟩ (.var v :: ts)
  | properties {p : Property} {ps : List Property} {ts us : List Token} (h : p.Derives ts)
      (hs : PropertiesDerive ps us) : Derives ⟨none, p :: ps⟩ (ts ++ us)

/-- `(Statement ;)+` -/
inductive StatementsDerive : List Statement → List Token → Prop
  | one {s : Statement} {ts : List Token} (h : s.Derives ts) :
      StatementsDerive [s] (ts ++ [.semicolon])
  | cons {s : Statement} {ss : List Statement} {ts us : List Token} (h : s.Derives ts)
      (hs : StatementsDerive ss us) : StatementsDerive (s :: ss) (ts ++ .semicolon :: us)

/-- `Pattern := match? (Statement ;)+` -/
inductive Pattern.Derives : Pattern → List Token → Prop
  | introduced {ss : List Statement} {ts : List Token} (h : StatementsDerive ss ts) :
      Derives ⟨true, ss⟩ (.matchWord :: ts)
  | plain {ss : List Statement} {ts : List Token} (h : StatementsDerive ss ts) :
      Derives ⟨false, ss⟩ ts

/-! ### Written forms -/

/-- Relations have players. -/
def Property.IsWritten : Property → Prop
  | relation as => as ≠ []
  | isa _ => True
  | type _ => True

instance : DecidablePred Property.IsWritten
  | .relation as => inferInstanceAs (Decidable (as ≠ []))
  | .isa _ => inferInstanceAs (Decidable True)
  | .type _ => inferInstanceAs (Decidable True)

/-- A statement has a subject or a property. -/
structure Statement.IsWritten (s : Statement) : Prop where
  nonempty : s.subject? = none → s.properties ≠ []
  properties : ∀ p ∈ s.properties, p.IsWritten

/-- A pattern has statements. -/
structure Pattern.IsWritten (p : Pattern) : Prop where
  nonempty : p.statements ≠ []
  statements : ∀ s ∈ p.statements, s.IsWritten

/-! ### Rows of tokens -/

/-- The tokens of the players of a relation. -/
def playersTokens (as : List RolePlayer) : List Token :=
  [Token.comma].intercalate (as.map RolePlayer.tokens)

/-- The tokens of a relation. -/
def relationTokens (as : List RolePlayer) : List Token :=
  .parenOpen :: playersTokens as ++ [.parenClose]

@[simp] theorem playersTokens_singleton (a : RolePlayer) : playersTokens [a] = a.tokens := by
  simp [playersTokens]

theorem playersTokens_cons {as : List RolePlayer} (h : as ≠ []) (a : RolePlayer) :
    playersTokens (a :: as) = a.tokens ++ .comma :: playersTokens as := by
  have hmap : as.map RolePlayer.tokens ≠ [] := by simpa using h
  rw [playersTokens, List.map_cons, List.intercalate_cons_of_ne_nil hmap, List.append_assoc,
    List.singleton_append, playersTokens]

theorem TypeRef.derives_iff {t : TypeRef} {ts : List Token} : t.Derives ts ↔ ts = t.tokens := by
  constructor
  · rintro (_ | _) <;> rfl
  · rintro rfl
    cases t with
    | label name => exact .label name
    | var v => exact .var v

theorem RolePlayer.derives_iff {a : RolePlayer} {ts : List Token} :
    a.Derives ts ↔ ts = a.tokens := by
  constructor
  · rintro (_ | ⟨player, h⟩)
    · rfl
    · rw [TypeRef.derives_iff.mp h]
      rfl
  · rintro rfl
    cases a with
    | plain player => exact .plain player
    | tagged role player => exact .tagged player (TypeRef.derives_iff.mpr rfl)

theorem playersDerive_iff {as : List RolePlayer} {ts : List Token} :
    PlayersDerive as ts ↔ as ≠ [] ∧ ts = playersTokens as := by
  constructor
  · intro h
    induction h with
    | one h => simp [RolePlayer.derives_iff.mp h]
    | @cons a as ts us h _ ih =>
        obtain ⟨hne, hus⟩ := ih
        rw [playersTokens_cons hne, RolePlayer.derives_iff.mp h, hus]
        exact ⟨List.cons_ne_nil a as, rfl⟩
  · rintro ⟨hne, rfl⟩
    induction as with
    | nil => exact absurd rfl hne
    | cons a as ih =>
        cases as with
        | nil =>
            rw [playersTokens_singleton]
            exact .one (RolePlayer.derives_iff.mpr rfl)
        | cons b as =>
            rw [playersTokens_cons (List.cons_ne_nil b as)]
            exact .cons (RolePlayer.derives_iff.mpr rfl) (ih (List.cons_ne_nil b as))

theorem relationDerives_iff {as : List RolePlayer} {ts : List Token} :
    RelationDerives as ts ↔ as ≠ [] ∧ ts = relationTokens as := by
  constructor
  · rintro ⟨h⟩
    obtain ⟨hne, rfl⟩ := playersDerive_iff.mp h
    exact ⟨hne, rfl⟩
  · rintro ⟨hne, rfl⟩
    exact .enclosed (playersDerive_iff.mpr ⟨hne, rfl⟩)

theorem Property.derives_iff {p : Property} {ts : List Token} :
    p.Derives ts ↔ p.IsWritten ∧ ts = p.tokens := by
  constructor
  · rintro (h | h | _)
    · exact relationDerives_iff.mp h
    · rw [TypeRef.derives_iff.mp h]
      exact ⟨trivial, rfl⟩
    · exact ⟨trivial, rfl⟩
  · rintro ⟨hwritten, rfl⟩
    cases p with
    | relation as => exact .relation (relationDerives_iff.mpr ⟨hwritten, rfl⟩)
    | isa type => exact .isa (TypeRef.derives_iff.mpr rfl)
    | type label => exact .type label

theorem propertiesDerive_iff {ps : List Property} {ts : List Token} :
    PropertiesDerive ps ts ↔ (∀ p ∈ ps, p.IsWritten) ∧ ts = ps.flatMap Property.tokens := by
  constructor
  · intro h
    induction h with
    | nil => simp
    | cons h _ ih =>
        obtain ⟨hwritten, rfl⟩ := Property.derives_iff.mp h
        obtain ⟨hrest, rfl⟩ := ih
        exact ⟨List.forall_mem_cons.mpr ⟨hwritten, hrest⟩, List.flatMap_cons.symm⟩
  · rintro ⟨hwritten, rfl⟩
    induction ps with
    | nil => exact .nil
    | cons p ps ih =>
        rw [List.forall_mem_cons] at hwritten
        rw [List.flatMap_cons]
        exact .cons (Property.derives_iff.mpr ⟨hwritten.1, rfl⟩) (ih hwritten.2)

theorem Statement.derives_iff {s : Statement} {ts : List Token} :
    s.Derives ts ↔ s.IsWritten ∧ ts = s.tokens := by
  constructor
  · rintro (⟨v, hs⟩ | ⟨h, hs⟩)
    · obtain ⟨hwritten, rfl⟩ := propertiesDerive_iff.mp hs
      exact ⟨⟨nofun, hwritten⟩, rfl⟩
    · obtain ⟨hfirst, rfl⟩ := Property.derives_iff.mp h
      obtain ⟨hrest, rfl⟩ := propertiesDerive_iff.mp hs
      exact ⟨⟨fun _ => List.cons_ne_nil _ _, List.forall_mem_cons.mpr ⟨hfirst, hrest⟩⟩, rfl⟩
  · rintro ⟨⟨hne, hwritten⟩, rfl⟩
    obtain ⟨subject?, ps⟩ := s
    cases subject? with
    | some v => exact .subject v (propertiesDerive_iff.mpr ⟨hwritten, rfl⟩)
    | none =>
        obtain ⟨p, ps, rfl⟩ := List.exists_cons_of_ne_nil (hne rfl)
        rw [List.forall_mem_cons] at hwritten
        have hfirst : p.Derives p.tokens := Property.derives_iff.mpr ⟨hwritten.1, rfl⟩
        have hrest : PropertiesDerive ps (ps.flatMap Property.tokens) :=
          propertiesDerive_iff.mpr ⟨hwritten.2, rfl⟩
        simpa [Statement.tokens] using Statement.Derives.properties hfirst hrest

/-- The tokens of statements, each closed by a semicolon. -/
def statementsTokens (ss : List Statement) : List Token :=
  ss.flatMap fun s => s.tokens ++ [.semicolon]

theorem statementsDerive_iff {ss : List Statement} {ts : List Token} :
    StatementsDerive ss ts ↔
      ss ≠ [] ∧ (∀ s ∈ ss, s.IsWritten) ∧ ts = statementsTokens ss := by
  constructor
  · intro h
    induction h with
    | one h =>
        obtain ⟨hwritten, rfl⟩ := Statement.derives_iff.mp h
        simp [statementsTokens, hwritten]
    | cons h _ ih =>
        obtain ⟨hwritten, rfl⟩ := Statement.derives_iff.mp h
        obtain ⟨-, hrest, rfl⟩ := ih
        refine ⟨List.cons_ne_nil _ _, List.forall_mem_cons.mpr ⟨hwritten, hrest⟩, ?_⟩
        simp [statementsTokens]
  · rintro ⟨hne, hwritten, rfl⟩
    induction ss with
    | nil => exact absurd rfl hne
    | cons s ss ih =>
        rw [List.forall_mem_cons] at hwritten
        have hs : s.Derives s.tokens := Statement.derives_iff.mpr ⟨hwritten.1, rfl⟩
        cases ss with
        | nil => simpa [statementsTokens] using StatementsDerive.one hs
        | cons r ss =>
            have hcons := StatementsDerive.cons hs (ih (List.cons_ne_nil r ss) hwritten.2)
            simpa [statementsTokens] using hcons

theorem Pattern.derives_iff {p : Pattern} {ts : List Token} :
    p.Derives ts ↔ p.IsWritten ∧ ts = p.tokens := by
  constructor
  · rintro (h | h)
    all_goals
      obtain ⟨hne, hwritten, rfl⟩ := statementsDerive_iff.mp h
      exact ⟨⟨hne, hwritten⟩, rfl⟩
  · rintro ⟨⟨hne, hwritten⟩, rfl⟩
    obtain ⟨introduced, ss⟩ := p
    have hs : StatementsDerive ss (statementsTokens ss) :=
      statementsDerive_iff.mpr ⟨hne, hwritten, rfl⟩
    cases introduced with
    | true => exact .introduced hs
    | false => exact .plain hs

end GraphPattern.Surface
