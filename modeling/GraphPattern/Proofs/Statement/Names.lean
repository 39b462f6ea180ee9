import GraphPattern.Proofs.Statement.Extension
import GraphPattern.Proofs.Statement.Tokens
import Mathlib.Data.Set.List

/-!
Names: visible variables and labels of types. The tokens of a statement contain exactly the
names that occur in it, at whatever depth and in whatever place: as a subject, a role, a
player, the type of an instance or the label of a type.

So names can be traced along the tokens or along the walk, with the same result.
-/

namespace GraphPattern

/-- Whether the token is a name, that is a visible variable or a label. -/
def Token.isName : Token → Bool
  | var (.visible _) | label _ => true
  | var .anonymous | matchWord | isaWord | typeWord | parenOpen | parenClose | comma | colon
  | semicolon => false

theorem Token.ne_of_isName {k t : Token} (hk : k.isName = true) (ht : t.isName = false) :
    k ≠ t := by
  rintro rfl
  exact Bool.false_ne_true (ht.symm.trans hk)

/-- The names of a single statement, without those of its children. -/
inductive Statement.Shows (s : Statement) : Token → Prop
  | subject {name : String} (h : s.subject = .visible name) : Shows s (.var (.visible name))
  | label {label : String} (h : .type label ∈ s.properties) : Shows s (.label label)

variable {k : Token}

theorem exists_mem_flatMap_iff {α β : Type} {as : List α} {f : α → List β} {P : β → Prop} :
    (∃ b ∈ as.flatMap f, P b) ↔ ∃ a ∈ as, ∃ b ∈ f a, P b := by
  constructor
  · rintro ⟨b, hb, hP⟩
    obtain ⟨a, ha, hb⟩ := List.mem_flatMap.mp hb
    exact ⟨a, ha, b, hb, hP⟩
  · rintro ⟨a, ha, b, hb, hP⟩
    exact ⟨b, List.mem_flatMap.mpr ⟨a, ha, hb⟩, hP⟩

/-! ### One node

The names in the tokens of a node are its own and those in the short forms of its children. -/

theorem mem_fullTokens_iff (hk : k.isName = true) {v : Variable} {rows : List (List Token)} :
    k ∈ fullTokens v rows ↔ k = .var v ∨ ∃ row ∈ rows, k ∈ row := by
  have hanonymous : k ≠ .var .anonymous := Token.ne_of_isName hk rfl
  cases v with
  | visible name => simp [fullTokens]
  | anonymous => cases rows <;> simp [fullTokens, hanonymous]

theorem RolePlayer.mem_tokens_iff (hk : k.isName = true) {a : RolePlayer} :
    k ∈ a.tokens ↔ ∃ c ∈ a.statements, k ∈ c.shortTokens := by
  have hcolon : k ≠ .colon := Token.ne_of_isName hk rfl
  cases a with
  | plain player => simp [tokens, statements]
  | tagged role player => simp [tokens, statements, hcolon, or_comm]

theorem Property.mem_tokens_iff (hk : k.isName = true) {p : Property} :
    k ∈ p.tokens ↔
      (∃ label, p = .type label ∧ k = .label label) ∨ ∃ c ∈ p.statements, k ∈ c.shortTokens := by
  cases p with
  | relation as =>
      have hopen : k ≠ .parenOpen := Token.ne_of_isName hk rfl
      have hcomma : k ≠ .comma := Token.ne_of_isName hk rfl
      have hclose : k ≠ .parenClose := Token.ne_of_isName hk rfl
      have hplayers : k ∈ [Token.comma].intercalate (as.map RolePlayer.tokens) ↔
          ∃ a ∈ as, k ∈ a.tokens := by
        constructor
        · intro h
          rcases mem_intercalate h with hsep | ⟨row, hrow, hk⟩
          · exact absurd (List.mem_singleton.mp hsep) hcomma
          · obtain ⟨a, ha, rfl⟩ := List.mem_map.mp hrow
            exact ⟨a, ha, hk⟩
        · rintro ⟨a, ha, hk⟩
          exact mem_intercalate_of_mem (List.mem_map_of_mem ha) hk
      have hstatements : (∃ c ∈ (relation as).statements, k ∈ c.shortTokens) ↔
          ∃ a ∈ as, k ∈ a.tokens := by
        simp only [RolePlayer.mem_tokens_iff hk, statements]
        exact exists_mem_flatMap_iff
      rw [hstatements, ← hplayers, tokens_relation]
      simp [hopen, hclose]
  | isa t =>
      have hword : k ≠ .isaWord := Token.ne_of_isName hk rfl
      simp [tokens, statements, hword]
  | type label =>
      have hword : k ≠ .typeWord := Token.ne_of_isName hk rfl
      simp [tokens, statements, hword]

namespace Statement

variable {s : Statement}

theorem mem_tokens_iff (hk : k.isName = true) :
    k ∈ s.tokens ↔ k = .var s.subject ∨ ∃ p ∈ s.properties, k ∈ p.tokens := by
  rw [tokens, mem_fullTokens_iff hk]
  simp

/-- The short form has the same names as the full form, since the word `type` is no name. -/
theorem mem_shortTokens_iff_mem_tokens (hk : k.isName = true) :
    k ∈ s.shortTokens ↔ k ∈ s.tokens := by
  obtain ⟨v, ps⟩ := s
  rcases shortForm_cases v ps with ⟨label, rfl, rfl⟩ | ⟨-, htokens⟩
  · have hword : k ≠ .typeWord := Token.ne_of_isName hk rfl
    change k ∈ [Token.label label] ↔ k ∈ [Token.typeWord, .label label]
    simp [hword]
  · rw [shortTokens_eq, htokens, tokens]

theorem shows_iff (hk : k.isName = true) :
    s.Shows k ↔ k = .var s.subject ∨ ∃ label, .type label ∈ s.properties ∧ k = .label label := by
  constructor
  · rintro (hsubject | hlabel)
    · exact .inl (by rw [hsubject])
    · exact .inr ⟨_, hlabel, rfl⟩
  · rintro (rfl | ⟨label, hlabel, rfl⟩)
    · cases hsubject : s.subject with
      | anonymous => simp [hsubject, Token.isName] at hk
      | visible name => exact .subject hsubject
    · exact .label hlabel

theorem mem_tokens_iff_shows (hk : k.isName = true) :
    k ∈ s.tokens ↔ s.Shows k ∨ ∃ c ∈ s.children, k ∈ c.tokens := by
  have hchildren : (∃ c ∈ s.children, k ∈ c.tokens) ↔
      ∃ p ∈ s.properties, ∃ c ∈ p.statements, k ∈ c.shortTokens := by
    simp only [mem_shortTokens_iff_mem_tokens hk]
    exact exists_mem_flatMap_iff
  rw [mem_tokens_iff hk, shows_iff hk, hchildren, or_assoc]
  refine or_congr_right ?_
  simp only [Property.mem_tokens_iff hk]
  constructor
  · rintro ⟨p, hp, ⟨label, rfl, hlabel⟩ | hc⟩
    · exact .inl ⟨label, hp, hlabel⟩
    · exact .inr ⟨p, hp, hc⟩
  · rintro (⟨label, hp, hlabel⟩ | ⟨p, hp, hc⟩)
    · exact ⟨.type label, hp, .inl ⟨label, rfl, hlabel⟩⟩
    · exact ⟨p, hp, .inr hc⟩

/-! ### All nodes -/

/-- The names in the tokens of a statement are those of its inner statements. -/
theorem mem_tokens_iff_exists_shows (hk : k.isName = true) :
    k ∈ s.tokens ↔ ∃ t ∈ s.innerStatements, t.Shows k := by
  induction s using child_induction with
  | step s ih =>
      rw [mem_tokens_iff_shows hk, innerStatements_eq, List.exists_mem_cons_iff]
      refine or_congr_right ?_
      constructor
      · rintro ⟨c, hc, hkc⟩
        obtain ⟨t, ht, hshows⟩ := (ih c hc).mp hkc
        exact ⟨t, List.mem_flatMap.mpr ⟨c, hc, ht⟩, hshows⟩
      · rintro ⟨t, ht, hshows⟩
        obtain ⟨c, hc, htc⟩ := List.mem_flatMap.mp ht
        exact ⟨c, hc, (ih c hc).mpr ⟨t, htc, hshows⟩⟩

end Statement

theorem Pattern.mem_tokens_iff_exists_shows (hk : k.isName = true) {p : Pattern} :
    k ∈ p.tokens ↔ ∃ t ∈ p.innerStatements, t.Shows k := by
  have hsemicolon : k ≠ .semicolon := Token.ne_of_isName hk rfl
  simp only [tokens, innerStatements, List.mem_flatMap, List.mem_append, List.mem_singleton,
    hsemicolon, or_false, Statement.mem_tokens_iff_exists_shows hk]
  exact ⟨fun ⟨s, hs, t, ht, h⟩ => ⟨t, ⟨s, hs, ht⟩, h⟩, fun ⟨t, ⟨s, hs, ht⟩, h⟩ => ⟨s, hs, t, ht, h⟩⟩

/-! ### Visible variables -/

theorem Statement.mem_visibleVariables_iff {s : Statement} {v : Variable} :
    v ∈ s.visibleVariables ↔ v.isVisible = true ∧ ∃ t ∈ s.innerStatements, t.subject = v := by
  rw [visibleVariables, List.mem_eraseDups, List.mem_filter, List.mem_map, and_comm]

theorem Pattern.mem_visibleVariables_iff {p : Pattern} {v : Variable} :
    v ∈ p.visibleVariables ↔ v.isVisible = true ∧ ∃ t ∈ p.innerStatements, t.subject = v := by
  simp only [visibleVariables, innerStatements, List.mem_eraseDups, List.mem_flatMap,
    Statement.mem_visibleVariables_iff]
  exact ⟨fun ⟨s, hs, hv, t, ht, h⟩ => ⟨hv, t, ⟨s, hs, ht⟩, h⟩,
    fun ⟨hv, t, ⟨s, hs, ht⟩, h⟩ => ⟨s, hs, hv, t, ht, h⟩⟩

/-- The visible variables of a pattern are given by a list of names without repetitions. -/
theorem Pattern.exists_names (p : Pattern) :
    ∃ names : List String, p.visibleVariables = names.map .visible ∧ names.Nodup := by
  have hvisible : p.visibleVariables ∈ Set.range (List.map Variable.visible) := by
    rw [Set.range_list_map]
    intro v hv
    cases v with
    | anonymous => exact absurd (mem_visibleVariables_iff.mp hv).1 Bool.false_ne_true
    | visible name => exact ⟨name, rfl⟩
  obtain ⟨names, hnames⟩ := hvisible
  have hnodup : (names.map Variable.visible).Nodup := by
    rw [hnames]
    exact nodup_eraseDups _
  exact ⟨names, hnames.symm, hnodup.of_map _⟩

end GraphPattern
