import GraphPattern.Proofs.Statement.Calls

/-!
Runs of builder calls. As long as keywords are distinct, a call extends the property of its
keyword in place or appends a property of its own. Extending a relation appends players to
it, and extending any other property leaves it unchanged; so the effect of a call on the
properties does not depend on their order.

Two results follow by induction on the run. Each property is the one made by the first call
of its keyword, extended by the players of all later calls; and calls of different keywords
commute.
-/

namespace GraphPattern

/-! ### The arguments of a call -/

namespace Call

/-- The keyword of the property that a call adds or extends. -/
def keyword : Call → Keyword
  | addProperty p => p.keyword
  | isa _ => .isa
  | rel _ _ | relPlayer _ => .relation

/-- The property that a call appends if there is none of its keyword. -/
def property : Call → Property
  | addProperty p => p
  | isa type => .isa type
  | rel role player => .relation [.tagged role player]
  | relPlayer player => .relation [.plain player]

/-- The role player by which a call extends an existing relation. -/
def player? : Call → Option RolePlayer
  | addProperty _ | isa _ => none
  | rel role player => some (.tagged role player)
  | relPlayer player => some (.plain player)

@[simp] theorem keyword_property (c : Call) : c.property.keyword = c.keyword := by
  cases c <;> rfl

theorem player?_eq_none_or {a b : Call} (h : a.keyword ≠ b.keyword) :
    a.player? = none ∨ b.player? = none := by
  cases a with
  | addProperty | isa => exact .inl rfl
  | rel | relPlayer =>
      cases b with
      | addProperty | isa => exact .inr rfl
      | rel | relPlayer => exact absurd rfl h

theorem keyword_eq_of_player? {c : Call} {a : RolePlayer} (h : c.player? = some a) :
    c.keyword = .relation := by
  cases c with
  | rel | relPlayer => rfl
  | addProperty | isa => cases h

end Call

/-- Appends players to a relation property. -/
def Property.extended (as : List RolePlayer) : Property → Property
  | relation players => relation (players ++ as)
  | p => p

namespace Property

@[simp] theorem keyword_extended (as : List RolePlayer) (p : Property) :
    (p.extended as).keyword = p.keyword := by
  cases p <;> rfl

@[simp] theorem extended_nil (p : Property) : p.extended [] = p := by
  cases p with
  | relation players => rw [extended, List.append_nil]
  | isa | type => rfl

theorem map_extended_nil (ps : List Property) : ps.map (extended []) = ps := by
  rw [List.map_congr_left fun (p : Property) _ => p.extended_nil, List.map_id']

theorem extended_extended (as bs : List RolePlayer) (p : Property) :
    (p.extended as).extended bs = p.extended (as ++ bs) := by
  cases p with
  | relation players => simp only [extended, List.append_assoc]
  | isa | type => rfl

/-- Two extensions commute unless both add a player. -/
theorem extended_comm {a? b? : Option RolePlayer} (h : a? = none ∨ b? = none) (p : Property) :
    (p.extended a?.toList).extended b?.toList = (p.extended b?.toList).extended a?.toList := by
  rcases h with rfl | rfl
  all_goals rw [Option.toList_none, extended_nil, extended_nil]

theorem extended_of_keyword_ne {p : Property} (h : p.keyword ≠ .relation)
    (as : List RolePlayer) : p.extended as = p := by
  cases p with
  | relation => exact absurd rfl h
  | isa | type => rfl

/-- A call does not extend properties of other keywords. -/
theorem extended_player?_of_ne {c : Call} {p : Property} (h : p.keyword ≠ c.keyword) :
    p.extended c.player?.toList = p := by
  cases ha : c.player? with
  | none => exact p.extended_nil
  | some a => exact extended_of_keyword_ne (Call.keyword_eq_of_player? ha ▸ h) [a]

end Property

/-! ### One call -/

namespace Statement

/-- Keywords are pairwise distinct. -/
def IsUnique (s : Statement) : Prop := (s.properties.map Property.keyword).Nodup

variable {s s' : Statement} {c : Call} {p : Property}

theorem IsUnique.after (h : s.IsUnique) (c : Call) : (s.after c).IsUnique :=
  (grows_after s c).nodup_keywords h

theorem IsUnique.consistent (h : s.IsUnique) : Property.Consistent s.properties :=
  fun _ hp _ hq hkey => List.inj_on_of_nodup_map h hp hq hkey

/-- The calls that fail, with their conflict. -/
theorem IsUnique.call_eq_error_iff (h : s.IsUnique) {e : Conflict} :
    s.call c = .error e ↔ c.player? = none ∧
      ∃ q ∈ s.properties, q.keyword = c.keyword ∧ q ≠ c.property ∧ e = ⟨s, q, c.property⟩ := by
  cases c with
  | addProperty p => exact (addProperty_eq_error_iff h.consistent).trans (and_iff_right rfl).symm
  | isa type =>
      rw [call_isa]
      exact (addProperty_eq_error_iff h.consistent).trans (and_iff_right rfl).symm
  | rel | relPlayer => exact iff_of_false nofun nofun

theorem properties_addProperty (s : Statement) (p : Property) :
    (s.after (.addProperty p)).properties =
      if p.keyword ∈ s.properties.map Property.keyword then s.properties
      else s.properties ++ [p] := by
  rw [after, call]
  rcases addProperty_cases s p with ⟨hnew, hadd⟩ | ⟨q, hq, hkey, hadd⟩
  · have hkeywords : p.keyword ∉ s.properties.map Property.keyword := by simpa using hnew
    rw [hadd, if_neg hkeywords]
  · have hkeywords : q.keyword ∈ s.properties.map Property.keyword := List.mem_map_of_mem hq
    rw [hkey] at hkeywords
    rw [if_pos hkeywords, hadd]
    by_cases hqp : q = p
    · simp only [if_pos hqp]
    · simp only [if_neg hqp]

theorem IsUnique.properties_addRolePlayer (h : s.IsUnique) (a : RolePlayer) :
    (s.addRolePlayer a).properties =
      if .relation ∈ s.properties.map Property.keyword then s.properties.map (.extended [a])
      else s.properties ++ [.relation [a]] := by
  obtain ⟨v, ps⟩ := s
  rw [addRolePlayer]
  rcases joined_cases a ps with ⟨hnone, hjoined⟩ | ⟨before, as, after, rfl, hjoined⟩
  · have hnew : Keyword.relation ∉ ps.map Property.keyword := by simpa using hnone
    rw [if_neg hnew, ← hjoined]
  · -- There is no other relation for the player to join.
    have hothers : ∀ p ∈ before ++ after, p.extended [a] = p := by
      intro p hp
      refine Property.extended_of_keyword_ne ?_ [a]
      intro hkey
      have hmiddle : (before ++ .relation as :: after).Perm (.relation as :: (before ++ after)) :=
        List.perm_middle
      have hperm := hmiddle.map Property.keyword
      have hmem : p.keyword ∈ (before ++ after).map Property.keyword := List.mem_map_of_mem hp
      rw [hkey] at hmem
      exact (List.nodup_cons.mp (hperm.nodup h)).1 hmem
    rw [List.forall_mem_append] at hothers
    rw [if_pos (by simp [Property.keyword]), hjoined, List.map_append, List.map_cons,
      List.map_congr_left hothers.1, List.map_congr_left hothers.2, List.map_id', List.map_id']
    rfl

/-- The properties after a call, successful or not. -/
theorem IsUnique.properties_after (h : s.IsUnique) (c : Call) :
    (s.after c).properties =
      if c.keyword ∈ s.properties.map Property.keyword then
        s.properties.map (.extended c.player?.toList)
      else s.properties ++ [c.property] := by
  cases c with
  | rel | relPlayer => exact h.properties_addRolePlayer _
  | addProperty p =>
      have hsame : s.properties.map (.extended (Call.addProperty p).player?.toList) =
          s.properties := Property.map_extended_nil _
      rw [hsame]
      exact properties_addProperty s p
  | isa type =>
      have hsame : s.properties.map (.extended (Call.isa type).player?.toList) =
          s.properties := Property.map_extended_nil _
      rw [hsame]
      exact properties_addProperty s (.isa type)

theorem IsUnique.keywords_after (h : s.IsUnique) (c : Call) :
    (s.after c).properties.map Property.keyword =
      if c.keyword ∈ s.properties.map Property.keyword then s.properties.map Property.keyword
      else s.properties.map Property.keyword ++ [c.keyword] := by
  rw [h.properties_after c]
  split
  · rw [List.map_map]
    exact List.map_congr_left fun p _ => p.keyword_extended _
  · rw [List.map_append, List.map_singleton, Call.keyword_property]

theorem IsUnique.keyword_mem_after_iff (h : s.IsUnique) {k : Keyword} (hk : k ≠ c.keyword) :
    k ∈ (s.after c).properties.map Property.keyword ↔
      k ∈ s.properties.map Property.keyword := by
  rw [h.keywords_after c]
  split
  · rfl
  · simp only [List.mem_append, List.mem_singleton, hk, or_false]

theorem IsUnique.extended_mem_after (h : s.IsUnique) (hp : p ∈ s.properties) (c : Call) :
    p.extended c.player?.toList ∈ (s.after c).properties := by
  rw [h.properties_after c]
  split
  case isTrue => exact List.mem_map_of_mem hp
  case isFalse hnew =>
    have hkey : p.keyword ≠ c.keyword := fun hkey => hnew (hkey ▸ List.mem_map_of_mem hp)
    rw [Property.extended_player?_of_ne hkey]
    exact List.mem_append_left _ hp

/-- A call preserves the properties of other keywords. -/
theorem IsUnique.mem_after_iff (h : s.IsUnique) (hkey : p.keyword ≠ c.keyword) :
    p ∈ (s.after c).properties ↔ p ∈ s.properties := by
  constructor
  · intro hp
    rw [h.properties_after c] at hp
    split at hp
    · obtain ⟨q, hq, rfl⟩ := List.mem_map.mp hp
      rw [Property.keyword_extended] at hkey
      rwa [Property.extended_player?_of_ne hkey]
    · rcases List.mem_append.mp hp with hp | hp
      · exact hp
      · rw [List.mem_singleton.mp hp, Call.keyword_property] at hkey
        exact absurd rfl hkey
  · intro hp
    have hmem := h.extended_mem_after hp c
    rwa [Property.extended_player?_of_ne hkey] at hmem

/-! ### Runs -/

/-- The statement after a run of calls. -/
def run (s : Statement) (cs : List Call) : Statement := cs.foldl after s

/-- The outcomes of the calls of a run, `true` for success. -/
def outcomes (s : Statement) : List Call → List Bool
  | [] => []
  | c :: cs => (s.call c).isOk :: (s.after c).outcomes cs

theorem run_append (s : Statement) (cs ds : List Call) : s.run (cs ++ ds) = (s.run cs).run ds :=
  List.foldl_append

theorem outcomes_append (s : Statement) (cs ds : List Call) :
    s.outcomes (cs ++ ds) = s.outcomes cs ++ (s.run cs).outcomes ds := by
  induction cs generalizing s with
  | nil => rfl
  | cons c cs ih => exact congrArg ((s.call c).isOk :: ·) (ih (s.after c))

theorem length_outcomes (s : Statement) (cs : List Call) : (s.outcomes cs).length = cs.length := by
  induction cs generalizing s with
  | nil => rfl
  | cons c cs ih => exact congrArg (· + 1) (ih (s.after c))

theorem IsUnique.run (h : s.IsUnique) (cs : List Call) : (s.run cs).IsUnique := by
  induction cs generalizing s with
  | nil => exact h
  | cons c cs ih => exact ih (h.after c)

theorem subject_run (s : Statement) (cs : List Call) : (s.run cs).subject = s.subject := by
  induction cs generalizing s with
  | nil => rfl
  | cons c cs ih => exact (ih (s.after c)).trans (grows_after s c).subject_eq

section Bare

variable (v : Variable)

theorem isUnique_bare : (bare v).IsUnique := List.nodup_nil

theorem isUnique_run (cs : List Call) : ((bare v).run cs).IsUnique := (isUnique_bare v).run cs

/-- The keywords after a run are in the order of their first calls. -/
theorem keywords_run (cs : List Call) :
    ((bare v).run cs).properties.map Property.keyword = (cs.map Call.keyword).eraseDups := by
  -- The induction is from the end: the last call appends its keyword or extends a property.
  induction cs using List.reverseRecOn with
  | nil => rfl
  | append_singleton cs c ih =>
      have hcall := (isUnique_run v cs).keywords_after c
      simp only [ih, List.mem_eraseDups] at hcall
      rw [run_append, List.map_append, List.map_singleton]
      refine hcall.trans ?_
      split
      case isTrue hold => exact (eraseDups_concat_of_mem hold).symm
      case isFalse hnew => exact (eraseDups_concat_of_not_mem hnew).symm

/-- The property of a keyword is that of its first call, extended by the players of the
later ones. -/
theorem extended_mem_run {before : List Call} {c : Call}
    (hfirst : ∀ b ∈ before, b.keyword ≠ c.keyword) (later : List Call) :
    c.property.extended (later.filterMap Call.player?) ∈
      ((bare v).run (before ++ c :: later)).properties := by
  induction later using List.reverseRecOn with
  | nil =>
      have hnew : c.keyword ∉ ((bare v).run before).properties.map Property.keyword := by
        rw [keywords_run, List.mem_eraseDups, List.mem_map]
        rintro ⟨b, hb, hkey⟩
        exact hfirst b hb hkey
      rw [run_append, List.filterMap_nil, Property.extended_nil]
      change c.property ∈ (((bare v).run before).after c).properties
      rw [(isUnique_run v before).properties_after c, if_neg hnew]
      exact List.mem_concat_self
  | append_singleton later d ih =>
      have hplayers : (later ++ [d]).filterMap Call.player? =
          later.filterMap Call.player? ++ d.player?.toList := by
        rw [List.filterMap_append]
        cases hd : d.player? <;> simp [hd]
      have hmem := (isUnique_run v (before ++ c :: later)).extended_mem_after ih d
      rw [Property.extended_extended, ← hplayers] at hmem
      rw [← List.cons_append, ← List.append_assoc, run_append]
      exact hmem

end Bare

/-! ### Commuting calls -/

theorem IsUnique.isOk_call_iff (h : s.IsUnique) :
    (s.call c).isOk = true ↔
      (c.player? = none → ∀ q ∈ s.properties, q.keyword = c.keyword → q = c.property) := by
  cases hcall : s.call c with
  | ok s' =>
      refine iff_of_true rfl fun hplayer q hq hkey => ?_
      by_contra hne
      have herror := h.call_eq_error_iff.mpr ⟨hplayer, q, hq, hkey, hne, rfl⟩
      rw [hcall] at herror
      cases herror
  | error e =>
      obtain ⟨hplayer, q, hq, hkey, hne, -⟩ := h.call_eq_error_iff.mp hcall
      exact iff_of_false nofun fun hall => hne (hall hplayer q hq hkey)

/-- The outcome of a call does not depend on a call of another keyword. -/
theorem IsUnique.isOk_call_after (h : s.IsUnique) {a b : Call} (hab : b.keyword ≠ a.keyword) :
    ((s.after a).call b).isOk = (s.call b).isOk := by
  rw [Bool.eq_iff_iff, (h.after a).isOk_call_iff, h.isOk_call_iff]
  refine forall_congr' fun _ => forall_congr' fun q => ?_
  constructor
  · intro hq hmem hkey
    exact hq ((h.mem_after_iff (hkey ▸ hab)).mpr hmem) hkey
  · intro hq hmem hkey
    exact hq ((h.mem_after_iff (hkey ▸ hab)).mp hmem) hkey

/-- Two statements with distinct keywords that differ only in the order of their properties.
-/
structure Similar (s s' : Statement) : Prop where
  subject : s.subject = s'.subject
  perm : s.properties.Perm s'.properties
  unique : s.IsUnique

namespace Similar

theorem unique' (h : Similar s s') : s'.IsUnique := (h.perm.map Property.keyword).nodup h.unique

theorem after (h : Similar s s') (c : Call) : Similar (s.after c) (s'.after c) where
  subject := by rw [(grows_after s c).subject_eq, (grows_after s' c).subject_eq, h.subject]
  perm := by
    rw [h.unique.properties_after c, h.unique'.properties_after c]
    simp only [(h.perm.map Property.keyword).mem_iff]
    split
    · exact h.perm.map _
    · exact h.perm.append_right _
  unique := h.unique.after c

theorem run (h : Similar s s') (cs : List Call) : Similar (s.run cs) (s'.run cs) := by
  induction cs generalizing s s' with
  | nil => exact h
  | cons c cs ih => exact ih (h.after c)

theorem isOk_call (h : Similar s s') (c : Call) : (s.call c).isOk = (s'.call c).isOk := by
  rw [Bool.eq_iff_iff, h.unique.isOk_call_iff, h.unique'.isOk_call_iff]
  simp only [h.perm.mem_iff]

theorem outcomes (h : Similar s s') (cs : List Call) : s.outcomes cs = s'.outcomes cs := by
  induction cs generalizing s s' with
  | nil => rfl
  | cons c cs ih =>
      rw [Statement.outcomes, Statement.outcomes, h.isOk_call c, ih (h.after c)]

end Similar

/-- The properties after two calls of different keywords. -/
theorem IsUnique.properties_after_after (h : s.IsUnique) {a b : Call}
    (hab : a.keyword ≠ b.keyword) :
    ((s.after a).after b).properties =
      if b.keyword ∈ s.properties.map Property.keyword then
        (s.after a).properties.map (.extended b.player?.toList)
      else (s.after a).properties ++ [b.property] := by
  rw [(h.after a).properties_after b]
  simp only [h.keyword_mem_after_iff hab.symm]

/-- Calls of different keywords commute up to the order of properties. -/
theorem IsUnique.similar_after_after (h : s.IsUnique) {a b : Call} (hab : a.keyword ≠ b.keyword) :
    Similar ((s.after a).after b) ((s.after b).after a) where
  subject := by simp only [(grows_after _ _).subject_eq]
  perm := by
    rw [h.properties_after_after hab, h.properties_after_after hab.symm, h.properties_after a,
      h.properties_after b]
    have hextended : b.property.extended a.player?.toList = b.property :=
      Property.extended_player?_of_ne (by rw [b.keyword_property]; exact hab.symm)
    have hextended' : a.property.extended b.player?.toList = a.property :=
      Property.extended_player?_of_ne (by rw [a.keyword_property]; exact hab)
    by_cases ha : a.keyword ∈ s.properties.map Property.keyword
    · by_cases hb : b.keyword ∈ s.properties.map Property.keyword
      · simp only [if_pos ha, if_pos hb, List.map_map]
        refine .of_eq (List.map_congr_left fun p _ => ?_)
        exact p.extended_comm (Call.player?_eq_none_or hab)
      · simp only [if_pos ha, if_neg hb, List.map_append, List.map_singleton, hextended]
        rfl
    · by_cases hb : b.keyword ∈ s.properties.map Property.keyword
      · simp only [if_neg ha, if_pos hb, List.map_append, List.map_singleton, hextended']
        rfl
      · simp only [if_neg ha, if_neg hb, List.append_assoc]
        exact (List.Perm.swap _ _ []).append_left s.properties
  unique := (h.after a).after b

/-! ### Run specification -/

/-- The specification of the statement `s` after the run `cs` of calls on the bare variable
`v`. -/
structure IsMadeBy (cs : List Call) (v : Variable) (s : Statement) : Prop where
  subject : s.subject = v
  /-- There is one property for each keyword, in the order of the first calls. -/
  keywords : s.properties.map Property.keyword = (cs.map Call.keyword).eraseDups
  /-- A property other than a relation is that of the first call. -/
  first : ∀ before c later, cs = before ++ c :: later → (∀ b ∈ before, b.keyword ≠ c.keyword) →
    c.keyword ≠ .relation → c.property ∈ s.properties
  /-- The players of a relation are those of the first call followed by those of all later
  calls. -/
  players : ∀ before c later as, cs = before ++ c :: later →
    (∀ b ∈ before, b.keyword ≠ .relation) → c.property = .relation as →
      .relation (as ++ later.filterMap Call.player?) ∈ s.properties

theorem isMadeBy_run (v : Variable) (cs : List Call) : IsMadeBy cs v ((bare v).run cs) where
  subject := subject_run (bare v) cs
  keywords := keywords_run v cs
  first := by
    rintro before c later rfl hfirst hkey
    have hmem := extended_mem_run v hfirst later
    rwa [Property.extended_of_keyword_ne (by rwa [c.keyword_property])] at hmem
  players := by
    rintro before c later as rfl hfirst hproperty
    have hkey : c.keyword = .relation := by
      rw [← c.keyword_property, hproperty]
      rfl
    have hmem := extended_mem_run v (hkey ▸ hfirst) later
    rwa [hproperty] at hmem

/-- Builder calls may be interleaved: a run yields the specified statement, only a call that
adds a property can fail, and calls of different keywords commute. -/
theorem run_interleaves :
    ∀ (v : Variable) (cs : List Call),
      IsMadeBy cs v ((bare v).run cs) ∧
      (∀ (c : Call) (e : Conflict), ((bare v).run cs).call c = .error e ↔
        c.player? = none ∧ ∃ q ∈ ((bare v).run cs).properties,
          q.keyword = c.keyword ∧ q ≠ c.property ∧ e = ⟨(bare v).run cs, q, c.property⟩) ∧
      ∀ (a b : Call) (later : List Call), a.keyword ≠ b.keyword →
        Similar ((bare v).run (cs ++ a :: b :: later)) ((bare v).run (cs ++ b :: a :: later)) ∧
        ∃ (x y : Bool) (front back : List Bool), front.length = cs.length ∧
          (bare v).outcomes (cs ++ a :: b :: later) = front ++ x :: y :: back ∧
          (bare v).outcomes (cs ++ b :: a :: later) = front ++ y :: x :: back := by
  intro v cs
  have hunique := isUnique_run v cs
  refine ⟨isMadeBy_run v cs, fun c e => hunique.call_eq_error_iff, ?_⟩
  intro a b later hab
  have hsimilar := hunique.similar_after_after hab
  refine ⟨?_, (((bare v).run cs).call a).isOk, (((bare v).run cs).call b).isOk,
    (bare v).outcomes cs, ((((bare v).run cs).after a).after b).outcomes later,
    length_outcomes (bare v) cs, ?_, ?_⟩
  · rw [run_append, run_append]
    exact hsimilar.run later
  · rw [outcomes_append, outcomes, outcomes, hunique.isOk_call_after hab.symm]
  · rw [outcomes_append, outcomes, outcomes, hunique.isOk_call_after hab,
      hsimilar.outcomes later]

/-- A relation that is accepted as a repetition and refused once another player has joined,
and a type added in front of a player or behind it. -/
theorem run_interleaves_marriage :
    let x : Statement := bare (.visible "x")
    let y : Statement := bare (.visible "y")
    let cs : List Call := [.relPlayer x, .addProperty (.relation [.plain x]), .relPlayer y]
    let s : Statement := (bare (.visible "r")).run cs
    s.call (.addProperty (.relation [.plain x])) =
        .error ⟨s, .relation [.plain x, .plain y], .relation [.plain x]⟩ ∧
      Similar ((bare (.visible "r")).run (cs ++ [.relPlayer y, .isa (.ofLabel "marriage")]))
        ((bare (.visible "r")).run (cs ++ [.isa (.ofLabel "marriage"), .relPlayer y])) := by
  intro x y cs s
  obtain ⟨hmade, herror, hswap⟩ := run_interleaves (.visible "r") cs
  have hplayers : .relation [.plain x, .plain y] ∈ s.properties :=
    hmade.players [] (.relPlayer x) _ [.plain x] rfl (List.forall_mem_nil _) rfl
  refine ⟨(herror _ _).mpr ⟨rfl, _, hplayers, rfl, by simp [Call.property], rfl⟩, ?_⟩
  exact (hswap (.relPlayer y) (.isa (.ofLabel "marriage")) [] (by decide)).1

end Statement

end GraphPattern
