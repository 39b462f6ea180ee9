import GraphPattern.Proofs.Surface.Form

/-!
Unique readability of flat values. A value whose nested statements are variables and labels
is determined by its text among the values of its sort, whether the text parses or not: a
relation may be empty, properties may clash, and a label may be a reserved word.

The induction from names up to patterns is on `IsReadable`: a text can be taken off the
front of a longer one in only one way. Its end is recognized by the next character, so each
sort of text comes with the set of characters that may follow it, and a row of texts needs a
separator outside that set.
-/

namespace GraphPattern

/-! ### Unique readability -/

/-- `rest` is empty or begins with one of the given characters. -/
def Begins (stops rest : List Char) : Prop := ∀ c ∈ rest.head?, c ∈ stops

/-- The concatenation of texts, each behind a separator. -/
def separated {α : Type} (sep : Char) (text : α → List Char) (as : List α) : List Char :=
  as.flatMap fun a => sep :: text a

section Separated

variable {α : Type} {text : α → List Char} {stops rest : List Char} {sep : Char}

@[simp] theorem separated_nil (sep : Char) (text : α → List Char) : separated sep text [] = [] :=
  rfl

@[simp] theorem separated_cons (sep : Char) (text : α → List Char) (a : α) (as : List α) :
    separated sep text (a :: as) = sep :: (text a ++ separated sep text as) := rfl

theorem intercalate_map_cons (text : α → List Char) (sep : Char) (spaces : List Char) (a : α)
    (as : List α) :
    (sep :: spaces).intercalate ((a :: as).map text) =
      text a ++ separated sep (spaces ++ text ·) as := by
  induction as generalizing a with
  | nil => simp
  | cons b as ih =>
      rw [List.map_cons, List.map_cons, List.intercalate_cons_cons, ← List.map_cons, ih]
      simp

theorem begins_nil (stops : List Char) : Begins stops [] := nofun

theorem begins_cons_iff {c : Char} : Begins stops (c :: rest) ↔ c ∈ stops := by
  simp [Begins]

theorem Begins.apart (h : Begins stops rest) (hstops : stops.any isNameChar = false) :
    Apart rest := by
  intro c hc
  have hname := List.any_eq_false.mp hstops c (h c hc)
  simpa using hname

theorem Begins.separated (h : Begins stops rest) (as : List α) :
    Begins (sep :: stops) (separated sep text as ++ rest) := by
  cases as with
  | nil => exact fun c hc => List.mem_cons_of_mem _ (h c hc)
  | cons a as => exact begins_cons_iff.mpr List.mem_cons_self

end Separated

/-- The texts of values in `P` are uniquely readable in front of any rest in `Ends`. -/
def IsReadable {α : Type} (P : α → Prop) (text : α → List Char) (Ends : List Char → Prop) : Prop :=
  ∀ ⦃a b : α⦄ ⦃rest rest' : List Char⦄, P a → P b → Ends rest → Ends rest' →
    text a ++ rest = text b ++ rest' → a = b ∧ rest = rest'

namespace IsReadable

variable {α : Type} {P : α → Prop} {text : α → List Char} {Ends : List Char → Prop}
  {stops : List Char} {sep : Char}

theorem mono (h : IsReadable P text Ends) {Ends' : List Char → Prop}
    (hends : ∀ rest, Ends' rest → Ends rest) : IsReadable P text Ends' :=
  fun _ _ _ _ ha hb hrest hrest' => h ha hb (hends _ hrest) (hends _ hrest')

/-- A common prefix preserves unique readability. -/
theorem prepend (h : IsReadable P text Ends) (cs : List Char) :
    IsReadable P (fun a => cs ++ text a) Ends := by
  intro a b rest rest' ha hb hrest hrest' heq
  rw [List.append_assoc, List.append_assoc] at heq
  exact h ha hb hrest hrest' (List.append_cancel_left heq)

/-- A row of texts, each behind a separator, is uniquely readable in front of a rest that
does not begin with the separator. -/
theorem row (h : IsReadable P text (Begins (sep :: stops))) (hsep : sep ∉ stops) :
    IsReadable (fun as : List α => ∀ a ∈ as, P a) (separated sep text) (Begins stops) := by
  intro as bs rest rest' has hbs hrest hrest' heq
  induction as generalizing bs with
  | nil =>
      cases bs with
      | nil => exact ⟨rfl, heq⟩
      | cons b bs =>
          -- Otherwise the rest would begin with the separator.
          rw [separated_nil, List.nil_append] at heq
          rw [heq] at hrest
          exact absurd (begins_cons_iff.mp hrest) hsep
  | cons a as ih =>
      cases bs with
      | nil =>
          rw [separated_nil, List.nil_append] at heq
          rw [← heq] at hrest'
          exact absurd (begins_cons_iff.mp hrest') hsep
      | cons b bs =>
          rw [List.forall_mem_cons] at has hbs
          simp only [separated_cons, List.cons_append, List.append_assoc, List.cons.injEq,
            true_and] at heq
          obtain ⟨rfl, hrows⟩ := h has.1 hbs.1 (hrest.separated as) (hrest'.separated bs) heq
          obtain ⟨rfl, rfl⟩ := ih has.2 hbs.2 hrows
          exact ⟨rfl, rfl⟩

/-- The same with separators between the texts only. The row may be empty, so no text may
begin like the rest. -/
theorem joined (h : IsReadable P text (Begins (sep :: stops))) (hsep : sep ∉ stops)
    (hfirst : ∀ a, P a → ∀ rest, ¬ Begins stops (text a ++ rest)) (spaces : List Char) :
    IsReadable (fun as : List α => ∀ a ∈ as, P a)
      (fun as => (sep :: spaces).intercalate (as.map text)) (Begins stops) := by
  intro as bs rest rest' has hbs hrest hrest' heq
  cases as with
  | nil =>
      cases bs with
      | nil => exact ⟨rfl, heq⟩
      | cons b bs =>
          simp only [intercalate_map_cons, List.append_assoc] at heq
          rw [List.map_nil, List.intercalate_nil, List.nil_append] at heq
          rw [heq] at hrest
          exact absurd hrest (hfirst b (hbs b List.mem_cons_self) _)
  | cons a as =>
      cases bs with
      | nil =>
          simp only [intercalate_map_cons, List.append_assoc] at heq
          rw [List.map_nil, List.intercalate_nil, List.nil_append] at heq
          rw [← heq] at hrest'
          exact absurd hrest' (hfirst a (has a List.mem_cons_self) _)
      | cons b bs =>
          rw [List.forall_mem_cons] at has hbs
          simp only [intercalate_map_cons, List.append_assoc] at heq
          obtain ⟨rfl, hrows⟩ := h has.1 hbs.1 (hrest.separated as) (hrest'.separated bs) heq
          obtain ⟨rfl, rfl⟩ := (h.prepend spaces).row hsep has.2 hbs.2 hrest hrest' hrows
          exact ⟨rfl, rfl⟩

/-- A value is determined by its text. -/
theorem eq_of_text_eq (h : IsReadable P text Ends) (hends : Ends []) {a b : α} (ha : P a)
    (hb : P b) (heq : text a = text b) : a = b :=
  (h ha hb hends hends (by rw [heq])).1

end IsReadable

/-! ### Flat values -/

/-- A bare variable with a writable name, or a label that is any word, reserved or not. -/
def Statement.IsTerm (s : Statement) : Prop :=
  s.IsVariable ∨ ∃ label, IsWord label.toList ∧ s = ofLabel label

def RolePlayer.IsFlat : RolePlayer → Prop
  | plain player => player.IsTerm
  | tagged role player => role.IsTerm ∧ player.IsTerm

def Relation.IsFlat (r : Relation) : Prop := ∀ a ∈ r.players, a.IsFlat

def Property.IsFlat : Property → Prop
  | relation players => Relation.IsFlat ⟨players⟩
  | isa t => t.IsTerm
  | type label => IsWord label.toList

structure Statement.IsFlat (s : Statement) : Prop where
  subject : s.subject.IsWritable
  properties : ∀ p ∈ s.properties, p.IsFlat

def Pattern.IsFlat (p : Pattern) : Prop := ∀ s ∈ p.statements, s.IsFlat

/-! ### Names -/

/-- Rows of name characters are uniquely readable in front of other characters. -/
theorem isReadable_nameChars :
    IsReadable (fun cs : List Char => ∀ c ∈ cs, isNameChar c = true) id Apart := by
  intro cs ds rest rest' hcs hds hrest hrest' heq
  -- The rest is apart, so `takeWhile` recovers the name from the whole text.
  have htake (cs : List Char) (hcs : ∀ c ∈ cs, isNameChar c = true) (rest : List Char)
      (hrest : Apart rest) : (cs ++ rest).takeWhile isNameChar = cs := by
    rw [List.takeWhile_append_of_pos hcs]
    cases rest with
    | nil => simp
    | cons c rest => rw [List.takeWhile_cons_of_neg (by simp [hrest c rfl]), List.append_nil]
  have heq : cs ++ rest = ds ++ rest' := heq
  obtain rfl : cs = ds := by rw [← htake cs hcs rest hrest, heq, htake ds hds rest' hrest']
  exact ⟨rfl, List.append_cancel_left heq⟩

theorem isReadable_word : IsReadable (fun l : String => IsWord l.toList) String.toList Apart := by
  intro l l' rest rest' hl hl' hrest hrest' heq
  obtain ⟨hchars, rfl⟩ :=
    isReadable_nameChars hl.isNameChar hl'.isNameChar hrest hrest' heq
  exact ⟨String.toList_inj.mp hchars, rfl⟩

theorem Variable.IsWritable.exists_chars_eq {v : Variable} (h : v.IsWritable) :
    ∃ cs, v.chars = '$' :: cs ∧ ∀ c ∈ cs, isNameChar c = true := by
  cases v with
  | anonymous => exact ⟨anonymousName, rfl, List.all_eq_true.mp rfl⟩
  | visible name => exact ⟨name.toList, rfl, h.nameChars⟩

theorem Variable.IsWritable.eq_of_chars_eq {v w : Variable} (hv : v.IsWritable)
    (hw : w.IsWritable) (h : v.chars = w.chars) : v = w := by
  cases v with
  | anonymous =>
      cases w with
      | anonymous => rfl
      | visible name => exact absurd (List.cons.inj h).2.symm hw.ne_anonymous
  | visible name =>
      cases w with
      | anonymous => exact absurd (List.cons.inj h).2 hv.ne_anonymous
      | visible name' => rw [String.toList_inj.mp (List.cons.inj h).2]

theorem isReadable_variable : IsReadable Variable.IsWritable Variable.chars Apart := by
  intro v w rest rest' hv hw hrest hrest' heq
  obtain ⟨cs, hcs, hname⟩ := hv.exists_chars_eq
  obtain ⟨ds, hds, hname'⟩ := hw.exists_chars_eq
  rw [hcs, hds] at heq
  obtain ⟨rfl, rfl⟩ := isReadable_nameChars hname hname' hrest hrest' (List.cons.inj heq).2
  exact ⟨hv.eq_of_chars_eq hw (hcs.trans hds.symm), rfl⟩

/-! ### Roles, players and types -/

theorem IsWord.exists_eq_cons {cs : List Char} (h : IsWord cs) :
    ∃ c ds, cs = c :: ds ∧ isLabelStart c = true := by
  cases cs with
  | nil => exact h.elim
  | cons c ds => exact ⟨c, ds, rfl, h.1⟩

/-- A word does not begin with a dollar sign. -/
theorem IsWord.append_ne_dollar_cons {cs : List Char} (h : IsWord cs) (rest rest' : List Char) :
    cs ++ rest ≠ '$' :: rest' := by
  obtain ⟨c, ds, rfl, hc⟩ := h.exists_eq_cons
  intro heq
  obtain rfl : c = '$' := (List.cons.inj heq).1
  exact absurd hc (by decide)

theorem isReadable_term : IsReadable Statement.IsTerm Statement.shortChars Apart := by
  intro s t rest rest' hs ht hrest hrest' heq
  rcases hs with ⟨v, hv, rfl⟩ | ⟨label, hlabel, rfl⟩
  · obtain ⟨cs, hcs, -⟩ := hv.exists_chars_eq
    rcases ht with ⟨w, hw, rfl⟩ | ⟨label', hlabel', rfl⟩
    · rw [Statement.shortChars_bare, Statement.shortChars_bare] at heq
      obtain ⟨rfl, rfl⟩ := isReadable_variable hv hw hrest hrest' heq
      exact ⟨rfl, rfl⟩
    · rw [Statement.shortChars_bare, Statement.shortChars_ofLabel, hcs] at heq
      exact absurd heq.symm (hlabel'.append_ne_dollar_cons rest' _)
  · rcases ht with ⟨w, hw, rfl⟩ | ⟨label', hlabel', rfl⟩
    · obtain ⟨ds, hds, -⟩ := hw.exists_chars_eq
      rw [Statement.shortChars_bare, Statement.shortChars_ofLabel, hds] at heq
      exact absurd heq (hlabel.append_ne_dollar_cons rest _)
    · obtain ⟨rfl, rfl⟩ := isReadable_word hlabel hlabel' hrest hrest' heq
      exact ⟨rfl, rfl⟩

theorem Statement.IsTerm.not_begins_parenClose {s : Statement} (h : s.IsTerm)
    (rest : List Char) : ¬ Begins [')'] (s.shortChars ++ rest) := by
  intro hbegins
  rcases h with ⟨v, hv, rfl⟩ | ⟨label, hlabel, rfl⟩
  · obtain ⟨cs, hcs, -⟩ := hv.exists_chars_eq
    rw [shortChars_bare, hcs] at hbegins
    exact absurd (begins_cons_iff.mp hbegins) (by decide)
  · obtain ⟨c, cs, hcs, hc⟩ := hlabel.exists_eq_cons
    rw [shortChars_ofLabel, hcs] at hbegins
    obtain rfl : c = ')' := List.mem_singleton.mp (begins_cons_iff.mp hbegins)
    exact absurd hc (by decide)

/-! ### Relations -/

/-- Role players are uniquely readable in front of a comma or a closing parenthesis. -/
theorem isReadable_rolePlayer :
    IsReadable RolePlayer.IsFlat RolePlayer.chars (Begins [',', ')']) := by
  have hcolon (rest : List Char) : Apart (':' :: rest) := .cons rfl rest
  have hends {rest : List Char} (h : Begins [',', ')'] rest) (rest' : List Char) :
      rest ≠ ':' :: rest' := by
    rintro rfl
    exact absurd (begins_cons_iff.mp h) (by decide)
  intro a b rest rest' ha hb hrest hrest' heq
  -- The first term of both texts is read alike, and a colon behind it tells that it is a role.
  have hapart := hrest.apart (by decide)
  have hapart' := hrest'.apart (by decide)
  cases a with
  | plain player =>
      cases b with
      | plain player' =>
          obtain ⟨rfl, rfl⟩ := isReadable_term ha hb hapart hapart' heq
          exact ⟨rfl, rfl⟩
      | tagged role' player' =>
          simp only [RolePlayer.chars, List.append_assoc] at heq
          obtain ⟨-, hrole⟩ := isReadable_term ha hb.1 hapart (hcolon _) heq
          exact absurd hrole (hends hrest _)
  | tagged role player =>
      cases b with
      | plain player' =>
          simp only [RolePlayer.chars, List.append_assoc] at heq
          obtain ⟨-, hrole⟩ := isReadable_term ha.1 hb (hcolon _) hapart' heq
          exact absurd hrole.symm (hends hrest' _)
      | tagged role' player' =>
          simp only [RolePlayer.chars, List.append_assoc] at heq
          obtain ⟨rfl, hrole⟩ := isReadable_term ha.1 hb.1 (hcolon _) (hcolon _) heq
          have hplayer := (List.cons.inj (List.cons.inj hrole).2).2
          obtain ⟨rfl, rfl⟩ := isReadable_term ha.2 hb.2 hapart hapart' hplayer
          exact ⟨rfl, rfl⟩

theorem RolePlayer.IsFlat.not_begins_parenClose {a : RolePlayer} (h : a.IsFlat)
    (rest : List Char) : ¬ Begins [')'] (a.chars ++ rest) := by
  cases a with
  | plain player => exact Statement.IsTerm.not_begins_parenClose h rest
  | tagged role player =>
      rw [chars, List.append_assoc, List.append_assoc]
      exact h.1.not_begins_parenClose _

/-- Relations are uniquely readable in front of anything, since the parenthesis closes them.
-/
theorem isReadable_relation : IsReadable Relation.IsFlat Relation.chars fun _ => True := by
  intro r r' rest rest' hr hr' _ _ heq
  have hchars (r : Relation) (rest : List Char) :
      r.chars ++ rest =
        '(' :: (Mark.commaSpace.chars.intercalate (r.players.map RolePlayer.chars) ++
          ')' :: rest) := by
    rw [Relation.chars, Relation.toProperty, Property.chars, RolePlayer.charsList_eq_map]
    simp [Mark.chars]
  have hclose (rest : List Char) : Begins [')'] (')' :: rest) :=
    begins_cons_iff.mpr (List.mem_singleton_self _)
  have hplayers := isReadable_rolePlayer.joined (by decide)
    (fun a ha rest => ha.not_begins_parenClose rest) [' ']
  rw [hchars, hchars] at heq
  obtain ⟨hsame, hrest⟩ :=
    hplayers hr hr' (hclose rest) (hclose rest') (List.cons.inj heq).2
  obtain ⟨players⟩ := r
  obtain rfl : players = r'.players := hsame
  exact ⟨rfl, (List.cons.inj hrest).2⟩

/-! ### Properties and statements -/

/-- A property does not begin with a dollar sign. -/
theorem Property.chars_append_ne {v : Variable} (hv : v.IsWritable) (p : Property)
    (rest rest' : List Char) : p.chars ++ rest ≠ v.chars ++ rest' := by
  obtain ⟨name, hname, -⟩ := hv.exists_chars_eq
  rw [hname]
  intro heq
  cases p with
  | relation | isa | type => exact absurd (List.cons.inj heq).1 (by decide)

theorem isReadable_property : IsReadable Property.IsFlat Property.chars (Begins [' ', ';']) := by
  intro p q rest rest' hp hq hrest hrest' heq
  have hapart := hrest.apart (by decide)
  have hapart' := hrest'.apart (by decide)
  cases p with
  | relation as =>
      cases q with
      | relation bs =>
          obtain ⟨hsame, rfl⟩ :=
            isReadable_relation (a := ⟨as⟩) (b := ⟨bs⟩) hp hq trivial trivial heq
          rw [Relation.mk.inj hsame]
          exact ⟨rfl, rfl⟩
      | isa | type => exact absurd (List.cons.inj heq).1 (by decide)
  | isa t =>
      cases q with
      | isa t' =>
          obtain ⟨rfl, rfl⟩ := isReadable_term.prepend _ hp hq hapart hapart' heq
          exact ⟨rfl, rfl⟩
      | relation | type => exact absurd (List.cons.inj heq).1 (by decide)
  | type label =>
      cases q with
      | type label' =>
          obtain ⟨rfl, rfl⟩ := isReadable_word.prepend _ hp hq hapart hapart' heq
          exact ⟨rfl, rfl⟩
      | relation | isa => exact absurd (List.cons.inj heq).1 (by decide)

theorem isReadable_properties :
    IsReadable (fun ps : List Property => ∀ p ∈ ps, p.IsFlat) (separated ' ' Property.chars)
      (Begins [';']) :=
  isReadable_property.row (by decide)

/-- Either the subject is printed in front of the properties, or it is anonymous and there
are properties. -/
theorem Statement.chars_cases (s : Statement) :
    s.chars = s.subject.chars ++ separated ' ' Property.chars s.properties ∨
      ∃ p ps, s = ⟨.anonymous, p :: ps⟩ ∧
        s.chars = p.chars ++ separated ' ' Property.chars ps := by
  have hspaced (ps : List Property) :
      spaced (ps.map Property.chars) = separated ' ' Property.chars ps := List.flatMap_map ..
  obtain ⟨_ | name, _ | ⟨p, ps⟩⟩ := s
  case anonymous.cons =>
    refine .inr ⟨p, ps, rfl, ?_⟩
    rw [← hspaced]
    rfl
  all_goals
    refine .inl ?_
    rw [← hspaced]
    rfl

/-- Statements are uniquely readable in front of a semicolon. -/
theorem isReadable_statement : IsReadable Statement.IsFlat Statement.chars (Begins [';']) := by
  have hspace {rest : List Char} (h : Begins [';'] rest) (ps : List Property) :
      Begins [' ', ';'] (separated ' ' Property.chars ps ++ rest) := h.separated ps
  intro s t rest rest' hs ht hrest hrest' heq
  rcases s.chars_cases with hschars | ⟨p, ps, rfl, hschars⟩
  · rcases t.chars_cases with htchars | ⟨q, qs, rfl, htchars⟩
    · rw [hschars, htchars, List.append_assoc, List.append_assoc] at heq
      obtain ⟨hsubject, hprops⟩ := isReadable_variable hs.subject ht.subject
        ((hspace hrest _).apart (by decide)) ((hspace hrest' _).apart (by decide)) heq
      obtain ⟨hproperties, rfl⟩ :=
        isReadable_properties hs.properties ht.properties hrest hrest' hprops
      obtain ⟨v, ps⟩ := s
      obtain ⟨w, qs⟩ := t
      obtain rfl : v = w := hsubject
      obtain rfl : ps = qs := hproperties
      exact ⟨rfl, rfl⟩
    · rw [hschars, htchars, List.append_assoc, List.append_assoc] at heq
      exact absurd heq.symm (q.chars_append_ne hs.subject _ _)
  · rcases t.chars_cases with htchars | ⟨q, qs, rfl, htchars⟩
    · rw [hschars, htchars, List.append_assoc, List.append_assoc] at heq
      exact absurd heq (p.chars_append_ne ht.subject _ _)
    · have hps := List.forall_mem_cons.mp hs.properties
      have hqs := List.forall_mem_cons.mp ht.properties
      rw [hschars, htchars, List.append_assoc, List.append_assoc] at heq
      obtain ⟨rfl, hprops⟩ :=
        isReadable_property hps.1 hqs.1 (hspace hrest _) (hspace hrest' _) heq
      obtain ⟨rfl, rfl⟩ := isReadable_properties hps.2 hqs.2 hrest hrest' hprops
      exact ⟨rfl, rfl⟩

/-! ### Patterns -/

/-- Closed statements are uniquely readable in front of anything. -/
theorem isReadable_closed :
    IsReadable Statement.IsFlat (fun s => s.chars ++ Mark.semicolon.chars) fun _ => True := by
  intro s t rest rest' hs ht _ _ heq
  have hsemicolon (rest : List Char) : Begins [';'] (Mark.semicolon.chars ++ rest) :=
    begins_cons_iff.mpr (List.mem_singleton_self _)
  rw [List.append_assoc, List.append_assoc] at heq
  obtain ⟨rfl, hrest⟩ := isReadable_statement hs ht (hsemicolon rest) (hsemicolon rest') heq
  exact ⟨rfl, List.append_cancel_left hrest⟩

/-- Patterns are uniquely readable at the end of a text, since closed statements are not
empty. -/
theorem isReadable_pattern : IsReadable Pattern.IsFlat Pattern.chars (Begins []) := by
  have hspace : ' ' ∉ ([] : List Char) := List.not_mem_nil
  have hfirst (s : Statement) (_ : s.IsFlat) (rest : List Char) :
      ¬ Begins [] (s.chars ++ Mark.semicolon.chars ++ rest) := by
    obtain ⟨c, cs, hcs⟩ : ∃ c cs, s.chars ++ Mark.semicolon.chars ++ rest = c :: cs :=
      List.exists_cons_of_ne_nil (by simp [Mark.chars])
    rw [hcs, begins_cons_iff]
    exact List.not_mem_nil
  have hstatements := (isReadable_closed.mono fun _ _ => trivial).joined hspace hfirst []
  intro p q rest rest' hp hq hrest hrest' heq
  obtain ⟨hsame, rfl⟩ := hstatements hp hq hrest hrest' heq
  obtain ⟨ss⟩ := p
  obtain rfl : ss = q.statements := hsame
  exact ⟨rfl, rfl⟩

/-! ### Texts as keys -/

/-- Two flat relations, two flat statements and two flat patterns are equal if and only if their
texts are. -/
theorem flat_eq_iff_text_eq :
    (∀ r r' : Relation, r.IsFlat → r'.IsFlat → (r = r' ↔ r.text = r'.text)) ∧
      (∀ s s' : Statement, s.IsFlat → s'.IsFlat → (s = s' ↔ s.text = s'.text)) ∧
        ∀ p p' : Pattern, p.IsFlat → p'.IsFlat → (p = p' ↔ p.text = p'.text) := by
  refine ⟨fun r r' hr hr' => ⟨congrArg _, fun htext => ?_⟩,
    fun s s' hs hs' => ⟨congrArg _, fun htext => ?_⟩,
    fun p p' hp hp' => ⟨congrArg _, fun htext => ?_⟩⟩
  · exact isReadable_relation.eq_of_text_eq trivial hr hr' (String.ofList_injective htext)
  · exact isReadable_statement.eq_of_text_eq (begins_nil _) hs hs'
      (String.ofList_injective htext)
  · exact isReadable_pattern.eq_of_text_eq (begins_nil _) hp hp' (String.ofList_injective htext)

/-- The empty relation and the relation of an anonymous player have different texts, and so
have the empty pattern and the pattern of an anonymous variable. A label and a type `isa` in
either order do as well. -/
theorem flat_eq_iff_text_eq_reserved :
    Relation.text ⟨[]⟩ ≠ Relation.text ⟨[.plain (.bare .anonymous)]⟩ ∧
      Statement.text ⟨.anonymous, [.isa (.ofLabel "isa"), .type "isa"]⟩ ≠
        Statement.text ⟨.anonymous, [.type "isa", .isa (.ofLabel "isa")]⟩ ∧
      Pattern.text ⟨[]⟩ ≠ Pattern.text ⟨[.bare .anonymous]⟩ := by
  obtain ⟨hrelation, hstatement, hpattern⟩ := flat_eq_iff_text_eq
  have hword : IsWord "isa".toList := by decide
  have hisa : (Property.isa (.ofLabel "isa")).IsFlat := .inr ⟨"isa", hword, rfl⟩
  have htype : (Property.type "isa").IsFlat := hword
  have hplayer : (RolePlayer.plain (.bare .anonymous)).IsFlat := .inl ⟨.anonymous, trivial, rfl⟩
  have hbare : (Statement.bare .anonymous).IsFlat := ⟨trivial, nofun⟩
  refine ⟨(hrelation _ _ ?_ ?_).not.mp ?_, (hstatement _ _ ?_ ?_).not.mp ?_,
    (hpattern _ _ ?_ ?_).not.mp ?_⟩
  · exact List.forall_mem_nil _
  · exact List.forall_mem_singleton.mpr hplayer
  · exact fun h => List.cons_ne_nil _ _ (Relation.mk.inj h).symm
  · exact ⟨trivial, List.forall_mem_cons.mpr ⟨hisa, List.forall_mem_singleton.mpr htype⟩⟩
  · exact ⟨trivial, List.forall_mem_cons.mpr ⟨htype, List.forall_mem_singleton.mpr hisa⟩⟩
  · decide +kernel
  · exact List.forall_mem_nil _
  · exact List.forall_mem_singleton.mpr hbare
  · exact fun h => List.cons_ne_nil _ _ (Pattern.mk.inj h).symm

end GraphPattern
