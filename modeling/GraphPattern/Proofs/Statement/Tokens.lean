import GraphPattern.Pattern
import GraphPattern.Proofs.Statement.Nesting
import GraphPattern.Proofs.Token.Scan

/-!
The tokens of statements, for any nesting, by the recursion that prints them. The text of a
statement lexes to these tokens if the names and labels in it are writable.

The induction over statements is done once, for every relation between texts and tokens that
is closed under the concatenations of printing. That a text lexes to the tokens is one
instance. That it consists of the characters of the tokens and spaces is another.

The tokens of a statement need not parse, because statements nest and the grammar does not.
-/

namespace GraphPattern

/-- The tokens of the full form, from the subject and the rows of its properties. -/
def fullTokens (subject : Variable) (rows : List (List Token)) : List Token :=
  match subject, rows with
  | .anonymous, _ :: _ => rows.flatten
  | v, _ => .var v :: rows.flatten

/-- The tokens of the short form, from the subject, its properties and their rows. -/
def shortTokens (subject : Variable) (properties : List Property) (rows : List (List Token)) :
    List Token :=
  match subject, properties with
  | .anonymous, [.type label] => [.label label]
  | v, _ => fullTokens v rows

mutual

/-- The tokens of the short form of a statement. -/
def Statement.shortTokens : Statement → List Token
  | ⟨v, ps⟩ => GraphPattern.shortTokens v ps (Property.tokensList ps)

def Property.tokens : Property → List Token
  | .relation players =>
    .parenOpen :: [Token.comma].intercalate (RolePlayer.tokensList players) ++ [.parenClose]
  | .isa type => .isaWord :: type.shortTokens
  | .type label => [.typeWord, .label label]

def RolePlayer.tokens : RolePlayer → List Token
  | .plain player => player.shortTokens
  | .tagged role player => role.shortTokens ++ .colon :: player.shortTokens

def Property.tokensList : List Property → List (List Token)
  | [] => []
  | p :: ps => p.tokens :: Property.tokensList ps

def RolePlayer.tokensList : List RolePlayer → List (List Token)
  | [] => []
  | a :: as => a.tokens :: RolePlayer.tokensList as

end

theorem Property.tokensList_eq_map (ps : List Property) :
    Property.tokensList ps = ps.map Property.tokens := by
  induction ps with
  | nil => rfl
  | cons p ps ih => rw [Property.tokensList, List.map_cons, ih]

theorem RolePlayer.tokensList_eq_map (as : List RolePlayer) :
    RolePlayer.tokensList as = as.map RolePlayer.tokens := by
  induction as with
  | nil => rfl
  | cons a as ih => rw [RolePlayer.tokensList, List.map_cons, ih]

theorem Property.tokens_relation (as : List RolePlayer) :
    (Property.relation as).tokens =
      .parenOpen :: [Token.comma].intercalate (as.map RolePlayer.tokens) ++ [.parenClose] := by
  rw [Property.tokens, RolePlayer.tokensList_eq_map]

/-- The tokens of a statement in full. -/
def Statement.tokens (s : Statement) : List Token :=
  fullTokens s.subject (s.properties.map Property.tokens)

theorem Statement.shortTokens_eq (s : Statement) :
    s.shortTokens =
      GraphPattern.shortTokens s.subject s.properties (s.properties.map Property.tokens) := by
  obtain ⟨v, ps⟩ := s
  rw [Statement.shortTokens, Property.tokensList_eq_map]

@[simp] theorem Statement.shortTokens_bare (v : Variable) : (bare v).shortTokens = [.var v] := by
  cases v <;> rfl

@[simp] theorem Statement.shortTokens_ofLabel (label : String) :
    (ofLabel label).shortTokens = [.label label] := rfl

def Relation.tokens (r : Relation) : List Token := r.toProperty.tokens

/-- The tokens of a pattern in full: each statement closed by a semicolon. -/
def Pattern.tokens (p : Pattern) : List Token :=
  p.statements.flatMap fun s => s.tokens ++ [.semicolon]

/-! ### Members of rows

A property of all tokens of a row is inherited by the rows that it is made of. -/

theorem isInfix_intercalate {α : Type} {sep row : List α} {rows : List (List α)}
    (h : row ∈ rows) : row <:+: sep.intercalate rows := by
  induction rows with
  | nil => cases h
  | cons r rows ih =>
      cases rows with
      | nil =>
          obtain rfl := List.mem_singleton.mp h
          have hjoined : sep.intercalate [row] = row := List.intercalate_singleton
          exact hjoined.symm ▸ List.infix_rfl
      | cons r' rows =>
          rw [List.intercalate_cons_cons]
          rcases List.mem_cons.mp h with rfl | h
          · rw [List.append_assoc]
            exact (List.prefix_append _ _).isInfix
          · exact (ih h).trans (List.suffix_append _ _).isInfix

theorem mem_intercalate_of_mem {α : Type} {sep row : List α} {rows : List (List α)}
    (hrow : row ∈ rows) {t : α} (ht : t ∈ row) : t ∈ sep.intercalate rows :=
  (isInfix_intercalate hrow).subset ht

theorem mem_intercalate {α : Type} {sep : List α} {rows : List (List α)} {t : α}
    (h : t ∈ sep.intercalate rows) : t ∈ sep ∨ ∃ row ∈ rows, t ∈ row := by
  induction rows with
  | nil => cases h
  | cons row rows ih =>
      cases rows with
      | nil =>
          rw [List.intercalate_singleton] at h
          exact .inr ⟨row, List.mem_singleton_self row, h⟩
      | cons row' rows =>
          rw [List.intercalate_cons_cons, List.mem_append, List.mem_append] at h
          rcases h with (h | h) | h
          · exact .inr ⟨row, List.mem_cons_self, h⟩
          · exact .inl h
          · exact (ih h).imp_right fun ⟨r, hr, ht⟩ => ⟨r, List.mem_cons_of_mem _ hr, ht⟩

/-- A predicate on the separator and on the elements of the rows holds of all elements of
the joined rows. -/
theorem forall_mem_joined {α β : Type} {P : α → Prop} {sep : α} {row : β → List α} {bs : List β}
    (hsep : P sep) (h : ∀ b ∈ bs, ∀ a ∈ row b, P a) :
    ∀ a ∈ [sep].intercalate (bs.map row), P a := by
  intro a ha
  rcases mem_intercalate ha with ha | ⟨_, hrow, ha⟩
  · rwa [List.mem_singleton.mp ha]
  · obtain ⟨b, hb, rfl⟩ := List.mem_map.mp hrow
    exact h b hb a ha

theorem RolePlayer.shortTokens_isInfix {a : RolePlayer} {c : Statement} (h : c ∈ a.statements) :
    c.shortTokens <:+: a.tokens := by
  cases a with
  | plain player =>
      obtain rfl := List.mem_singleton.mp h
      exact List.infix_rfl
  | tagged role player =>
      simp only [RolePlayer.statements, List.mem_cons, List.not_mem_nil, or_false] at h
      rcases h with rfl | rfl
      · exact (List.infix_cons List.infix_rfl).trans (List.suffix_append _ _).isInfix
      · exact (List.prefix_append _ _).isInfix

theorem Property.shortTokens_isInfix {p : Property} {c : Statement} (h : c ∈ p.statements) :
    c.shortTokens <:+: p.tokens := by
  cases p with
  | relation players =>
      obtain ⟨a, ha, hc⟩ := List.mem_flatMap.mp h
      have hplayers : a.tokens <:+: [Token.comma].intercalate (players.map RolePlayer.tokens) :=
        isInfix_intercalate (List.mem_map_of_mem ha)
      rw [Property.tokens_relation, List.cons_append]
      refine List.infix_cons (List.IsInfix.trans ?_ (List.prefix_append _ _).isInfix)
      exact (RolePlayer.shortTokens_isInfix hc).trans hplayers
  | isa type =>
      obtain rfl := List.mem_singleton.mp h
      exact List.infix_cons List.infix_rfl
  | type label => cases h

theorem isWritable_fullTokens_iff {v : Variable} {rows : List (List Token)} :
    (∀ t ∈ fullTokens v rows, t.IsWritable) ↔
      v.IsWritable ∧ ∀ row ∈ rows, ∀ t ∈ row, t.IsWritable := by
  have hflatten : (∀ t ∈ rows.flatten, t.IsWritable) ↔
      ∀ row ∈ rows, ∀ t ∈ row, t.IsWritable := by
    simp only [List.mem_flatten, forall_exists_index, and_imp]
    exact ⟨fun h row hrow t ht => h t row hrow ht, fun h t row hrow ht => h row hrow t ht⟩
  rw [← hflatten]
  cases v with
  | visible name => exact List.forall_mem_cons
  | anonymous =>
      cases rows with
      | nil => simp [fullTokens, Token.IsWritable]
      | cons row rows => exact (and_iff_right trivial).symm

/-! ### Concatenating texts

Printed texts are concatenations of names, marks and spaces, in which no text that continues
a name follows one. So a relation between texts and tokens that holds of names and marks and
is closed under such concatenations relates every printed text to its tokens. -/

/-- A relation between texts and rows of tokens that is closed under the concatenations of
printing. -/
structure Renders (R : List Char → List Token → Prop) : Prop where
  nil : R [] []
  token : ∀ {t : Token}, t.IsWritable → R t.chars [t]
  mark : ∀ {c : Char} {t : Token} {cs : List Char} {ts : List Token},
    Token.ofMark? c = some t → R cs ts → R (c :: cs) (t :: ts)
  space : ∀ {cs : List Char} {ts : List Token}, R cs ts → R (' ' :: cs) ts
  append : ∀ {cs ds : List Char} {ts us : List Token},
    R cs ts → R ds us → Apart ds → R (cs ++ ds) (ts ++ us)

theorem apart_spaced (texts : List (List Char)) : Apart (spaced texts) := by
  cases texts with
  | nil => exact .nil
  | cons text texts => exact .cons rfl _

namespace Renders

variable {R : List Char → List Token → Prop}

section Rows

variable {α : Type} {f : α → List Char} {g : α → List Token} {as : List α}

/-- Joining with a separator preserves the relation, if putting the separator in front of a
text does. -/
theorem intercalate (hR : Renders R) {sep : List Char} {us : List Token}
    (hsep : ∀ {cs ts}, R cs ts → R (sep ++ cs) (us ++ ts)) (hapart : ∀ cs, Apart (sep ++ cs))
    (h : ∀ a ∈ as, R (f a) (g a)) : R (sep.intercalate (as.map f)) (us.intercalate (as.map g)) := by
  induction as with
  | nil => exact hR.nil
  | cons a as ih =>
      rw [List.forall_mem_cons] at h
      cases as with
      | nil => simpa using h.1
      | cons b as =>
          have hjoined := hR.append h.1 (hsep (ih h.2)) (hapart _)
          simpa only [List.map_cons, List.intercalate_cons_cons, List.append_assoc] using hjoined

theorem spaced (hR : Renders R) (h : ∀ a ∈ as, R (f a) (g a)) :
    R (spaced (as.map f)) (as.map g).flatten := by
  induction as with
  | nil => exact hR.nil
  | cons a as ih =>
      rw [List.forall_mem_cons] at h
      exact hR.space (hR.append h.1 (ih h.2) (apart_spaced _))

theorem fullForm (hR : Renders R) {v : Variable} (hv : v.IsWritable)
    (h : ∀ a ∈ as, R (f a) (g a)) : R (fullForm v (as.map f)) (fullTokens v (as.map g)) := by
  have hv : R v.chars [.var v] := hR.token (t := .var v) hv
  have hsubject : R (v.chars ++ GraphPattern.spaced (as.map f)) (.var v :: (as.map g).flatten) :=
    hR.append hv (hR.spaced h) (apart_spaced _)
  cases v with
  | visible name => exact hsubject
  | anonymous =>
      cases as with
      | nil => exact hsubject
      | cons a as =>
          rw [List.forall_mem_cons] at h
          exact hR.append h.1 (hR.spaced h.2) (apart_spaced _)

end Rows

theorem rolePlayer (hR : Renders R) {a : RolePlayer}
    (h : ∀ c ∈ a.statements, R c.shortChars c.shortTokens) : R a.chars a.tokens := by
  cases a with
  | plain player => exact h player (List.mem_singleton_self _)
  | tagged role player =>
      have hrole := h role (by simp [RolePlayer.statements])
      have hplayer := h player (by simp [RolePlayer.statements])
      have hcolon : R (':' :: ' ' :: player.shortChars) (.colon :: player.shortTokens) :=
        hR.mark rfl (hR.space hplayer)
      simpa [RolePlayer.chars, RolePlayer.tokens, Mark.chars] using
        hR.append hrole hcolon (.cons rfl _)

theorem property (hR : Renders R) {p : Property}
    (h : ∀ c ∈ p.statements, R c.shortChars c.shortTokens)
    (hwritable : ∀ t ∈ p.tokens, t.IsWritable) : R p.chars p.tokens := by
  cases p with
  | relation players =>
      have hplayers : ∀ a ∈ players, R a.chars a.tokens := by
        intro a ha
        exact hR.rolePlayer fun c hc => h c (List.mem_flatMap_of_mem ha hc)
      have hjoined : R (Mark.commaSpace.chars.intercalate (players.map RolePlayer.chars))
          ([Token.comma].intercalate (players.map RolePlayer.tokens)) :=
        hR.intercalate (fun hcs => hR.mark rfl (hR.space hcs)) (fun _ => .cons rfl _) hplayers
      have hclose : R [')'] [.parenClose] := hR.mark rfl hR.nil
      have hclosed := hR.append hjoined hclose (.cons rfl _)
      rw [Property.tokens_relation, Property.chars, RolePlayer.charsList_eq_map]
      exact hR.mark rfl hclosed
  | isa type =>
      have htype := h type (List.mem_singleton_self _)
      have hword : R Keyword.isa.chars [.isaWord] := hR.token (t := .isaWord) trivial
      simpa [Property.chars, Property.tokens, Mark.chars] using
        hR.append hword (hR.space htype) (.cons rfl _)
  | type label =>
      have hlabel : R label.toList [.label label] :=
        hR.token (t := .label label) (hwritable _ (by simp [Property.tokens]))
      have hword : R Keyword.type.chars [.typeWord] := hR.token (t := .typeWord) trivial
      simpa [Property.chars, Property.tokens, Mark.chars] using
        hR.append hword (hR.space hlabel) (.cons rfl _)

end Renders

/-- The short form is that of a label, or it is the full form. -/
theorem Statement.shortForm_cases (v : Variable) (ps : List Property) :
    (∃ label, v = .anonymous ∧ ps = [.type label]) ∨
      (∀ texts, shortForm v ps texts = fullForm v texts) ∧
        ∀ rows, GraphPattern.shortTokens v ps rows = fullTokens v rows := by
  cases v with
  | visible name => exact .inr ⟨fun _ => rfl, fun _ => rfl⟩
  | anonymous =>
      rcases ps with _ | ⟨_ | _ | label, _ | _⟩
      case cons.type.nil => exact .inl ⟨label, rfl, rfl⟩
      all_goals exact .inr ⟨fun _ => rfl, fun _ => rfl⟩

namespace Renders

variable {R : List Char → List Token → Prop}

theorem shortForm (hR : Renders R) {s : Statement} (h : ∀ t ∈ s.shortTokens, t.IsWritable) :
    R s.shortChars s.shortTokens := by
  induction s using Statement.child_induction with
  | step s ih =>
      rcases Statement.shortForm_cases s.subject s.properties with
        ⟨label, hv, hps⟩ | ⟨hchars, htokens⟩
      -- The short form is the label without its keyword, so it is no property.
      · obtain rfl : s = .ofLabel label := by
          obtain ⟨v, ps⟩ := s
          cases hv
          cases hps
          rfl
        exact hR.token (h (.label label) (List.mem_singleton_self _))
      · rw [Statement.shortTokens_eq, htokens] at h ⊢
        rw [Statement.shortChars_eq, hchars]
        obtain ⟨hv, hrows⟩ := isWritable_fullTokens_iff.mp h
        refine hR.fullForm hv fun p hp => ?_
        have hp' := hrows p.tokens (List.mem_map_of_mem hp)
        refine hR.property (fun c hc => ?_) hp'
        refine ih c (List.mem_flatMap_of_mem hp hc) fun t ht => ?_
        exact hp' t ((Property.shortTokens_isInfix hc).subset ht)

theorem property_of_isWritable (hR : Renders R) {p : Property} (h : ∀ t ∈ p.tokens, t.IsWritable) :
    R p.chars p.tokens := by
  refine hR.property (fun c hc => hR.shortForm fun t ht => ?_) h
  exact h t ((Property.shortTokens_isInfix hc).subset ht)

/-- The relation holds between the text and the tokens of every statement, at any depth of
nesting. -/
theorem statement (hR : Renders R) {s : Statement} (h : ∀ t ∈ s.tokens, t.IsWritable) :
    R s.chars s.tokens := by
  obtain ⟨hv, hrows⟩ := isWritable_fullTokens_iff.mp h
  refine hR.fullForm hv fun p hp => ?_
  exact hR.property_of_isWritable (hrows p.tokens (List.mem_map_of_mem hp))

theorem pattern (hR : Renders R) {p : Pattern} (h : ∀ t ∈ p.tokens, t.IsWritable) :
    R p.chars p.tokens := by
  have hstatements : ∀ s ∈ p.statements,
      R (s.chars ++ Mark.semicolon.chars) (s.tokens ++ [.semicolon]) := by
    intro s hs
    have hclose : R Mark.semicolon.chars [.semicolon] := hR.mark rfl hR.nil
    refine hR.append (hR.statement fun t ht => h t ?_) hclose (.cons rfl _)
    exact List.mem_flatMap.mpr ⟨s, hs, List.mem_append_left _ ht⟩
  -- Statements are separated by a space, which is no token.
  have hjoined : R p.chars
      (([] : List Token).intercalate (p.statements.map fun s => s.tokens ++ [.semicolon])) :=
    hR.intercalate (fun hcs => hR.space hcs) (fun _ => .cons rfl _) hstatements
  have hflat : ∀ rows : List (List Token), ([] : List Token).intercalate rows = rows.flatten := by
    intro rows
    induction rows with
    | nil => rfl
    | cons row rows ih =>
        cases rows with
        | nil => simp
        | cons row' rows => rw [List.intercalate_cons_cons, ih]; simp
  rwa [hflat, ← List.flatMap_def] at hjoined

end Renders

/-! ### Lexing printed values -/

theorem Reads.renders : Renders Reads where
  nil := .nil
  token := .token
  mark := .mark
  space := .blank rfl
  append := .append

theorem Statement.reads_chars {s : Statement} (h : ∀ t ∈ s.tokens, t.IsWritable) :
    Reads s.chars s.tokens :=
  Reads.renders.statement h

theorem Relation.reads_chars {r : Relation} (h : ∀ t ∈ r.tokens, t.IsWritable) :
    Reads r.chars r.tokens :=
  Reads.renders.property_of_isWritable h

theorem Pattern.reads_chars {p : Pattern} (h : ∀ t ∈ p.tokens, t.IsWritable) :
    Reads p.chars p.tokens :=
  Reads.renders.pattern h

/-! ### Characters of printed values

Tokens are separated by spaces only, so a printed text contains no line feed. -/

/-- Every character is a space or stands in one of the tokens. -/
def Spells (cs : List Char) (ts : List Token) : Prop :=
  ∀ c ∈ cs, c = ' ' ∨ ∃ t ∈ ts, c ∈ t.chars

theorem Spells.renders : Renders Spells where
  nil := nofun
  token := fun {t} _ c hc => .inr ⟨t, List.mem_singleton_self t, hc⟩
  mark := by
    intro c t cs ts ht hcs
    refine List.forall_mem_cons.mpr ⟨.inr ⟨t, List.mem_cons_self, ?_⟩, fun d hd => ?_⟩
    · rw [Token.chars_of_ofMark? ht]
      exact List.mem_singleton_self c
    · exact (hcs d hd).imp_right fun ⟨u, hu, hdu⟩ => ⟨u, List.mem_cons_of_mem t hu, hdu⟩
  space := fun hcs => List.forall_mem_cons.mpr ⟨.inl rfl, hcs⟩
  append := by
    intro cs ds ts us hcs hds _ c hc
    rcases List.mem_append.mp hc with hc | hc
    · exact (hcs c hc).imp_right fun ⟨t, ht, hct⟩ => ⟨t, List.mem_append_left us ht, hct⟩
    · exact (hds c hc).imp_right fun ⟨t, ht, hct⟩ => ⟨t, List.mem_append_right ts ht, hct⟩

theorem Spells.newline_notMem {cs : List Char} {ts : List Token} (h : Spells cs ts)
    (hts : ∀ t ∈ ts, t.IsWritable) : '\n' ∉ cs := by
  intro hmem
  rcases h '\n' hmem with hspace | ⟨t, ht, hmem⟩
  · exact absurd hspace (by decide)
  · exact Token.newline_notMem_chars (hts t ht) hmem

end GraphPattern
