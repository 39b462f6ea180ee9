import GraphPattern.Token.Located

/-!
Lexing in pieces. The tokens of a source are those of its lexemes, and lexemes are longest
matches, so a piece of a source lexes on its own only if the rest does not continue its last
lexeme. Only names can be continued. So it suffices that the rest is *apart*, which means
that it does not begin with a name character.

The first part of this file is about single lexemes with their spans. The second drops the
spans and relates characters to tokens in any context; texts are then lexed along the
concatenations they are made of.
-/

namespace GraphPattern

/-! ### Characters -/

theorem isBlank_iff {c : Char} :
    isBlank c = true ↔ c = ' ' ∨ c = '\t' ∨ c = '\r' ∨ c = '\n' ∨ c = '\x0c' := by
  simp [isBlank, or_assoc]

theorem isLabelStart_of_isBlank {c : Char} (h : isBlank c = true) : isLabelStart c = false := by
  rcases isBlank_iff.mp h with rfl | rfl | rfl | rfl | rfl
  all_goals decide

theorem Token.mem_of_ofMark? {c : Char} {t : Token} (h : Token.ofMark? c = some t) :
    c = '(' ∨ c = ')' ∨ c = ',' ∨ c = ':' ∨ c = ';' := by
  unfold ofMark? at h
  repeat' split at h
  all_goals simp_all [Mark.chars]

namespace Lexeme

theorem continues_of_isLabelStart {c : Char} (h : isLabelStart c = true) :
    continues c = isNameChar := by
  have hsign : c ≠ commentSign := by
    rintro rfl
    exact absurd h (by decide)
  rw [continues, if_neg hsign, if_pos (by rw [opensName, h, Bool.or_true])]

theorem continues_dollar : continues '$' = isNameChar := rfl

/-- Nothing continues a blank or a mark. -/
theorem continues_of_isBlank {c : Char} (h : isBlank c = true) : continues c = fun _ => false := by
  rcases isBlank_iff.mp h with rfl | rfl | rfl | rfl | rfl
  all_goals rfl

theorem continues_of_ofMark? {c : Char} {t : Token} (h : Token.ofMark? c = some t) :
    continues c = fun _ => false := by
  rcases Token.mem_of_ofMark? h with rfl | rfl | rfl | rfl | rfl
  all_goals rfl

/-- The condition on the rest under which the lexeme is the longest match. -/
structure Fits (l : Lexeme) (rest : List Char) : Prop where
  tail : ∀ x ∈ l.tail, continues l.first x = true
  rest : ∀ x ∈ rest.head?, continues l.first x = false

theorem Fits.lexemes_append {l : Lexeme} {rest : List Char} (h : l.Fits rest) :
    lexemes (l.chars ++ rest) = l :: lexemes rest := by
  have htake : rest.takeWhile (continues l.first) = [] := by
    cases rest with
    | nil => rfl
    | cons x rest => rw [List.takeWhile_cons, h.rest x rfl, if_neg Bool.false_ne_true]
  have hdrop : rest.dropWhile (continues l.first) = rest := by
    cases rest with
    | nil => rfl
    | cons x rest => rw [List.dropWhile_cons, h.rest x rfl, if_neg Bool.false_ne_true]
  rw [chars, List.cons_append, lexemes_cons, List.takeWhile_append_of_pos h.tail,
    List.dropWhile_append_of_pos h.tail, htake, hdrop, List.append_nil]

end Lexeme

/-! ### Places -/

namespace Located

/-- The lexer on characters that begin at byte `offset`. -/
def ofChars (offset : Nat) (cs : List Char) : Except StrayCharacter (List Located) :=
  ofLexemes offset (lexemes cs)

/-- `cs` lexes to `ls` at `offset` in front of `rest`, whatever the outcome on `rest`. -/
def Scans (offset : Nat) (cs : List Char) (ls : List Located) (rest : List Char) : Prop :=
  ofChars offset (cs ++ rest) = (ofChars (offset + utf8Length cs) rest).map (ls ++ ·)

namespace Scans

variable {offset : Nat} {cs ds rest : List Char} {ls ms : List Located}

theorem nil (offset : Nat) (rest : List Char) : Scans offset [] [] rest := by
  simp only [Scans, List.nil_append, utf8Length_nil, Nat.add_zero]
  cases ofChars offset rest <;> rfl

theorem append (h : Scans offset cs ls (ds ++ rest))
    (h' : Scans (offset + utf8Length cs) ds ms rest) :
    Scans offset (cs ++ ds) (ls ++ ms) rest := by
  rw [Scans] at h h' ⊢
  rw [List.append_assoc, h, h', utf8Length_append, ← Nat.add_assoc]
  cases ofChars (offset + utf8Length cs + utf8Length ds) rest with
  | error e => rfl
  | ok us => simp [Except.map]

theorem ofChars_eq_ok (h : Scans offset cs ls []) : ofChars offset cs = .ok ls := by
  rw [Scans, List.append_nil] at h
  rw [h, ofChars, lexemes_nil]
  simp [ofLexemes, Except.map]

theorem layout {l : Lexeme} (hl : l.Fits rest) (hreading : l.reading? = some .layout) :
    Scans offset l.chars [] rest := by
  rw [Scans, ofChars, hl.lexemes_append, ofLexemes, hreading]
  change ofChars (offset + utf8Length l.chars) rest = _
  cases ofChars (offset + utf8Length l.chars) rest <;> rfl

theorem token {l : Lexeme} {t : Token} (hl : l.Fits rest)
    (hreading : l.reading? = some (.token t)) :
    Scans offset l.chars [⟨t, offset, offset + utf8Length l.chars⟩] rest := by
  rw [Scans, ofChars, hl.lexemes_append, ofLexemes, hreading]
  simp only [Lexeme.utf8Size, ofChars]
  cases ofLexemes (offset + utf8Length l.chars) (lexemes rest) <;> rfl

theorem blank {c : Char} (h : isBlank c = true) : Scans offset [c] [] rest := by
  refine layout (l := ⟨c, []⟩) ⟨nofun, ?_⟩ ?_
  · intro x _
    rw [Lexeme.continues_of_isBlank h]
  · rw [Lexeme.reading?, h, Bool.true_or, if_pos rfl]

theorem mark {c : Char} {t : Token} (h : Token.ofMark? c = some t) :
    Scans offset [c] [⟨t, offset, offset + utf8Length [c]⟩] rest := by
  refine token (l := ⟨c, []⟩) ⟨nofun, ?_⟩ ?_
  · intro x _
    rw [Lexeme.continues_of_ofMark? h]
  · rcases Token.mem_of_ofMark? h with rfl | rfl | rfl | rfl | rfl
    all_goals cases h; rfl

end Scans

end Located

/-! ### Names

The names and labels that tokens can have. -/

/-- A character that may begin a label, followed by name characters. -/
def IsWord : List Char → Prop
  | [] => False
  | c :: cs => isLabelStart c = true ∧ ∀ x ∈ cs, isNameChar x = true

theorem isNameChar_of_isLabelStart {c : Char} (h : isLabelStart c = true) :
    isNameChar c = true := by
  rw [isLabelStart, Bool.or_eq_true] at h
  rw [isNameChar, Char.isAlphanum]
  rcases h with h | h
  · rw [h]
    rfl
  · rw [h, Bool.or_true]
    rfl

theorem IsWord.isNameChar {w : List Char} (h : IsWord w) : ∀ c ∈ w, isNameChar c = true := by
  cases w with
  | nil => exact nofun
  | cons c cs => exact List.forall_mem_cons.mpr ⟨isNameChar_of_isLabelStart h.1, h.2⟩

/-- A word that is not reserved. -/
structure IsLabelName (name : String) : Prop where
  word : IsWord name.toList
  ne_match : name.toList ≠ matchSpelling
  ne_isa : name.toList ≠ Keyword.isa.chars
  ne_type : name.toList ≠ Keyword.type.chars

/-- Name characters, not empty and not the anonymous name. -/
structure IsVariableName (name : String) : Prop where
  ne_nil : name.toList ≠ []
  nameChars : ∀ x ∈ name.toList, isNameChar x = true
  ne_anonymous : name.toList ≠ anonymousName

instance : DecidablePred IsWord
  | [] => isFalse id
  | c :: cs =>
    decidable_of_iff (isLabelStart c = true ∧ cs.all isNameChar = true)
      (and_congr_right' List.all_eq_true)

instance : DecidablePred IsLabelName := fun name =>
  decidable_of_iff (IsWord name.toList ∧ name.toList ≠ matchSpelling ∧
      name.toList ≠ Keyword.isa.chars ∧ name.toList ≠ Keyword.type.chars)
    ⟨fun h => ⟨h.1, h.2.1, h.2.2.1, h.2.2.2⟩, fun h => ⟨h.word, h.ne_match, h.ne_isa, h.ne_type⟩⟩

instance : DecidablePred IsVariableName := fun name =>
  decidable_of_iff (name.toList ≠ [] ∧ name.toList.all isNameChar = true ∧
      name.toList ≠ anonymousName)
    ⟨fun h => ⟨h.1, List.all_eq_true.mp h.2.1, h.2.2⟩,
      fun h => ⟨h.ne_nil, List.all_eq_true.mpr h.nameChars, h.ne_anonymous⟩⟩

def Variable.IsWritable : Variable → Prop
  | anonymous => True
  | visible name => IsVariableName name

instance : DecidablePred Variable.IsWritable
  | .anonymous => .isTrue trivial
  | .visible name => inferInstanceAs (Decidable (IsVariableName name))

def Token.IsWritable : Token → Prop
  | var v => v.IsWritable
  | label name => IsLabelName name
  | _ => True

/-- Token texts consist of name characters, dollar signs and punctuation. -/
theorem Token.isNameChar_or_mem {t : Token} (h : t.IsWritable) {c : Char} (hc : c ∈ t.chars) :
    isNameChar c = true ∨ c ∈ ['$', '(', ')', ',', ':', ';'] := by
  cases t with
  | var v =>
      cases v with
      | anonymous =>
          simp only [chars, Variable.chars, Mark.chars, anonymousName, List.cons_append,
            List.nil_append, List.mem_cons, List.not_mem_nil, or_false] at hc
          rcases hc with rfl | rfl <;> decide
      | visible name =>
          rcases List.mem_cons.mp hc with rfl | hc
          · exact .inr List.mem_cons_self
          · exact .inl (h.nameChars c hc)
  | label name => exact .inl (h.word.isNameChar c hc)
  | matchWord => exact .inl (IsWord.isNameChar (w := matchSpelling) (by decide) c hc)
  | isaWord => exact .inl (IsWord.isNameChar (w := Keyword.isa.chars) (by decide) c hc)
  | typeWord => exact .inl (IsWord.isNameChar (w := Keyword.type.chars) (by decide) c hc)
  | parenOpen | parenClose | comma | colon | semicolon =>
      obtain rfl := List.mem_singleton.mp hc
      exact .inr (by decide)

/-- No token contains a line feed. -/
theorem Token.newline_notMem_chars {t : Token} (h : t.IsWritable) : '\n' ∉ t.chars :=
  fun hmem => absurd (isNameChar_or_mem h hmem) (by decide)

theorem Token.ofWord_of_isLabelName {name : String} (h : IsLabelName name) :
    Token.ofWord name.toList = .label name := by
  rw [ofWord, if_neg h.ne_match, if_neg h.ne_isa, if_neg h.ne_type, String.ofList_toList]

theorem Variable.ofName_of_isVariableName {name : String} (h : IsVariableName name) :
    Variable.ofName name = .visible name := by
  rw [ofName, if_neg]
  rintro (hnil | hanonymous)
  · exact h.ne_nil hnil
  · exact h.ne_anonymous hanonymous

/-- `cs` does not continue a name in front of it. -/
def Apart (cs : List Char) : Prop := ∀ c ∈ cs.head?, isNameChar c = false

theorem Apart.nil : Apart [] := nofun

theorem Apart.cons {c : Char} (h : isNameChar c = false) (cs : List Char) : Apart (c :: cs) := by
  rintro x ⟨⟩
  exact h

theorem Apart.append {cs ds : List Char} (hcs : Apart cs) (hds : Apart ds) : Apart (cs ++ ds) := by
  cases cs with
  | nil => exact hds
  | cons c cs => exact hcs

namespace Located.Scans

variable {offset : Nat} {rest : List Char}

theorem word {w : List Char} (h : IsWord w) (hrest : Apart rest) :
    Scans offset w [⟨Token.ofWord w, offset, offset + utf8Length w⟩] rest := by
  cases w with
  | nil => exact absurd h id
  | cons c cs =>
      obtain ⟨hstart, hname⟩ := h
      have hcontinues := Lexeme.continues_of_isLabelStart hstart
      have hblank : isBlank c = false := by
        rw [← Bool.not_eq_true]
        intro hblank
        rw [isLabelStart_of_isBlank hblank] at hstart
        exact Bool.false_ne_true hstart
      have hsign : (c == Lexeme.commentSign) = false := by
        rw [beq_eq_false_iff_ne]
        rintro rfl
        exact absurd hstart (by decide)
      refine token (l := ⟨c, cs⟩) ⟨?_, ?_⟩ ?_
      · rwa [hcontinues]
      · rwa [hcontinues]
      · simp [Lexeme.reading?, hblank, hsign, hstart, Lexeme.chars]

theorem var {v : Variable} (h : v.IsWritable) (hrest : Apart rest) :
    Scans offset v.chars [⟨.var v, offset, offset + utf8Length v.chars⟩] rest := by
  cases v with
  | anonymous =>
      refine token (l := ⟨'$', ['_']⟩) ⟨?_, hrest⟩ (by decide)
      simp [Lexeme.continues_dollar, isNameChar]
  | visible name =>
      obtain ⟨c, cs, hname⟩ := List.exists_cons_of_ne_nil h.ne_nil
      have hofName := Variable.ofName_of_isVariableName h
      refine token (l := ⟨'$', name.toList⟩) ⟨h.nameChars, hrest⟩ ?_
      rw [← String.ofList_toList (s := name), hname] at hofName
      rw [hname]
      change some (Reading.token (.var (Variable.ofName (String.ofList (c :: cs))))) = _
      rw [hofName, ← hname, String.ofList_toList]

/-- A writable token lexes to itself in front of a rest that is apart. -/
theorem chars {t : Token} (h : t.IsWritable) (hrest : Apart rest) :
    Scans offset t.chars [⟨t, offset, offset + utf8Length t.chars⟩] rest := by
  cases t with
  | var v => exact var h hrest
  | label name =>
      have hword : Scans offset name.toList _ rest := word h.word hrest
      rwa [Token.ofWord_of_isLabelName h] at hword
  | matchWord | isaWord | typeWord => exact word (by decide) hrest
  | parenOpen | parenClose | comma | colon | semicolon => exact mark rfl

end Located.Scans

/-! ### Rows of tokens -/

/-- `cs` lexes to `ts` in front of any rest that is apart, at any offset. -/
def Reads (cs : List Char) (ts : List Token) : Prop :=
  ∀ (offset : Nat) (rest : List Char), Apart rest →
    ∃ ls : List Located, ls.map Located.token = ts ∧ Located.Scans offset cs ls rest

namespace Reads

variable {cs ds : List Char} {ts us : List Token}

theorem nil : Reads [] [] := by
  intro offset rest _
  exact ⟨[], rfl, .nil offset rest⟩

theorem token {t : Token} (h : t.IsWritable) : Reads t.chars [t] := by
  intro offset rest hrest
  exact ⟨_, rfl, .chars h hrest⟩

theorem append (hcs : Reads cs ts) (hds : Reads ds us) (hapart : Apart ds) :
    Reads (cs ++ ds) (ts ++ us) := by
  intro offset rest hrest
  obtain ⟨ls, rfl, hls⟩ := hcs offset (ds ++ rest) (hapart.append hrest)
  obtain ⟨ms, rfl, hms⟩ := hds (offset + utf8Length cs) rest hrest
  exact ⟨ls ++ ms, List.map_append, hls.append hms⟩

/-- A mark may precede any text. -/
theorem mark {c : Char} {t : Token} (h : Token.ofMark? c = some t) (hcs : Reads cs ts) :
    Reads (c :: cs) (t :: ts) := by
  intro offset rest hrest
  obtain ⟨ls, rfl, hls⟩ := hcs (offset + utf8Length [c]) rest hrest
  exact ⟨_ :: ls, rfl, Located.Scans.append (.mark h) hls⟩

theorem blank {c : Char} (h : isBlank c = true) (hcs : Reads cs ts) : Reads (c :: cs) ts := by
  intro offset rest hrest
  obtain ⟨ls, rfl, hls⟩ := hcs (offset + utf8Length [c]) rest hrest
  exact ⟨ls, rfl, Located.Scans.append (.blank h) hls⟩

/-- The tokens of a source, from those of its characters. -/
theorem ofSource (h : Reads cs ts) :
    ∃ ls, Located.ofSource (String.ofList cs) = .ok ls ∧ ls.map Located.token = ts := by
  obtain ⟨ls, htokens, hscans⟩ := h 0 [] .nil
  refine ⟨ls, ?_, htokens⟩
  rw [Located.ofSource, String.toList_ofList]
  exact hscans.ofChars_eq_ok

end Reads

end GraphPattern
