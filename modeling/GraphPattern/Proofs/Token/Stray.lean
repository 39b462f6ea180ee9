import GraphPattern.Proofs.Token.Lines
import GraphPattern.Proofs.Token.Position

/-!
Lexical errors. A source with a lexical error has a first stray character. The text in front
of it lexes, and the context decides whether the character is refused: a digit continues a
name in front of it, and a dollar sign needs a name behind it.

The text in front must not hide the character either, by ending in a comment or in a name
that the character continues. Otherwise it has the same tokens in the source as on its own.
-/

namespace GraphPattern

/-! ### Open comments -/

/-- The last line of the characters contains a comment sign. -/
def EndsInComment (cs : List Char) : Prop := Lexeme.commentSign ∈ lastLine cs

instance : DecidablePred EndsInComment := fun cs =>
  inferInstanceAs (Decidable (Lexeme.commentSign ∈ lastLine cs))

theorem commentSign_mem_of_endsInComment {cs : List Char} (h : EndsInComment cs) :
    Lexeme.commentSign ∈ cs :=
  (List.rtakeWhile_suffix _ cs).subset h

theorem endsInComment_append_iff {cs ds : List Char} :
    EndsInComment (cs ++ ds) ↔ EndsInComment ds ∨ '\n' ∉ ds ∧ EndsInComment cs := by
  rw [EndsInComment, lastLine_append]
  by_cases hds : '\n' ∈ ds
  · simp [hds, EndsInComment]
  · simp [hds, EndsInComment, lastLine_of_newline_notMem hds, or_comm]

theorem Token.not_endsInComment_chars {t : Token} (h : t.IsWritable) : ¬ EndsInComment t.chars := by
  intro hcomment
  exact absurd (isNameChar_or_mem h (commentSign_mem_of_endsInComment hcomment)) (by decide)

/-- Every comment in a gap is closed. -/
theorem IsGap.not_endsInComment {cs : List Char} (h : IsGap cs) : ¬ EndsInComment cs := by
  induction h with
  | nil => decide
  | @blank c cs hc _ ih =>
      rw [← List.singleton_append, endsInComment_append_iff]
      rintro (hcs | ⟨-, hblank⟩)
      · exact ih hcs
      · obtain rfl := List.mem_singleton.mp (commentSign_mem_of_endsInComment hblank)
        exact absurd hc (by decide)
  | @comment text cs _ _ ih =>
      rw [endsInComment_append_iff, ← List.singleton_append, endsInComment_append_iff]
      rintro ((hcs | ⟨-, hnewline⟩) | ⟨hnewline, -⟩)
      · exact ih hcs
      · exact absurd hnewline (by decide)
      · exact hnewline List.mem_cons_self

theorem endsInComment_comment (text : List Char) (h : '\n' ∉ text) :
    EndsInComment (Lexeme.commentSign :: text) := by
  rw [← List.singleton_append, endsInComment_append_iff]
  exact .inr ⟨h, by decide⟩

/-! ### Lexing up to a character -/

namespace Located

variable {offset : Nat} {cs rest before after : List Char} {ls ts : List Located} {c : Char}

/-- A text that lexes on its own has the same tokens in front of `rest`, unless it ends in a
comment or in a name that `rest` continues. -/
theorem Scans.of_ofChars (h : ofChars offset cs = .ok ts) (hcomment : ¬ EndsInComment cs)
    (hrest : ∀ t ∈ ts, t.token.endsInName = true → t.span.stop = offset + utf8Length cs →
      Apart rest) :
    Scans offset cs ts rest := by
  induction cs using source_induction generalizing offset ts with
  | nil =>
      obtain rfl : [] = ts := by simpa [ofChars, ofLexemes] using h
      exact .nil offset rest
  | gap g cs hgap ih =>
      obtain ⟨us, hus, rfl⟩ := (Scans.gap hgap).ofChars_append_eq_ok h
      refine append (.gap hgap) (ih hus ?_ fun t ht hends hstop => hrest t ht hends ?_)
      · exact fun hcs => hcomment (endsInComment_append_iff.mpr (.inl hcs))
      · rw [hstop, utf8Length_append, Nat.add_assoc]
  | lastComment text htext => exact absurd (endsInComment_comment text htext) hcomment
  | token t cs ht hcs ih =>
      obtain ⟨us, hus, rfl⟩ := (Scans.written ht hcs).ofChars_append_eq_ok h
      rw [List.singleton_append, List.forall_mem_cons] at hrest
      refine append (.written ht fun hends => ?_)
        (ih hus ?_ fun u hu hends hstop => hrest.2 u hu hends ?_)
      · -- Only the last token of `cs` has `rest` behind it.
        cases cs with
        | nil => exact hrest.1 hends (by rw [List.append_nil])
        | cons d cs => exact hcs hends
      · exact fun hcs => hcomment (endsInComment_append_iff.mpr (.inl hcs))
      · rw [hstop, utf8Length_append, Nat.add_assoc]
  | stray d cs hd =>
      rw [hd.ofChars_eq offset] at h
      cases h

/-- The lexer stops at `c` in front of `after`: the text before it lexes to `ts` without
hiding `c`, and `c` neither continues the last token nor begins another. -/
structure StopsAt (offset : Nat) (before : List Char) (ts : List Located) (c : Char)
    (after : List Char) : Prop where
  read : ofChars offset before = .ok ts
  shown : ¬ EndsInComment before
  apart : ∀ t ∈ ts, t.token.endsInName = true → t.span.stop = offset + utf8Length before →
    isNameChar c = false
  stray : IsStray c after

theorem StopsAt.ofChars_eq (h : StopsAt offset before ts c after) :
    ofChars offset (before ++ c :: after) =
      .error ⟨c, offset + utf8Length before, offset + utf8Length before + c.utf8Size⟩ := by
  have hscans : Scans offset before ts (c :: after) :=
    .of_ofChars h.read h.shown fun t ht hends hstop => .cons (h.apart t ht hends hstop) after
  rw [hscans, h.stray.ofChars_eq]
  rfl

/-- A prefix that lexes does not change where the lexer stops. -/
theorem StopsAt.prepend (h : StopsAt (offset + utf8Length cs) before ts c after)
    (hcs : Scans offset cs ls before) (hshown : ¬ EndsInComment cs)
    (hstop : ∀ t ∈ ls, t.span.stop ≤ offset + utf8Length cs)
    (hapart : ∀ t ∈ ls, t.token.endsInName = true → Apart (before ++ c :: after)) :
    StopsAt offset (cs ++ before) (ls ++ ts) c after where
  read := by
    rw [hcs, h.read]
    rfl
  shown := by
    rw [endsInComment_append_iff]
    rintro (hbefore | ⟨-, hcs⟩)
    · exact h.shown hbefore
    · exact hshown hcs
  apart := by
    intro t ht hends hend
    rw [utf8Length_append, ← Nat.add_assoc] at hend
    rcases List.mem_append.mp ht with ht | ht
    · -- The token can only reach as far as `c` if nothing stands between them.
      have hle := hstop t ht
      cases before with
      | nil => exact hapart t ht hends c rfl
      | cons b before =>
          have hpos := b.utf8Size_pos
          rw [utf8Length_cons] at hend
          omega
    · exact h.apart t ht hends hend
  stray := h.stray

/-- On a lexical error there is a character at which the lexer stops. -/
theorem exists_stopsAt {e : StrayCharacter} (h : ofChars offset cs = .error e) :
    ∃ before c after ts, cs = before ++ c :: after ∧ StopsAt offset before ts c after := by
  induction cs using source_induction generalizing offset with
  | nil => simp [ofChars, ofLexemes] at h
  | gap g cs hgap ih =>
      obtain ⟨before, c, after, ts, rfl, hstops⟩ := ih ((Scans.gap hgap).ofChars_append_eq_error h)
      exact ⟨g ++ before, c, after, [] ++ ts, (List.append_assoc _ _ _).symm,
        hstops.prepend (.gap hgap) hgap.not_endsInComment (List.forall_mem_nil _)
          (List.forall_mem_nil _)⟩
  | lastComment text htext =>
      have hlast : IsLastGap (Lexeme.commentSign :: text) := IsLastGap.comment .nil htext
      rw [(Scans.lastGap hlast).ofChars_eq_ok] at h
      cases h
  | token t cs ht hcs ih =>
      obtain ⟨before, c, after, ts, rfl, hstops⟩ :=
        ih ((Scans.written ht hcs).ofChars_append_eq_error h)
      have hbefore : t.endsInName = true → Apart before := by
        intro hends
        cases before with
        | nil => exact .nil
        | cons b before => exact hcs hends
      exact ⟨t.chars ++ before, c, after, _ ++ ts, (List.append_assoc _ _ _).symm,
        hstops.prepend (.written ht hbefore) (Token.not_endsInComment_chars ht)
          (List.forall_mem_singleton.mpr (Nat.le_refl _)) (List.forall_mem_singleton.mpr hcs)⟩
  | stray c cs hc =>
      refine ⟨[], c, cs, [], rfl, ?_, by decide, List.forall_mem_nil _, hc⟩
      exact (Scans.nil offset []).ofChars_eq_ok

theorem ofChars_eq_error_iff {e : StrayCharacter} :
    ofChars offset cs = .error e ↔
      ∃ before c after ts, cs = before ++ c :: after ∧ StopsAt offset before ts c after ∧
        e = ⟨c, offset + utf8Length before, offset + utf8Length before + c.utf8Size⟩ := by
  constructor
  · intro h
    obtain ⟨before, c, after, ts, rfl, hstops⟩ := exists_stopsAt h
    rw [hstops.ofChars_eq] at h
    exact ⟨before, c, after, ts, rfl, hstops, (Except.error.inj h).symm⟩
  · rintro ⟨before, c, after, ts, rfl, hstops, rfl⟩
    exact hstops.ofChars_eq

end Located

/-! ### Refused characters -/

theorem Token.ofMark?_eq_none_iff {c : Char} :
    ofMark? c = none ↔ c ∉ ['(', ')', ',', ':', ';'] := by
  constructor
  · intro h hmem
    simp only [List.mem_cons, List.not_mem_nil, or_false] at hmem
    rcases hmem with rfl | rfl | rfl | rfl | rfl
    all_goals cases h
  · intro h
    cases hmark : ofMark? c with
    | none => rfl
    | some t => exact absurd (by simpa using mem_of_ofMark? hmark) h

/-- A digit is no letter. -/
theorem isAlpha_of_isDigit {c : Char} (h : c.isDigit = true) : c.isAlpha = false := by
  have hdigit : c.val ≤ '9'.val := of_decide_eq_true (Bool.and_elim_right h)
  rw [← Bool.not_eq_true]
  intro halpha
  rcases Bool.or_eq_true_iff.mp halpha with hupper | hlower
  · have hfirst : 'A'.val ≤ c.val := (of_decide_eq_true hupper).1
    exact absurd (UInt32.le_trans hfirst hdigit) (by decide)
  · have hfirst : 'a'.val ≤ c.val := of_decide_eq_true (Bool.and_elim_left hlower)
    exact absurd (UInt32.le_trans hfirst hdigit) (by decide)

section Refused

variable {ts : List Located} {before after : List Char} {c : Char}

/-- The stray characters: a dollar sign without a name, and the characters that are neither
letters nor signs of the language. -/
theorem isStray_iff : IsStray c after ↔ c = '$' ∧ Apart after ∨ c.isAlpha = false ∧
    c ∉ [' ', '\t', '\r', '\n', '\x0c', '#', '$', '(', ')', ',', ':', ';', '_'] := by
  constructor
  · intro h
    cases h with
    | dollar h => exact .inl ⟨rfl, h⟩
    | other hblank hsign hstart hdollar hmark =>
        rw [← Bool.not_eq_true, isBlank_iff] at hblank
        rw [isLabelStart, Bool.or_eq_false_iff, beq_eq_false_iff_ne] at hstart
        rw [Token.ofMark?_eq_none_iff] at hmark
        rw [Lexeme.commentSign] at hsign
        refine .inr ⟨hstart.1, ?_⟩
        simp_all
  · rintro (⟨rfl, h⟩ | ⟨halpha, hc⟩)
    · exact .dollar h
    · simp only [List.mem_cons, not_or] at hc
      refine .other ?_ ?_ ?_ ?_ ?_
      · simp [isBlank, hc]
      · simp [Lexeme.commentSign, hc]
      · simp [isLabelStart, halpha, hc]
      · simp [hc]
      · simp [Token.ofMark?_eq_none_iff, hc]

/-- The character `c` is refused between `before`, with the tokens `ts`, and `after`. -/
inductive IsRefused (ts : List Located) (before : List Char) (c : Char) (after : List Char) : Prop
  /-- A dollar sign without a name. -/
  | dollar (hc : c = '$') (h : Apart after)
  /-- A digit or a hyphen that does not follow a name. -/
  | detached (hc : c.isDigit = true ∨ c = '-')
      (h : ∀ t ∈ ts, t.token.endsInName = true → t.span.stop ≠ utf8Length before)
  /-- A character outside the language. -/
  | foreign (halpha : c.isAlpha = false) (hdigit : c.isDigit = false)
      (hc : c ∉ [' ', '\t', '\r', '\n', '\x0c', '#', '$', '(', ')', ',', ':', ';', '_', '-'])

/-- A digit or a hyphen begins no token, although it continues a name. -/
theorem isStray_of_isDigit_or_eq (hc : c.isDigit = true ∨ c = '-') : IsStray c after := by
  rcases hc with hc | rfl
  · refine isStray_iff.mpr (.inr ⟨isAlpha_of_isDigit hc, fun hmem => ?_⟩)
    have hsigns : [' ', '\t', '\r', '\n', '\x0c', '#', '$', '(', ')', ',', ':', ';', '_'].all
        (fun d => !d.isDigit) = true := by decide
    have hnot := List.all_eq_true.mp hsigns c hmem
    rw [hc] at hnot
    cases hnot
  · exact isStray_iff.mpr (.inr (by decide))

theorem isNameChar_of_isDigit_or_eq (hc : c.isDigit = true ∨ c = '-') : isNameChar c = true := by
  rcases hc with hc | rfl
  · rw [isNameChar, Char.isAlphanum, hc, Bool.or_true]
    rfl
  · decide

theorem isRefused_iff :
    IsRefused ts before c after ↔ IsStray c after ∧
      ∀ t ∈ ts, t.token.endsInName = true → t.span.stop = utf8Length before →
        isNameChar c = false := by
  constructor
  · intro h
    cases h with
    | dollar hc h =>
        rw [hc]
        exact ⟨.dollar h, fun _ _ _ _ => by decide⟩
    | detached hc h =>
        exact ⟨isStray_of_isDigit_or_eq hc, fun t ht hends hstop => absurd hstop (h t ht hends)⟩
    | foreign halpha hdigit hc =>
        simp only [List.mem_cons, not_or] at hc
        refine ⟨isStray_iff.mpr (.inr ⟨halpha, ?_⟩), fun _ _ _ _ => ?_⟩
        · simp [hc]
        · simp [isNameChar, Char.isAlphanum, halpha, hdigit, hc]
  · rintro ⟨hstray, hapart⟩
    by_cases hname : c.isDigit = true ∨ c = '-'
    · refine .detached hname fun t ht hends hstop => ?_
      have hnot := hapart t ht hends hstop
      rw [isNameChar_of_isDigit_or_eq hname] at hnot
      cases hnot
    · rw [not_or, Bool.not_eq_true] at hname
      rcases isStray_iff.mp hstray with ⟨hc, h⟩ | ⟨halpha, hc⟩
      · exact .dollar hc h
      · refine .foreign halpha hname.1 ?_
        simp only [List.mem_cons, not_or] at hc ⊢
        simp [hc, hname.2]

/-- For a whole source, the lexer stops exactly at a refused character. -/
theorem Located.stopsAt_zero_iff :
    StopsAt 0 before ts c after ↔
      ofSource (String.ofList before) = .ok ts ∧ ¬ EndsInComment before ∧
        IsRefused ts before c after := by
  rw [isRefused_iff, ofSource, String.toList_ofList]
  constructor
  · rintro ⟨hread, hshown, hapart, hstray⟩
    rw [Nat.zero_add] at hapart
    exact ⟨hread, hshown, hstray, hapart⟩
  · rintro ⟨hread, hshown, hstray, hapart⟩
    rw [← Nat.zero_add (utf8Length before)] at hapart
    exact ⟨hread, hshown, hapart, hstray⟩

end Refused

/-! ### Comments -/

namespace Located

/-- Texts with equal outcomes have equal outcomes behind a common prefix. -/
theorem Scans.ofChars_congr {offset : Nat} {cs rest rest' : List Char} {ls : List Located}
    (h : Scans offset cs ls rest) (h' : Scans offset cs ls rest')
    (heq : ofChars (offset + utf8Length cs) rest = ofChars (offset + utf8Length cs) rest') :
    ofChars offset (cs ++ rest) = ofChars offset (cs ++ rest') := by
  rw [h, h', heq]

/-- A comment at the end does not change the outcome, whatever it contains. -/
theorem ofChars_append_comment (offset : Nat) (cs : List Char) {text : List Char}
    (htext : '\n' ∉ text) :
    ofChars offset (cs ++ Lexeme.commentSign :: text) = ofChars offset cs := by
  have hapart : Apart (Lexeme.commentSign :: text) := .cons rfl text
  have hcomment {offset : Nat} {text : List Char} (h : '\n' ∉ text) :
      ofChars offset (Lexeme.commentSign :: text) = .ok [] :=
    (Scans.lastGap (.comment .nil h)).ofChars_eq_ok
  induction cs using source_induction generalizing offset with
  | nil =>
      rw [List.nil_append, hcomment htext, (Scans.nil offset []).ofChars_eq_ok]
  | gap g cs hgap ih =>
      rw [List.append_assoc]
      exact Scans.ofChars_congr (.gap hgap) (.gap hgap) (ih _)
  | lastComment line hline =>
      have hboth : '\n' ∉ line ++ Lexeme.commentSign :: text := by
        simp [hline, htext, Lexeme.commentSign]
      rw [List.cons_append, hcomment hboth, hcomment hline]
  | token t cs ht hcs ih =>
      rw [List.append_assoc]
      exact Scans.ofChars_congr (.written ht fun h => (hcs h).append hapart) (.written ht hcs) (ih _)
  | stray c cs hc => rw [List.cons_append, (hc.append hapart).ofChars_eq, hc.ofChars_eq]

end Located

/-- The lexer fails exactly at the first refused character and quotes it: the text in front
of it consists of tokens and gaps, and no comment is open. The contents of comments do not
matter. -/
theorem ofSource_stops_at_refused :
    (∀ (source : String) (e : StrayCharacter), Located.ofSource source = .error e ↔
      ∃ before c after ts, source.toList = before ++ c :: after ∧
        Located.ofSource (String.ofList before) = .ok ts ∧ ¬ EndsInComment before ∧
        IsRefused ts before c after ∧
        e = ⟨c, utf8Length before, utf8Length before + c.utf8Size⟩ ∧
        e.message = "Unexpected token " ++ String.ofList [c]) ∧
    ∀ source comment : String, '\n' ∉ comment.toList →
      Located.ofSource (source ++ "#" ++ comment) = Located.ofSource source := by
  refine ⟨fun source e => ⟨fun h => ?failure, ?refused⟩, fun source comment hcomment => ?comment⟩
  case failure =>
    obtain ⟨before, c, after, ts, hsource, hstops, rfl⟩ := Located.ofChars_eq_error_iff.mp h
    obtain ⟨hread, hshown, hrefused⟩ := Located.stopsAt_zero_iff.mp hstops
    refine ⟨before, c, after, ts, hsource, hread, hshown, hrefused, ?_, rfl⟩
    rw [Nat.zero_add]
  case refused =>
    rintro ⟨before, c, after, ts, hsource, hread, hshown, hrefused, rfl, -⟩
    have hstops := Located.stopsAt_zero_iff.mpr ⟨hread, hshown, hrefused⟩
    have hfails := hstops.ofChars_eq
    rwa [← hsource, Nat.zero_add] at hfails
  case comment =>
    rw [Located.ofSource, String.toList_append, String.toList_append, List.append_assoc]
    exact Located.ofChars_append_comment 0 source.toList hcomment

/-- The hyphens in a comment and in a name are accepted, and the third one follows a blank.
Offsets count bytes. -/
theorem ofSource_stops_at_refused_hyphen :
    Located.ofSource "a# é$-\n($x-1, -#\t-" = .error ⟨'-', 15, 16⟩ := by
  obtain ⟨hfailure, hcomment⟩ := ofSource_stops_at_refused
  let before := "a# é$-\n($x-1, ".toList
  let ts : List Located := [⟨.label "a", 0, 1⟩, ⟨.parenOpen, 8, 9⟩,
    ⟨.var (.visible "x-1"), 9, 13⟩, ⟨.comma, 13, 14⟩]
  have hread : Located.ofSource (String.ofList before) = .ok ts := by decide +kernel
  have hshown : ¬ EndsInComment before := by decide +kernel
  have hrefused : IsRefused ts before '-' [] := .detached (.inr rfl) (by decide +kernel)
  have hsource : "a# é$-\n($x-1, -#\t-" = "a# é$-\n($x-1, -" ++ "#" ++ "\t-" := by decide +kernel
  rw [hsource, hcomment _ "\t-" (by decide)]
  exact (hfailure _ _).mpr ⟨before, '-', [], ts, rfl, hread, hshown, hrefused, rfl, rfl⟩

end GraphPattern
