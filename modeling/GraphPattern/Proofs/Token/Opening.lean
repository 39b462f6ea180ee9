import GraphPattern.Proofs.Token.Layout

/-!
Openings of a source. A source is empty or begins with a blank, a comment, a token or a
stray character, and unless it is the last, the rest lexes on its own. This gives an
induction principle for sources, which does not mention lexemes.
-/

namespace GraphPattern

/-! ### Stray characters -/

/-- The lexer fails on `c` in front of `rest`: it is a dollar sign without a name, or a
character that begins no token and no gap. -/
inductive IsStray : Char → List Char → Prop
  | dollar {rest : List Char} (h : Apart rest) : IsStray '$' rest
  | other {c : Char} {rest : List Char} (hblank : isBlank c = false)
      (hsign : c ≠ Lexeme.commentSign) (hstart : isLabelStart c = false) (hdollar : c ≠ '$')
      (hmark : Token.ofMark? c = none) : IsStray c rest

theorem IsStray.ofChars_eq {c : Char} {rest : List Char} (h : IsStray c rest) (offset : Nat) :
    Located.ofChars offset (c :: rest) = .error ⟨c, offset, offset + c.utf8Size⟩ := by
  have hreading : Lexeme.reading? ⟨c, rest.takeWhile (Lexeme.continues c)⟩ = none := by
    cases h with
    | dollar h =>
        have htail : rest.takeWhile (Lexeme.continues '$') = [] := by
          cases rest with
          | nil => rfl
          | cons x rest =>
              rw [Lexeme.continues_dollar, List.takeWhile_cons, h x rfl,
                if_neg Bool.false_ne_true]
        rw [htail]
        rfl
    | other hblank hsign hstart hdollar hmark =>
        simp [Lexeme.reading?, hblank, hsign, hstart, hdollar, hmark, Mark.chars]
  rw [Located.ofChars, lexemes_cons, Located.ofLexemes, hreading]

/-! ### Words and variables -/

theorem Token.chars_ofWord (w : List Char) : (ofWord w).chars = w := by
  fun_cases ofWord w with
  | case1 h => exact h.symm
  | case2 _ h => exact h.symm
  | case3 _ _ h => exact h.symm
  | case4 => exact String.toList_ofList

theorem Token.isWritable_ofWord {w : List Char} (h : IsWord w) : (ofWord w).IsWritable := by
  fun_cases ofWord w with
  | case1 | case2 | case3 => trivial
  | case4 hmatch hisa htype =>
      refine ⟨?_, ?_, ?_, ?_⟩
      all_goals rwa [String.toList_ofList]

theorem Variable.chars_ofName {name : String} (h : name.toList ≠ []) :
    (ofName name).chars = '$' :: name.toList := by
  fun_cases ofName name with
  | case1 hname =>
      rw [hname.resolve_left h]
      rfl
  | case2 => rfl

theorem Variable.isWritable_ofName {name : String} (h : ∀ x ∈ name.toList, isNameChar x = true) :
    (ofName name).IsWritable := by
  fun_cases ofName name with
  | case1 => trivial
  | case2 hname =>
      rw [not_or] at hname
      exact ⟨hname.1, h, hname.2⟩

/-! ### Openings -/

/-- The openings of a source. -/
inductive Opening : List Char → Prop
  | nil : Opening []
  | blank {c : Char} (hc : isBlank c = true) (cs : List Char) : Opening (c :: cs)
  | lastComment {text : List Char} (htext : '\n' ∉ text) : Opening (Lexeme.commentSign :: text)
  | comment {text : List Char} (htext : '\n' ∉ text) (cs : List Char) :
      Opening (Lexeme.commentSign :: text ++ '\n' :: cs)
  | token {t : Token} {cs : List Char} (h : t.IsWritable)
      (hcs : t.endsInName = true → Apart cs) : Opening (t.chars ++ cs)
  | stray {c : Char} {cs : List Char} (h : IsStray c cs) : Opening (c :: cs)

/-- The longest prefix of characters that satisfy `p`. -/
theorem exists_longest (p : Char → Bool) (cs : List Char) :
    ∃ as rest, cs = as ++ rest ∧ (∀ x ∈ as, p x = true) ∧ ∀ x ∈ rest.head?, p x = false := by
  refine ⟨cs.takeWhile p, cs.dropWhile p, List.takeWhile_append_dropWhile.symm,
    List.all_eq_true.mp List.all_takeWhile, ?_⟩
  intro x hx
  have hhead := List.head?_dropWhile_not p cs
  rw [Option.mem_def.mp hx] at hhead
  exact hhead

theorem opening_comment (cs : List Char) : Opening (Lexeme.commentSign :: cs) := by
  obtain ⟨text, rest, rfl, htext, hrest⟩ := exists_longest (· != '\n') cs
  have hline : '\n' ∉ text := fun hmem => by simpa using htext '\n' hmem
  cases rest with
  | nil =>
      rw [List.append_nil]
      exact .lastComment hline
  | cons x rest =>
      obtain rfl : x = '\n' := by simpa using hrest x rfl
      exact .comment hline rest

theorem opening_word {c : Char} (h : isLabelStart c = true) (cs : List Char) :
    Opening (c :: cs) := by
  obtain ⟨name, rest, rfl, hname, hrest⟩ := exists_longest isNameChar cs
  have hword : IsWord (c :: name) := ⟨h, hname⟩
  have htoken := Opening.token (Token.isWritable_ofWord hword) fun _ => hrest
  rwa [Token.chars_ofWord, List.cons_append] at htoken

theorem opening_dollar (cs : List Char) : Opening ('$' :: cs) := by
  obtain ⟨name, rest, rfl, hname, hrest⟩ := exists_longest isNameChar cs
  cases name with
  | nil => exact .stray (.dollar hrest)
  | cons x name =>
      have hchars := String.toList_ofList (l := x :: name)
      have hwritable : (Variable.ofName (String.ofList (x :: name))).IsWritable :=
        Variable.isWritable_ofName (by rwa [hchars])
      have htoken : Opening ((Token.var _).chars ++ rest) := .token hwritable fun _ => hrest
      rwa [Token.chars, Variable.chars_ofName (by simp), hchars] at htoken

theorem opening (cs : List Char) : Opening cs := by
  cases cs with
  | nil => exact .nil
  | cons c cs =>
      by_cases hblank : isBlank c = true
      · exact .blank hblank cs
      by_cases hsign : c = Lexeme.commentSign
      · rw [hsign]
        exact opening_comment cs
      by_cases hstart : isLabelStart c = true
      · exact opening_word hstart cs
      by_cases hdollar : c = '$'
      · rw [hdollar]
        exact opening_dollar cs
      cases hmark : Token.ofMark? c with
      | none =>
          rw [Bool.not_eq_true] at hblank hstart
          exact .stray (.other hblank hsign hstart hdollar hmark)
      | some t =>
          have hchars := Token.chars_of_ofMark? hmark
          have htoken : t.IsWritable ∧ t.endsInName = false := by
            rcases Token.mem_of_ofMark? hmark with rfl | rfl | rfl | rfl | rfl
            all_goals cases hmark; exact ⟨trivial, rfl⟩
          have hopening : Opening (t.chars ++ cs) :=
            .token htoken.1 fun h => absurd (htoken.2.symm.trans h) Bool.false_ne_true
          rwa [hchars] at hopening

/-- Induction over sources, along their openings. -/
theorem source_induction {motive : List Char → Prop} (nil : motive [])
    (gap : ∀ g cs, IsGap g → motive cs → motive (g ++ cs))
    (lastComment : ∀ text, '\n' ∉ text → motive (Lexeme.commentSign :: text))
    (token : ∀ (t : Token) cs, t.IsWritable → (t.endsInName = true → Apart cs) → motive cs →
      motive (t.chars ++ cs))
    (stray : ∀ c cs, IsStray c cs → motive (c :: cs)) (cs : List Char) : motive cs := by
  induction hlength : cs.length using Nat.strong_induction_on generalizing cs with
  | h n ih =>
      subst hlength
      cases opening cs with
      | nil => exact nil
      | blank hc cs => exact gap [_] cs (.blank hc .nil) (ih cs.length (by simp) cs rfl)
      | lastComment htext => exact lastComment _ htext
      | comment htext cs =>
          rw [List.append_cons]
          exact gap _ cs (.comment htext .nil) (ih cs.length (by simp; omega) cs rfl)
      | @token t cs h hcs =>
          obtain ⟨c, tail, hchars, -⟩ := Token.exists_chars_eq h
          have hshorter : cs.length < (t.chars ++ cs).length := by
            rw [hchars, List.length_append, List.length_cons]
            omega
          exact token t cs h hcs (ih cs.length hshorter cs rfl)
      | stray h => exact stray _ _ h

end GraphPattern
