import GraphPattern.Proofs.Token.Tiling

/-!
Lexing line by line. A line feed closes a comment and ends a name, and no token contains it.
So two texts with a line feed between them lex independently: the tokens are those of the
first followed by those of the second, and a lexical error in either is reported, in the
first before the second.

The tokens of a text do not depend on its offset, and their spans are shifted by it. A *row*
is a list of tokens without spans, and rows are concatenated without regard to offsets.
-/

namespace GraphPattern

/-! ### Two lines -/

theorem Apart.append_newline {cs : List Char} (h : Apart cs) (ds : List Char) :
    Apart (cs ++ '\n' :: ds) :=
  h.append (.cons (by decide) ds)

theorem IsStray.append {c : Char} {cs ds : List Char} (h : IsStray c cs) (hds : Apart ds) :
    IsStray c (cs ++ ds) := by
  cases h with
  | dollar h => exact .dollar (h.append hds)
  | other hblank hsign hstart hdollar hmark => exact .other hblank hsign hstart hdollar hmark

namespace Located

/-- The lexer on `cs` and, behind a line feed, on `ds`. -/
def ofTwoLines (offset : Nat) (cs ds : List Char) : Except StrayCharacter (List Located) :=
  (ofChars offset cs).bind fun ls =>
    (ofChars (offset + utf8Length cs + 1) ds).map (ls ++ ·)

theorem ofTwoLines_of_ok {offset : Nat} {cs : List Char} {ls : List Located}
    (h : ofChars offset cs = .ok ls) (ds : List Char) :
    ofTwoLines offset cs ds = (ofChars (offset + utf8Length cs + 1) ds).map (ls ++ ·) := by
  rw [ofTwoLines, h]
  rfl

/-- A common prefix with the tokens `ls` may be removed. -/
theorem Scans.ofTwoLines_append {offset : Nat} {cs rest ds : List Char} {ls : List Located}
    (hline : Scans offset cs ls (rest ++ '\n' :: ds)) (h : Scans offset cs ls rest)
    (hrest : ofChars (offset + utf8Length cs) (rest ++ '\n' :: ds) =
      ofTwoLines (offset + utf8Length cs) rest ds) :
    ofChars offset (cs ++ rest ++ '\n' :: ds) = ofTwoLines offset (cs ++ rest) ds := by
  rw [Scans] at hline h
  rw [List.append_assoc, hline, hrest, ofTwoLines, ofTwoLines, h, utf8Length_append,
    ← Nat.add_assoc]
  cases ofChars (offset + utf8Length cs) rest with
  | error e => rfl
  | ok ms =>
      simp only [Except.map, Except.bind]
      cases ofChars (offset + utf8Length cs + utf8Length rest + 1) ds <;> simp

theorem ofChars_append_newline (offset : Nat) (cs ds : List Char) :
    ofChars offset (cs ++ '\n' :: ds) = ofTwoLines offset cs ds := by
  have hnewline (offset : Nat) : Scans offset ['\n'] [] ds := .blank rfl
  induction cs using source_induction generalizing offset with
  | nil =>
      rw [ofTwoLines_of_ok (Scans.nil offset []).ofChars_eq_ok]
      exact hnewline offset
  | gap g cs hgap ih => exact Scans.ofTwoLines_append (.gap hgap) (.gap hgap) (ih _)
  | lastComment text htext =>
      have hline : Scans offset (Lexeme.commentSign :: text) [] ('\n' :: ds) :=
        .comment htext fun x hx => (Option.mem_some_iff.mp hx).symm
      have halone : Scans offset (Lexeme.commentSign :: text) [] [] := .comment htext nofun
      rw [ofTwoLines_of_ok halone.ofChars_eq_ok, List.append_cons]
      have hboth : Scans offset (Lexeme.commentSign :: text ++ ['\n']) ([] ++ []) ds :=
        hline.append (hnewline _)
      rw [Scans, utf8Length_append, ← Nat.add_assoc] at hboth
      exact hboth
  | token t cs ht hcs ih =>
      exact Scans.ofTwoLines_append (.written ht fun h => (hcs h).append_newline ds)
        (.written ht hcs) (ih _)
  | stray c cs hc =>
      rw [ofTwoLines, hc.ofChars_eq, List.cons_append, (hc.append (.cons (by decide) ds)).ofChars_eq]
      rfl

theorem ofTwoLines_eq_ok_iff {offset : Nat} {cs ds : List Char} {ts : List Located} :
    ofTwoLines offset cs ds = .ok ts ↔
      ∃ ls ms, ofChars offset cs = .ok ls ∧ ofChars (offset + utf8Length cs + 1) ds = .ok ms ∧
        ts = ls ++ ms := by
  rw [ofTwoLines]
  cases ofChars offset cs with
  | error e => simp [Except.bind]
  | ok ls =>
      cases ofChars (offset + utf8Length cs + 1) ds <;> simp [Except.bind, Except.map, eq_comm]

theorem ofTwoLines_eq_error_iff {offset : Nat} {cs ds : List Char} {e : StrayCharacter} :
    ofTwoLines offset cs ds = .error e ↔
      ofChars offset cs = .error e ∨
        ∃ ls, ofChars offset cs = .ok ls ∧
          ofChars (offset + utf8Length cs + 1) ds = .error e := by
  rw [ofTwoLines]
  cases ofChars offset cs with
  | error e' => simp [Except.bind]
  | ok ls => cases ofChars (offset + utf8Length cs + 1) ds <;> simp [Except.bind, Except.map]

end Located

/-! ### Offsets -/

/-- The span `n` bytes further on. -/
def Span.shift (n : Nat) (s : Span) : Span := ⟨n + s.start, n + s.stop⟩

def StrayCharacter.shift (n : Nat) (e : StrayCharacter) : StrayCharacter :=
  ⟨e.char, e.span.shift n⟩

/-- The message of a lexical error does not mention its span. -/
@[simp] theorem StrayCharacter.message_shift (n : Nat) (e : StrayCharacter) :
    (e.shift n).message = e.message := rfl

namespace Located

def shift (n : Nat) (t : Located) : Located := ⟨t.token, t.span.shift n⟩

theorem token_shift (n : Nat) (t : Located) : (t.shift n).token = t.token := rfl

/-- Shifts the spans in the outcome of the lexer by `n` bytes. -/
def shiftOutcome (n : Nat) :
    Except StrayCharacter (List Located) → Except StrayCharacter (List Located)
  | .ok ts => .ok (ts.map (shift n))
  | .error e => .error (e.shift n)

theorem shiftOutcome_eq_ok_iff {n : Nat} {r : Except StrayCharacter (List Located)}
    {ts : List Located} : shiftOutcome n r = .ok ts ↔ ∃ us, r = .ok us ∧ ts = us.map (shift n) := by
  cases r <;> simp [shiftOutcome, eq_comm]

theorem shiftOutcome_eq_error_iff {n : Nat} {r : Except StrayCharacter (List Located)}
    {e : StrayCharacter} : shiftOutcome n r = .error e ↔ ∃ f, r = .error f ∧ e = f.shift n := by
  cases r <;> simp [shiftOutcome, eq_comm]

/-- The classification of lexemes commutes with shifting offsets. -/
theorem ofLexemes_add (n offset : Nat) (ls : List Lexeme) :
    ofLexemes (n + offset) ls = shiftOutcome n (ofLexemes offset ls) := by
  induction ls generalizing offset with
  | nil => rfl
  | cons l ls ih =>
      have hrest := ih (offset + l.utf8Size)
      simp only [ofLexemes, Nat.add_assoc, hrest]
      cases l.reading? with
      | none => rfl
      | some reading =>
          cases reading with
          | layout => rfl
          | token t => cases ofLexemes (offset + l.utf8Size) ls <;> rfl

theorem ofChars_eq_shiftOutcome (offset : Nat) (cs : List Char) :
    ofChars offset cs = shiftOutcome offset (ofChars 0 cs) :=
  ofLexemes_add offset 0 (lexemes cs)

end Located

/-- Lexing splits at a line feed. A source lexes exactly if both parts do, and its tokens
are those of the first part followed by those of the second, shifted by the size of what
precedes them. Otherwise the error is that of the first part if it has one, and else that of
the second, shifted. -/
theorem ofSource_splits_at_newline (first second : String) :
    (∀ ts : List Located, Located.ofSource (first ++ "\n" ++ second) = .ok ts ↔
      ∃ ls ms, Located.ofSource first = .ok ls ∧ Located.ofSource second = .ok ms ∧
        ts = ls ++ ms.map (Located.shift (utf8Length first.toList + 1))) ∧
    ∀ e : StrayCharacter, Located.ofSource (first ++ "\n" ++ second) = .error e ↔
      Located.ofSource first = .error e ∨
      ∃ ls f, Located.ofSource first = .ok ls ∧ Located.ofSource second = .error f ∧
        e = f.shift (utf8Length first.toList + 1) ∧ e.message = f.message := by
  have hlines : Located.ofSource (first ++ "\n" ++ second) =
      Located.ofTwoLines 0 first.toList second.toList := by
    rw [Located.ofSource, String.toList_append, String.toList_append, List.append_assoc]
    exact Located.ofChars_append_newline 0 first.toList second.toList
  have hsecond : Located.ofChars (0 + utf8Length first.toList + 1) second.toList =
      Located.shiftOutcome (utf8Length first.toList + 1) (Located.ofSource second) := by
    rw [Nat.zero_add]
    exact Located.ofChars_eq_shiftOutcome _ second.toList
  refine ⟨fun ts => ?read, fun e => ?stray⟩
  case read =>
    rw [hlines, Located.ofTwoLines_eq_ok_iff, hsecond]
    constructor
    · rintro ⟨ls, ms, hls, hms, rfl⟩
      obtain ⟨us, hus, rfl⟩ := Located.shiftOutcome_eq_ok_iff.mp hms
      exact ⟨ls, us, hls, hus, rfl⟩
    · rintro ⟨ls, us, hls, hus, rfl⟩
      exact ⟨ls, _, hls, Located.shiftOutcome_eq_ok_iff.mpr ⟨us, hus, rfl⟩, rfl⟩
  case stray =>
    rw [hlines, Located.ofTwoLines_eq_error_iff, hsecond]
    refine or_congr Iff.rfl ⟨?_, ?_⟩
    · rintro ⟨ls, hls, he⟩
      obtain ⟨f, hf, rfl⟩ := Located.shiftOutcome_eq_error_iff.mp he
      exact ⟨ls, f, hls, hf, rfl, f.message_shift _⟩
    · rintro ⟨ls, f, hls, hf, rfl, -⟩
      exact ⟨ls, hls, Located.shiftOutcome_eq_error_iff.mpr ⟨f, hf, rfl⟩⟩

/-- The line feed closes the comment, and the digit is not a part of the name before it. -/
example : Located.ofSource ("$x# é" ++ "\n" ++ "1") = .error ⟨'1', 7, 8⟩ := by decide +kernel

/-! ### Rows -/

/-- `cs` lexes to the tokens `ts`, at any offset. -/
def Row (cs : List Char) (ts : List Token) : Prop :=
  ∃ l : Layout, l.IsProper ∧ l.chars = cs ∧ l.tokens = ts

namespace Row

variable {cs ds : List Char} {ts : List Token}

theorem iff_ofChars (offset : Nat) (cs : List Char) :
    Row cs ts ↔ ∃ ls, Located.ofChars offset cs = .ok ls ∧ ls.map Located.token = ts := by
  constructor
  · rintro ⟨l, hl, rfl, rfl⟩
    exact ⟨_, Layout.ofChars_chars hl offset, Placed.map_token_locate offset l.placed⟩
  · rintro ⟨ls, hls, rfl⟩
    obtain ⟨l, hl, rfl, rfl⟩ := Located.exists_layout_of_ofChars hls
    exact ⟨l, hl, rfl, (Placed.map_token_locate offset l.placed).symm⟩

theorem iff_ofSource {source : String} :
    Row source.toList ts ↔
      ∃ ls, Located.ofSource source = .ok ls ∧ ls.map Located.token = ts :=
  iff_ofChars 0 source.toList

theorem nil_iff : Row [] ts ↔ ts = [] := by
  rw [iff_ofChars 0 _, (Located.Scans.nil 0 []).ofChars_eq_ok]
  simp [eq_comm]

theorem append_newline_iff :
    Row (cs ++ '\n' :: ds) ts ↔ ∃ us vs, Row cs us ∧ Row ds vs ∧ ts = us ++ vs := by
  rw [iff_ofChars 0 _, Located.ofChars_append_newline]
  simp only [iff_ofChars 0 cs, iff_ofChars (0 + utf8Length cs + 1) ds,
    Located.ofTwoLines_eq_ok_iff]
  constructor
  · rintro ⟨_, ⟨ls, ms, hls, hms, rfl⟩, rfl⟩
    exact ⟨_, _, ⟨ls, hls, rfl⟩, ⟨ms, hms, rfl⟩, List.map_append⟩
  · rintro ⟨_, _, ⟨ls, hls, rfl⟩, ⟨ms, hms, rfl⟩, rfl⟩
    exact ⟨_, ⟨ls, ms, hls, hms, rfl⟩, List.map_append⟩

theorem mark_cons_iff {c : Char} {t : Token} (h : Token.ofMark? c = some t) :
    Row (c :: cs) ts ↔ ∃ us, Row cs us ∧ ts = t :: us := by
  have hscans : Located.Scans 0 [c] _ cs := .mark h
  rw [Located.Scans, List.singleton_append] at hscans
  rw [iff_ofChars 0 _, hscans]
  simp only [iff_ofChars (0 + utf8Length [c]) cs]
  cases Located.ofChars (0 + utf8Length [c]) cs with
  | error e => simp [Except.map]
  | ok us => simp [Except.map, eq_comm]

end Row

end GraphPattern
