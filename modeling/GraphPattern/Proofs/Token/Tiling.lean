import GraphPattern.Proofs.Token.Opening

/-!
Tiling. A source that lexes is a proper layout of its tokens. So it consists of the texts of
the tokens, at their spans, and gaps between them. Each token is a longest match: where the
gap behind it is empty, the next character does not continue it.
-/

namespace GraphPattern

/-! ### Taking a source apart -/

namespace Layout

variable {l : Layout} {gap : List Char}

/-- The layout with a longer first gap. -/
def indent (gap : List Char) : Layout → Layout
  | ⟨[], last⟩ => ⟨[], gap ++ last⟩
  | ⟨p :: ps, last⟩ => ⟨⟨gap ++ p.gap, p.token⟩ :: ps, last⟩

theorem chars_indent (gap : List Char) (l : Layout) : (l.indent gap).chars = gap ++ l.chars := by
  obtain ⟨ps, last⟩ := l
  cases ps <;> simp [indent, chars, Placed.chars]

theorem locate_indent (gap : List Char) (l : Layout) (offset : Nat) :
    Placed.locate offset (l.indent gap).placed =
      Placed.locate (offset + utf8Length gap) l.placed := by
  obtain ⟨ps, last⟩ := l
  cases ps <;> simp [indent, Placed.locate, Nat.add_assoc]

theorem IsProper.indent (h : l.IsProper) (hgap : IsGap gap) : (l.indent gap).IsProper := by
  obtain ⟨ps, last⟩ := l
  cases ps with
  | nil => exact .nil (h.last.append hgap)
  | cons p ps =>
      obtain ⟨hwritable, hfirst, hapart, hproper⟩ := isProper_cons_iff.mp h
      exact isProper_cons_iff.mpr ⟨hwritable, hgap.append hfirst, hapart, hproper⟩

end Layout

namespace Located

variable {offset : Nat} {cs rest : List Char} {ls ts : List Located}

theorem Scans.ofChars_append_eq_ok (h : Scans offset cs ls rest)
    (hok : ofChars offset (cs ++ rest) = .ok ts) :
    ∃ us, ofChars (offset + utf8Length cs) rest = .ok us ∧ ts = ls ++ us := by
  rw [Scans] at h
  rw [h] at hok
  cases hrest : ofChars (offset + utf8Length cs) rest with
  | error e => simp [hrest, Except.map] at hok
  | ok us => exact ⟨us, rfl, by simpa [hrest, Except.map, eq_comm] using hok⟩

theorem Scans.ofChars_append_eq_error {e : StrayCharacter} (h : Scans offset cs ls rest)
    (herror : ofChars offset (cs ++ rest) = .error e) :
    ofChars (offset + utf8Length cs) rest = .error e := by
  rw [Scans] at h
  rw [h] at herror
  cases hrest : ofChars (offset + utf8Length cs) rest with
  | error e' => simpa [hrest, Except.map] using herror
  | ok us => simp [hrest, Except.map] at herror

/-- A source that lexes is a proper layout of its tokens. -/
theorem exists_layout_of_ofChars (h : ofChars offset cs = .ok ts) :
    ∃ l : Layout, l.IsProper ∧ l.chars = cs ∧ Placed.locate offset l.placed = ts := by
  induction cs using source_induction generalizing offset ts with
  | nil =>
      obtain rfl : [] = ts := by simpa [ofChars, ofLexemes] using h
      exact ⟨⟨[], []⟩, .nil (.gap .nil), rfl, rfl⟩
  | gap g cs hgap ih =>
      obtain ⟨us, hus, rfl⟩ := (Scans.gap hgap).ofChars_append_eq_ok h
      obtain ⟨l, hl, rfl, rfl⟩ := ih hus
      exact ⟨l.indent g, hl.indent hgap, l.chars_indent g, l.locate_indent g offset⟩
  | lastComment text htext =>
      have hlast : IsLastGap (Lexeme.commentSign :: text) := IsLastGap.comment .nil htext
      obtain rfl : [] = ts := by simpa [(Scans.lastGap hlast).ofChars_eq_ok] using h
      exact ⟨⟨[], Lexeme.commentSign :: text⟩, .nil hlast, rfl, rfl⟩
  | token t cs ht hcs ih =>
      obtain ⟨us, hus, rfl⟩ := (Scans.written ht hcs).ofChars_append_eq_ok h
      obtain ⟨⟨ps, last⟩, hl, rfl, rfl⟩ := ih hus
      refine ⟨⟨⟨[], t⟩ :: ps, last⟩, Layout.isProper_cons_iff.mpr ⟨ht, .nil, hcs, hl⟩, ?_, rfl⟩
      simp [Layout.chars, Placed.chars]
  | stray c cs hc =>
      rw [hc.ofChars_eq offset] at h
      cases h

/-- A source lexes exactly if it is a proper layout. -/
theorem ofSource_eq_ok_iff {source : String} :
    ofSource source = .ok ts ↔ ∃ l : Layout, l.IsProper ∧ l.text = source ∧ l.located = ts := by
  constructor
  · intro h
    obtain ⟨l, hl, hchars, hlocated⟩ := exists_layout_of_ofChars h
    exact ⟨l, hl, by rw [Layout.text, hchars, String.ofList_toList], hlocated⟩
  · rintro ⟨l, hl, rfl, rfl⟩
    exact Layout.ofSource_text hl

/-- The tokens of a source are writable. -/
theorem isWritable_of_ofSource {source : String} (h : ofSource source = .ok ts) :
    ∀ t ∈ ts.map token, t.IsWritable := by
  obtain ⟨l, hl, -, rfl⟩ := ofSource_eq_ok_iff.mp h
  rw [l.map_token_located]
  exact List.forall_mem_map.mpr hl.writable

end Located

/-! ### Spans

A span covers a piece of the source if the bytes of the span are those of the piece, so it
begins and ends at character boundaries. The text behind a span is well defined, since
prefixes of equal size are equal. -/

/-- The bytes of the span are those of `piece`. -/
def Span.Covers (s : Span) (cs piece : List Char) : Prop :=
  ∃ before after, cs = before ++ piece ++ after ∧ s.start = utf8Length before ∧
    s.stop = utf8Length (before ++ piece)

theorem append_inj_of_utf8Length_eq {as bs cs ds : List Char} (h : as ++ bs = cs ++ ds)
    (hlength : utf8Length as = utf8Length cs) : as = cs ∧ bs = ds := by
  induction as generalizing cs with
  | nil =>
      cases cs with
      | nil => exact ⟨rfl, h⟩
      | cons c cs =>
          have hpos := c.utf8Size_pos
          simp only [utf8Length_nil, utf8Length_cons] at hlength
          omega
  | cons a as ih =>
      cases cs with
      | nil =>
          have hpos := a.utf8Size_pos
          simp only [utf8Length_nil, utf8Length_cons] at hlength
          omega
      | cons c cs =>
          rw [List.cons_append, List.cons_append] at h
          obtain ⟨rfl, hrest⟩ := List.cons.inj h
          obtain ⟨rfl, hbs⟩ := ih hrest (Nat.add_left_cancel hlength)
          exact ⟨rfl, hbs⟩

namespace Placed

variable {offset : Nat} {ps : List Placed}

/-- A located token of a layout splits the layout into the pieces before it, its own piece
and the rest. -/
theorem exists_split_of_locate {before after : List Located} {t : Located}
    (h : locate offset ps = before ++ t :: after) :
    ∃ (qs : List Placed) (p : Placed) (rs : List Placed),
      ps = qs ++ p :: rs ∧ before = locate offset qs ∧
        t = ⟨p.token, offset + utf8Length (qs.flatMap chars ++ p.gap),
          offset + utf8Length (qs.flatMap chars ++ p.chars)⟩ := by
  induction before generalizing offset ps with
  | nil =>
      cases ps with
      | nil => cases h
      | cons p ps =>
          obtain ⟨rfl, -⟩ := List.cons.inj h
          exact ⟨[], p, ps, rfl, rfl, rfl⟩
  | cons b before ih =>
      cases ps with
      | nil => cases h
      | cons q ps =>
          obtain ⟨rfl, hrest⟩ := List.cons.inj h
          obtain ⟨qs, p, rs, rfl, rfl, rfl⟩ := ih hrest
          refine ⟨q :: qs, p, rs, rfl, rfl, ?_⟩
          simp only [List.flatMap_cons, List.append_assoc, utf8Length_append, Nat.add_assoc]

theorem isChain_locate (offset : Nat) (ps : List Placed) :
    (locate offset ps).IsChain fun t u => t.span.stop ≤ u.span.start := by
  induction ps generalizing offset with
  | nil => exact .nil
  | cons p ps ih =>
      refine List.isChain_cons.mpr ⟨?_, ih _⟩
      intro u hu
      cases ps with
      | nil => cases hu
      | cons q ps =>
          cases hu
          exact Nat.le_add_right _ _

theorem getLast?_locate (offset : Nat) (ps : List Placed) :
    ((locate offset ps).getLast?.elim offset fun t => t.span.stop) =
      offset + utf8Length (ps.flatMap chars) := by
  induction ps generalizing offset with
  | nil => rfl
  | cons p ps ih =>
      have hrest := ih (offset + utf8Length p.chars)
      rw [locate, List.getLast?_cons, List.flatMap_cons, utf8Length_append, ← Nat.add_assoc,
        ← hrest]
      cases (locate (offset + utf8Length p.chars) ps).getLast? <;> rfl

end Placed

namespace Located

theorem endOf_locate (ps : List Placed) :
    endOf (Placed.locate 0 ps) = utf8Length (ps.flatMap Placed.chars) := by
  rw [← Nat.zero_add (utf8Length _), ← Placed.getLast?_locate 0 ps, endOf]
  cases (Placed.locate 0 ps).getLast? <;> rfl

/-! ### Tiles -/

/-- `cs` consists of the tokens `ts`, at their spans, and gaps between them. -/
structure Tiles (cs : List Char) (ts : List Located) : Prop where
  /-- A token covers its span, which is not empty. -/
  covers : ∀ t ∈ ts, t.span.Covers cs t.token.chars ∧ t.span.start < t.span.stop
  ordered : ts.IsChain fun t u => t.span.stop ≤ u.span.start
  /-- The text between two tokens, and in front of the first one, is a gap. -/
  gaps : ∀ before t after, ts = before ++ t :: after →
    ∃ gap, IsGap gap ∧ Span.Covers ⟨endOf before, t.span.start⟩ cs gap
  last : ∃ gap, IsLastGap gap ∧ Span.Covers ⟨endOf ts, utf8Length cs⟩ cs gap
  /-- Names are longest matches. -/
  longest : ∀ t ∈ ts, t.token.endsInName = true →
    ∀ c, Span.Covers ⟨t.span.stop, t.span.stop + c.utf8Size⟩ cs [c] → isNameChar c = false
  /-- Labels are not reserved words, and visible variables have names. -/
  writable : ∀ t ∈ ts, t.token.IsWritable

end Located

namespace Layout

variable {l : Layout} {qs rs : List Placed} {p : Placed}

/-- The text of a layout is cut at one of its tokens. -/
theorem chars_eq_of_placed_eq (h : l.placed = qs ++ p :: rs) :
    l.chars = qs.flatMap Placed.chars ++ p.gap ++ p.token.chars ++
      chars ⟨rs, l.last⟩ := by
  simp [chars, h, Placed.chars]

theorem IsProper.of_placed_eq (hl : l.IsProper) (h : l.placed = qs ++ p :: rs) :
    IsProper ⟨p :: rs, l.last⟩ := by
  obtain ⟨hwritable, hgaps, hlast, hseparated⟩ := hl
  rw [h] at hwritable hgaps hseparated
  exact ⟨fun q hq => hwritable q (List.mem_append_right qs hq),
    fun q hq => hgaps q (List.mem_append_right qs hq), hlast, hseparated.right_of_append⟩

theorem exists_split_of_mem_located {t : Located} (ht : t ∈ l.located) :
    ∃ (qs : List Placed) (p : Placed) (rs : List Placed), l.placed = qs ++ p :: rs ∧
      t = ⟨p.token, utf8Length (qs.flatMap Placed.chars ++ p.gap),
        utf8Length (qs.flatMap Placed.chars ++ p.chars)⟩ := by
  obtain ⟨before, after, hsplit⟩ := List.append_of_mem ht
  obtain ⟨qs, p, rs, hplaced, -, rfl⟩ := Placed.exists_split_of_locate hsplit
  exact ⟨qs, p, rs, hplaced, by simp only [Nat.zero_add]⟩

theorem tiles_located (h : l.IsProper) : Located.Tiles l.chars l.located where
  covers := by
    intro t ht
    obtain ⟨qs, p, rs, hplaced, rfl⟩ := exists_split_of_mem_located ht
    obtain ⟨hwritable, -⟩ := isProper_cons_iff.mp (h.of_placed_eq hplaced)
    obtain ⟨c, cs, hchars, -⟩ := Token.exists_chars_eq hwritable
    have hpos := c.utf8Size_pos
    refine ⟨⟨_, _, chars_eq_of_placed_eq hplaced, rfl, ?_⟩, ?_⟩
    · rw [List.append_assoc]
      rfl
    · simp only [utf8Length_append, Placed.utf8Length_chars, hchars, utf8Length_cons]
      omega
  ordered := Placed.isChain_locate 0 l.placed
  gaps := by
    rintro before t after hsplit
    obtain ⟨qs, p, rs, hplaced, rfl, rfl⟩ := Placed.exists_split_of_locate hsplit
    obtain ⟨-, hgap, -⟩ := isProper_cons_iff.mp (h.of_placed_eq hplaced)
    refine ⟨p.gap, hgap, qs.flatMap Placed.chars, p.token.chars ++ chars ⟨rs, l.last⟩, ?_,
      Located.endOf_locate qs, Nat.zero_add _⟩
    rw [chars_eq_of_placed_eq hplaced, List.append_assoc _ p.token.chars]
  last := ⟨l.last, h.last, l.placed.flatMap Placed.chars, [], by rw [List.append_nil]; rfl,
    Located.endOf_locate l.placed, rfl⟩
  longest := by
    intro t ht hends c hc
    obtain ⟨qs, p, rs, hplaced, rfl⟩ := exists_split_of_mem_located ht
    obtain ⟨-, -, hapart, -⟩ := isProper_cons_iff.mp (h.of_placed_eq hplaced)
    obtain ⟨before, after, hcut, hstart, -⟩ := hc
    have hchars := chars_eq_of_placed_eq hplaced
    rw [hcut, List.append_assoc before, List.append_assoc _ p.gap] at hchars
    -- The text behind the token is the text behind its span.
    obtain ⟨-, hrest⟩ := append_inj_of_utf8Length_eq hchars hstart.symm
    refine hapart hends c ?_
    rw [← hrest]
    rfl
  writable := by
    intro t ht
    obtain ⟨qs, p, rs, hplaced, rfl⟩ := exists_split_of_mem_located ht
    exact (isProper_cons_iff.mp (h.of_placed_eq hplaced)).1

end Layout

/-- A source that lexes is tiled by its tokens and the gaps between them, and each token is
a longest match. -/
theorem Located.tiles_of_ofSource (source : String) (ts : List Located)
    (h : Located.ofSource source = .ok ts) : Located.Tiles source.toList ts := by
  obtain ⟨l, hl, rfl, rfl⟩ := Located.ofSource_eq_ok_iff.mp h
  rw [Layout.text, String.toList_ofList]
  exact Layout.tiles_located hl

/-- A comment with characters of several bytes, and tokens without gaps between them. -/
theorem Located.tiles_of_ofSource_comment :
    Located.Tiles "isabel# é$\n$_-isa:$_".toList
      [⟨.label "isabel", 0, 6⟩, ⟨.var (.visible "_-isa"), 12, 18⟩, ⟨.colon, 18, 19⟩,
        ⟨.var .anonymous, 19, 21⟩] :=
  Located.tiles_of_ofSource _ _ (by decide +kernel)

end GraphPattern
