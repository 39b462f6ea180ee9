import GraphPattern.Proofs.Token.Tiling
import Mathlib.Data.List.DropRight
import Mathlib.Data.Prod.Lex

/-!
Positions in closed form. The line of an offset is the number of line feeds before it plus
one, and the column is the number of characters since the last of them plus one. The fold
that computes a position maintains these two counts.

The characters before an offset are a prefix of the source, and longer prefixes have greater
positions. The order of positions rests on this: each character moves the position on,
within the line or to the next one.
-/

namespace GraphPattern

/-- The characters behind the last line feed. -/
def lastLine (cs : List Char) : List Char := cs.rtakeWhile (· != '\n')

theorem lastLine_concat (cs : List Char) (c : Char) :
    lastLine (cs ++ [c]) = if c = '\n' then [] else lastLine cs ++ [c] := by
  rw [lastLine, List.rtakeWhile_concat, lastLine]
  by_cases hc : c = '\n' <;> simp [hc]

theorem lastLine_append (cs ds : List Char) :
    lastLine (cs ++ ds) = if '\n' ∈ ds then lastLine ds else lastLine cs ++ ds := by
  induction ds using List.reverseRecOn with
  | nil => simp
  | append_singleton ds d ih =>
      rw [← List.append_assoc, lastLine_concat, lastLine_concat, ih]
      by_cases hd : d = '\n'
      · simp [hd]
      · by_cases hds : '\n' ∈ ds <;> simp [hd, hds, Ne.symm hd]

theorem lastLine_of_newline_notMem {cs : List Char} (h : '\n' ∉ cs) : lastLine cs = cs := by
  simpa [h, lastLine] using lastLine_append [] cs

namespace Position

/-- The position behind the characters `cs`, by counting. -/
def behind (cs : List Char) : Position := ⟨1 + cs.count '\n', 1 + (lastLine cs).length⟩

theorem behind_append_singleton (cs : List Char) (c : Char) :
    behind (cs ++ [c]) = (behind cs).advance c := by
  rw [behind, lastLine_concat, advance]
  by_cases hc : c = '\n'
  · simp [behind, hc, Nat.add_assoc]
  · simp [behind, hc, Nat.add_assoc]

theorem foldl_advance (cs : List Char) : cs.foldl advance origin = behind cs := by
  induction cs using List.reverseRecOn with
  | nil => rfl
  | append_singleton cs c ih =>
      rw [List.foldl_append, ih, behind_append_singleton]
      rfl

/-- The characters before an offset behind a prefix are the prefix followed by those before
the offset in the rest. -/
theorem before_append_add (as bs : List Char) (offset : Nat) :
    before (utf8Length as + offset) (as ++ bs) = as ++ before offset bs := by
  induction as with
  | nil => rw [utf8Length_nil, Nat.zero_add, List.nil_append, List.nil_append]
  | cons a as ih =>
      have hpos := a.utf8Size_pos
      obtain ⟨n, hn⟩ := Nat.exists_eq_add_one.mpr
        (Nat.add_pos_left hpos (utf8Length as + offset))
      have hrest : n + 1 - a.utf8Size = utf8Length as + offset := by omega
      rw [utf8Length_cons, Nat.add_assoc, hn, List.cons_append, before, hrest, ih,
        List.cons_append]

/-- The characters before the end of a prefix are the prefix. -/
theorem before_utf8Length (as bs : List Char) : before (utf8Length as) (as ++ bs) = as := by
  have hnone : before 0 bs = [] := by cases bs <;> rfl
  have hbefore := before_append_add as bs 0
  rwa [hnone, Nat.add_zero, List.append_nil] at hbefore

theorem atOffset_utf8Length (as bs : List Char) :
    atOffset (as ++ bs) (utf8Length as) = behind as := by
  rw [atOffset, before_utf8Length, foldl_advance]

end Position

namespace Span

variable {s : Span} {cs piece : List Char}

theorem Covers.bounded (h : s.Covers cs piece) : s.start ≤ s.stop ∧ s.stop ≤ utf8Length cs := by
  obtain ⟨before, after, rfl, hstart, hstop⟩ := h
  simp only [hstart, hstop, utf8Length_append]
  omega

/-- A span of whole characters has positions, which are given by counting. -/
theorem Covers.exists_positions {source : String} (h : s.Covers source.toList piece) :
    ∃ before after, source.toList = before ++ piece ++ after ∧ s.start = utf8Length before ∧
      s.positions? source = some (.behind before, .behind (before ++ piece)) := by
  have hbounded := h.bounded
  obtain ⟨before, after, hsource, hstart, hstop⟩ := h
  refine ⟨before, after, hsource, hstart, ?_⟩
  rw [positions?, if_pos hbounded, hstop, hstart, hsource, Position.atOffset_utf8Length,
    List.append_assoc, Position.atOffset_utf8Length]

end Span

/-! ### Characters that begin before an offset

An offset may lie between two characters, inside one of several bytes, or behind the end of
the source. In each case its position is that of the characters that begin before it. -/

/-- The characters of a source, of which the first begins at byte `offset`, each with the
byte at which it begins. -/
def charOffsets (offset : Nat) : List Char → List (Nat × Char)
  | [] => []
  | c :: cs => (offset, c) :: charOffsets (offset + c.utf8Size) cs

/-- The characters of a source that begin before a byte offset. -/
def charsBefore (offset : Nat) (cs : List Char) : List Char :=
  ((charOffsets 0 cs).filter fun b => b.1 < offset).map Prod.snd

theorem le_of_mem_charOffsets {offset : Nat} {cs : List Char} {b : Nat × Char}
    (h : b ∈ charOffsets offset cs) : offset ≤ b.1 := by
  induction cs generalizing offset with
  | nil => cases h
  | cons c cs ih =>
      rcases List.mem_cons.mp h with rfl | h
      · exact Nat.le_refl _
      · have hrest := ih h
        omega

namespace Position

theorem before_sub (offset stop : Nat) (cs : List Char) :
    before (stop - offset) cs =
      ((charOffsets offset cs).filter fun b => b.1 < stop).map Prod.snd := by
  induction cs generalizing offset with
  | nil => rw [before, charOffsets, List.filter_nil, List.map_nil]
  | cons c cs ih =>
      by_cases hstop : offset < stop
      · obtain ⟨n, hn⟩ := Nat.exists_eq_add_one.mpr (Nat.sub_pos_of_lt hstop)
        have hrest : n + 1 - c.utf8Size = stop - (offset + c.utf8Size) := by omega
        rw [hn, before, hrest, ih, charOffsets,
          List.filter_cons_of_pos (by simpa using hstop), List.map_cons]
      · -- Whatever is left begins at `offset` or later.
        have hnone : (charOffsets offset (c :: cs)).filter (fun b => b.1 < stop) = [] := by
          refine List.filter_eq_nil_iff.mpr fun b hb => ?_
          have hle := le_of_mem_charOffsets hb
          simp only [decide_eq_true_eq]
          omega
        have hzero : stop - offset = 0 := by omega
        rw [hnone, hzero]
        rfl

theorem before_eq_charsBefore (offset : Nat) (cs : List Char) :
    before offset cs = charsBefore offset cs :=
  before_sub 0 offset cs

theorem atOffset_eq_behind (cs : List Char) (offset : Nat) :
    atOffset cs offset = behind (charsBefore offset cs) := by
  rw [atOffset, foldl_advance, before_eq_charsBefore]

theorem before_isPrefix {offset offset' : Nat} (h : offset ≤ offset') (cs : List Char) :
    before offset cs <+: before offset' cs := by
  induction cs generalizing offset offset' with
  | nil =>
      rw [before]
      exact List.nil_prefix
  | cons c cs ih =>
      cases offset with
      | zero => exact List.nil_prefix
      | succ n =>
          obtain ⟨m, rfl⟩ := Nat.exists_eq_add_one.mpr (Nat.lt_of_lt_of_le n.succ_pos h)
          have hrest : n + 1 - c.utf8Size ≤ m + 1 - c.utf8Size := by omega
          exact (List.prefix_cons_inj c).mpr (ih hrest)

/-! ### Order -/

/-- Positions are ordered by their lines, and on one line by their columns. -/
instance : PartialOrder Position :=
  PartialOrder.lift (fun p => toLex (p.line, p.column)) fun p q h => by
    obtain ⟨hline, hcolumn⟩ := Prod.mk.inj (toLex.injective h)
    cases p
    cases q
    congr

theorem lt_iff {p q : Position} :
    p < q ↔ p.line < q.line ∨ p.line = q.line ∧ p.column < q.column :=
  Prod.Lex.toLex_lt_toLex

theorem lt_advance (p : Position) (c : Char) : p < p.advance c := by
  rw [lt_iff, advance]
  split
  · exact .inl (Nat.lt_succ_self _)
  · exact .inr ⟨rfl, Nat.lt_succ_self _⟩

/-- A longer prefix has a greater position. -/
theorem behind_lt_behind_append (as bs : List Char) (b : Char) :
    behind as < behind (as ++ b :: bs) := by
  -- The induction is from the end, where each character advances the position.
  induction bs using List.reverseRecOn with
  | nil =>
      rw [behind_append_singleton]
      exact lt_advance _ b
  | append_singleton bs c ih =>
      have hnext : behind (as ++ b :: bs) < behind (as ++ b :: bs ++ [c]) := by
        rw [behind_append_singleton]
        exact lt_advance _ c
      rw [← List.cons_append, ← List.append_assoc]
      exact ih.trans hnext

theorem eq_or_behind_lt {as bs : List Char} (h : as <+: bs) : as = bs ∨ behind as < behind bs := by
  obtain ⟨cs, rfl⟩ := h
  cases cs with
  | nil => exact .inl (List.append_nil as).symm
  | cons c cs => exact .inr (behind_lt_behind_append as cs c)

theorem atOffset_mono {offset offset' : Nat} (h : offset ≤ offset') (cs : List Char) :
    atOffset cs offset ≤ atOffset cs offset' := by
  rw [atOffset, atOffset, foldl_advance, foldl_advance]
  rcases eq_or_behind_lt (before_isPrefix h cs) with heq | hlt
  · rw [heq]
  · exact hlt.le

end Position

/-- The offset lies between two characters of the source, or at one of its ends. -/
def IsBoundary (cs : List Char) (offset : Nat) : Prop :=
  ∃ before, before <+: cs ∧ offset = utf8Length before

namespace Position

theorem atOffset_inj {cs : List Char} {offset offset' : Nat} (h : IsBoundary cs offset)
    (h' : IsBoundary cs offset') (heq : atOffset cs offset = atOffset cs offset') :
    offset = offset' := by
  obtain ⟨as, has, rfl⟩ := h
  obtain ⟨bs, hbs, rfl⟩ := h'
  have hposition {ds : List Char} (hds : ds <+: cs) : atOffset cs (utf8Length ds) = behind ds := by
    obtain ⟨rest, rfl⟩ := hds
    exact atOffset_utf8Length ds rest
  rw [hposition has, hposition hbs] at heq
  -- Of two prefixes of the source one extends the other.
  rcases List.prefix_or_prefix_of_prefix has hbs with hprefix | hprefix
  · rw [(eq_or_behind_lt hprefix).resolve_right heq.not_lt]
  · rw [(eq_or_behind_lt hprefix).resolve_right heq.not_gt]

/-! ### Concatenation -/

/-- The position `p` of a text behind the characters `cs`: its line is increased by the
lines of `cs`, and on the first line its column by the last line of `cs`. -/
def shift (cs : List Char) (p : Position) : Position :=
  ⟨cs.count '\n' + p.line, if p.line = 1 then (lastLine cs).length + p.column else p.column⟩

theorem behind_append (as bs : List Char) : behind (as ++ bs) = (behind bs).shift as := by
  rw [behind, lastLine_append, List.count_append, shift, behind]
  by_cases hbs : '\n' ∈ bs
  · have hcount : bs.count '\n' ≠ 0 := (List.count_pos_iff.mpr hbs).ne'
    simp [hbs, hcount, Nat.add_left_comm]
  · have hcount : bs.count '\n' = 0 := List.count_eq_zero_of_not_mem hbs
    have hlength : 1 + ((lastLine as).length + bs.length) =
        (lastLine as).length + (1 + bs.length) := by omega
    simp [hbs, hcount, lastLine_of_newline_notMem hbs, hlength, Nat.add_comm 1]

theorem atOffset_append_add (as bs : List Char) (offset : Nat) :
    atOffset (as ++ bs) (utf8Length as + offset) = (atOffset bs offset).shift as := by
  rw [atOffset, before_append_add, foldl_advance, behind_append, atOffset, foldl_advance]

end Position

theorem Span.positions?_eq_some_iff {s : Span} {source : String} {p q : Position} :
    s.positions? source = some (p, q) ↔
      (s.start ≤ s.stop ∧ s.stop ≤ utf8Length source.toList) ∧
        p = .atOffset source.toList s.start ∧ q = .atOffset source.toList s.stop := by
  rw [positions?]
  split
  · next h => simp [h, eq_comm]
  · next h => simp [h]

/-- A span has positions exactly if it lies in the source, and they are given by counting
the characters that begin before its ends. Positions are monotone in the offset, injective
on character boundaries, and shifted by a text in front of the source. -/
theorem positions_count_lines_and_columns :
    (∀ (source : String) (s : Span),
      ((s.positions? source).isSome = true ↔
        s.start ≤ s.stop ∧ s.stop ≤ utf8Length source.toList) ∧
      ∀ p q : Position, s.positions? source = some (p, q) →
        p = .atOffset source.toList s.start ∧ q = .atOffset source.toList s.stop ∧ p ≤ q) ∧
    (∀ (source : String) (offset : Nat), Position.atOffset source.toList offset =
      ⟨1 + (charsBefore offset source.toList).count '\n',
        1 + (lastLine (charsBefore offset source.toList)).length⟩) ∧
    (∀ (source : String) (offset offset' : Nat), offset ≤ offset' →
      Position.atOffset source.toList offset ≤ Position.atOffset source.toList offset') ∧
    (∀ (source : String) (offset offset' : Nat), IsBoundary source.toList offset →
      IsBoundary source.toList offset' → offset ≠ offset' →
        Position.atOffset source.toList offset ≠ Position.atOffset source.toList offset') ∧
    ∀ (first second : String) (offset : Nat),
      Position.atOffset (first ++ second).toList (utf8Length first.toList + offset) =
        (Position.atOffset second.toList offset).shift first.toList := by
  refine ⟨fun source s => ⟨?isSome, fun p q h => ?ends⟩, fun source => ?counted,
    fun source _ _ h => Position.atOffset_mono h source.toList,
    fun source _ _ h h' => mt (Position.atOffset_inj h h'), fun first second offset => ?shifted⟩
  case isSome =>
    rw [Span.positions?]
    split
    · next h => exact iff_of_true rfl h
    · next h => exact iff_of_false Bool.false_ne_true h
  case ends =>
    obtain ⟨⟨hle, -⟩, rfl, rfl⟩ := Span.positions?_eq_some_iff.mp h
    exact ⟨rfl, rfl, Position.atOffset_mono hle source.toList⟩
  case counted => exact Position.atOffset_eq_behind source.toList
  case shifted =>
    rw [String.toList_append]
    exact Position.atOffset_append_add first.toList second.toList offset

/-- The first offset lies inside a character of two bytes. The others are the boundaries in
front of the sign of the variable and behind it. -/
theorem positions_count_lines_and_columns_wide :
    Span.positions? ⟨1, 4⟩ "é\n$x" = some (⟨1, 2⟩, ⟨2, 2⟩) ∧
      (⟨1, 2⟩ : Position) ≤ ⟨2, 2⟩ ∧
      Position.atOffset "é\n$x".toList 3 ≤ Position.atOffset "é\n$x".toList 4 ∧
      Position.atOffset "é\n$x".toList 3 ≠ Position.atOffset "é\n$x".toList 4 := by
  obtain ⟨hspan, -, hmono, hboundaries, -⟩ := positions_count_lines_and_columns
  have hpositions : Span.positions? ⟨1, 4⟩ "é\n$x" = some (⟨1, 2⟩, ⟨2, 2⟩) := by decide +kernel
  have hfront : IsBoundary "é\n$x".toList 3 := ⟨"é\n".toList, ⟨"$x".toList, rfl⟩, by decide⟩
  have hbehind : IsBoundary "é\n$x".toList 4 := ⟨"é\n$".toList, ⟨"x".toList, rfl⟩, by decide⟩
  obtain ⟨-, -, hordered⟩ := (hspan _ _).2 _ _ hpositions
  exact ⟨hpositions, hordered, hmono _ 3 4 (by decide),
    hboundaries _ 3 4 hfront hbehind (by decide)⟩

end GraphPattern
