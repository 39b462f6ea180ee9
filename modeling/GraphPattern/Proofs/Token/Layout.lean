import GraphPattern.Proofs.Token.Scan
import Mathlib.Data.List.Chain

/-!
Layouts. A layout is a row of tokens with the gaps between them, which consist of blanks and
comments. It is proper if no gap is empty where a token would continue the name in front of
it.

Proper layouts are exactly the sources without lexical errors, and they lex to their tokens.
Here a source is composed of pieces, each of which lexes on its own if the rest is apart
from it. The converse, which takes a source apart, is by an induction over sources.
-/

namespace GraphPattern

/-! ### Gaps -/

/-- Blanks and comments, each comment with the end of its line. -/
inductive IsGap : List Char → Prop
  | nil : IsGap []
  | blank {c : Char} {cs : List Char} (hc : isBlank c = true) (hcs : IsGap cs) : IsGap (c :: cs)
  | comment {text cs : List Char} (htext : '\n' ∉ text) (hcs : IsGap cs) :
      IsGap (Lexeme.commentSign :: text ++ '\n' :: cs)

/-- The gap behind the last token, in which the end of the source may close a comment. -/
inductive IsLastGap : List Char → Prop
  | gap {cs : List Char} (h : IsGap cs) : IsLastGap cs
  | comment {cs text : List Char} (h : IsGap cs) (htext : '\n' ∉ text) :
      IsLastGap (cs ++ Lexeme.commentSign :: text)

theorem IsGap.append {cs ds : List Char} (hcs : IsGap cs) (hds : IsGap ds) : IsGap (cs ++ ds) := by
  induction hcs with
  | nil => exact hds
  | blank hc _ ih => exact .blank hc ih
  | comment htext _ ih =>
      rw [List.append_assoc, List.cons_append]
      exact .comment htext ih

theorem IsLastGap.append {cs ds : List Char} (hcs : IsGap cs) (hds : IsLastGap ds) :
    IsLastGap (cs ++ ds) := by
  cases hds with
  | gap hds => exact .gap (hcs.append hds)
  | comment hds htext =>
      rw [← List.append_assoc]
      exact .comment (hcs.append hds) htext

theorem isNameChar_of_isBlank {c : Char} (h : isBlank c = true) : isNameChar c = false := by
  rcases isBlank_iff.mp h with rfl | rfl | rfl | rfl | rfl
  all_goals decide

theorem IsGap.apart {cs : List Char} (h : IsGap cs) : Apart cs := by
  cases h with
  | nil => exact .nil
  | blank hc _ => exact .cons (isNameChar_of_isBlank hc) _
  | comment _ _ => exact .cons rfl _

theorem IsLastGap.apart {cs : List Char} (h : IsLastGap cs) : Apart cs := by
  cases h with
  | gap h => exact h.apart
  | comment h _ => exact h.apart.append (.cons rfl _)

/-! ### Layouts -/

/-- A token and the gap in front of it. -/
structure Placed where
  gap : List Char
  token : Token
  deriving DecidableEq

/-- Tokens with the gaps in front of them and the gap behind the last. -/
structure Layout where
  placed : List Placed
  last : List Char
  deriving DecidableEq

/-- Whether a token ends in a name character, which a word behind it would continue. -/
def Token.endsInName : Token → Bool
  | matchWord | isaWord | typeWord | var _ | label _ => true
  | parenOpen | parenClose | comma | colon | semicolon => false

/-- Whether a token begins with a name character. -/
def Token.beginsInName : Token → Bool
  | matchWord | isaWord | typeWord | label _ => true
  | var _ | parenOpen | parenClose | comma | colon | semicolon => false

def Placed.chars (p : Placed) : List Char := p.gap ++ p.token.chars

/-- The tokens of placed tokens that begin at byte `offset`, with their spans. -/
def Placed.locate (offset : Nat) : List Placed → List Located
  | [] => []
  | p :: ps =>
    ⟨p.token, offset + utf8Length p.gap, offset + utf8Length p.chars⟩ ::
      locate (offset + utf8Length p.chars) ps

namespace Layout

def tokens (l : Layout) : List Token := l.placed.map Placed.token

def chars (l : Layout) : List Char := l.placed.flatMap Placed.chars ++ l.last

/-- The source of a layout. -/
def text (l : Layout) : String := String.ofList l.chars

/-- The tokens of a layout with their spans. -/
def located (l : Layout) : List Located := Placed.locate 0 l.placed

/-- A proper layout: tokens are writable, gaps are well-formed, and none is empty between a
name and a token that would continue it. -/
structure IsProper (l : Layout) : Prop where
  writable : ∀ p ∈ l.placed, p.token.IsWritable
  gaps : ∀ p ∈ l.placed, IsGap p.gap
  last : IsLastGap l.last
  separated : l.placed.IsChain fun p q =>
    p.token.endsInName = true → q.token.beginsInName = true → q.gap ≠ []

end Layout

theorem Placed.map_token_locate (offset : Nat) (ps : List Placed) :
    (locate offset ps).map Located.token = ps.map Placed.token := by
  induction ps generalizing offset with
  | nil => rfl
  | cons p ps ih => rw [locate, List.map_cons, ih, List.map_cons]

theorem Layout.map_token_located (l : Layout) : l.located.map Located.token = l.tokens :=
  Placed.map_token_locate 0 l.placed

@[simp] theorem Placed.utf8Length_chars (p : Placed) :
    utf8Length p.chars = utf8Length p.gap + utf8Length p.token.chars :=
  utf8Length_append _ _

/-! ### Separation

A gap is apart from everything before it, and so is a token unless it begins with a name
character. So a layout is proper if each token is apart from the text that follows it. -/

/-- A token has a first character. -/
theorem Token.exists_chars_eq {t : Token} (h : t.IsWritable) :
    ∃ c cs, t.chars = c :: cs ∧ isNameChar c = t.beginsInName := by
  cases t with
  | var v => cases v <;> exact ⟨'$', _, rfl, rfl⟩
  | label name =>
      have hword := h.word
      obtain ⟨c, cs, hname⟩ : ∃ c cs, name.toList = c :: cs := by
        refine List.exists_cons_of_ne_nil ?_
        intro hnil
        rw [hnil] at hword
        exact hword
      rw [hname] at hword
      exact ⟨c, cs, hname, isNameChar_of_isLabelStart hword.1⟩
  | _ => exact ⟨_, _, rfl, rfl⟩

theorem Layout.apart_chars_iff {ps : List Placed} {last : List Char}
    (h : Layout.IsProper ⟨ps, last⟩) :
    Apart (Layout.chars ⟨ps, last⟩) ↔
      ∀ q ∈ ps.head?, q.token.beginsInName = true → q.gap ≠ [] := by
  cases ps with
  | nil => exact iff_of_true h.last.apart nofun
  | cons q ps =>
      obtain ⟨c, cs, hchars, hname⟩ := Token.exists_chars_eq (h.writable q List.mem_cons_self)
      have hgap := (h.gaps q List.mem_cons_self).apart
      simp only [Layout.chars, List.flatMap_cons, Placed.chars, hchars, List.head?_cons,
        Option.mem_some_iff, forall_eq']
      cases hq : q.gap with
      | cons d ds =>
          rw [hq] at hgap
          exact iff_of_true hgap fun _ => List.cons_ne_nil d ds
      | nil =>
          rw [← hname]
          constructor
          · intro hapart hc
            rw [hapart c rfl] at hc
            cases hc
          · intro hc x hx
            cases hx
            rw [← Bool.not_eq_true]
            exact fun hx => hc hx rfl

/-- A layout without tokens. -/
theorem Layout.IsProper.nil {last : List Char} (h : IsLastGap last) :
    Layout.IsProper ⟨[], last⟩ where
  writable := List.forall_mem_nil _
  gaps := List.forall_mem_nil _
  last := h
  separated := .nil

/-- Properness by recursion from the end: each token is apart from the text that follows it.
-/
theorem Layout.isProper_cons_iff {p : Placed} {ps : List Placed} {last : List Char} :
    Layout.IsProper ⟨p :: ps, last⟩ ↔
      p.token.IsWritable ∧ IsGap p.gap ∧
        (p.token.endsInName = true → Apart (Layout.chars ⟨ps, last⟩)) ∧
        Layout.IsProper ⟨ps, last⟩ := by
  constructor
  · rintro ⟨hwritable, hgaps, hlast, hseparated⟩
    rw [List.forall_mem_cons] at hwritable hgaps
    obtain ⟨hfirst, hrest⟩ := List.isChain_cons.mp hseparated
    have hproper : Layout.IsProper ⟨ps, last⟩ := ⟨hwritable.2, hgaps.2, hlast, hrest⟩
    refine ⟨hwritable.1, hgaps.1, fun hends => ?_, hproper⟩
    exact (Layout.apart_chars_iff hproper).mpr fun q hq => hfirst q hq hends
  · rintro ⟨hwritable, hgap, hapart, hproper⟩
    refine ⟨List.forall_mem_cons.mpr ⟨hwritable, hproper.writable⟩,
      List.forall_mem_cons.mpr ⟨hgap, hproper.gaps⟩, hproper.last, ?_⟩
    refine List.isChain_cons.mpr ⟨fun q hq hends => ?_, hproper.separated⟩
    exact (Layout.apart_chars_iff hproper).mp (hapart hends) q hq

/-! ### Lexing a layout -/

namespace Located.Scans

variable {offset : Nat} {cs rest : List Char}

/-- A comment ends at a line feed or at the end of the source. -/
theorem comment {text : List Char} (htext : '\n' ∉ text) (hrest : ∀ x ∈ rest.head?, x = '\n') :
    Scans offset (Lexeme.commentSign :: text) [] rest := by
  refine layout (l := ⟨Lexeme.commentSign, text⟩) ⟨?_, ?_⟩ rfl
  · intro x hx
    exact bne_iff_ne.mpr fun h => htext (h ▸ hx)
  · intro x hx
    rw [hrest x hx]
    rfl

theorem gap (h : IsGap cs) : Scans offset cs [] rest := by
  induction h generalizing offset with
  | nil => exact nil offset rest
  | blank hc _ ih => exact append (blank hc) ih
  | comment htext _ ih =>
      refine append (comment htext ?_) (append (blank rfl : Scans _ ['\n'] [] _) ih)
      rintro x ⟨⟩
      rfl

theorem lastGap (h : IsLastGap cs) : Scans offset cs [] [] := by
  cases h with
  | gap h => exact gap h
  | comment h htext => exact append (gap h) (comment htext nofun)

/-- A token lexes on its own in front of anything, unless it ends in a name and the rest
continues it. -/
theorem written {t : Token} (h : t.IsWritable) (hrest : t.endsInName = true → Apart rest) :
    Scans offset t.chars [⟨t, offset, offset + utf8Length t.chars⟩] rest := by
  cases t with
  | parenOpen | parenClose | comma | colon | semicolon => exact mark rfl
  | _ => exact chars h (hrest rfl)

theorem placed {p : Placed} (hgap : IsGap p.gap) (h : p.token.IsWritable)
    (hrest : p.token.endsInName = true → Apart rest) :
    Scans offset p.chars [⟨p.token, offset + utf8Length p.gap, offset + utf8Length p.chars⟩]
      rest := by
  rw [Placed.utf8Length_chars, ← Nat.add_assoc]
  exact append (gap hgap) (written h hrest)

theorem layout_chars {ps : List Placed} {last : List Char} (h : Layout.IsProper ⟨ps, last⟩) :
    Scans offset (Layout.chars ⟨ps, last⟩) (Placed.locate offset ps) [] := by
  induction ps generalizing offset with
  | nil => exact lastGap h.last
  | cons p ps ih =>
      obtain ⟨hwritable, hgap, hapart, hproper⟩ := Layout.isProper_cons_iff.mp h
      have hrest : Scans (offset + utf8Length p.chars) _ _ [] := ih hproper
      simp only [Layout.chars, List.flatMap_cons, List.append_assoc] at hapart hrest ⊢
      refine append (placed hgap hwritable ?_) hrest
      rwa [List.append_nil]

end Located.Scans

/-- A proper layout lexes to its tokens with their spans. -/
theorem Layout.ofChars_chars {l : Layout} (h : l.IsProper) (offset : Nat) :
    Located.ofChars offset l.chars = .ok (Placed.locate offset l.placed) :=
  (Located.Scans.layout_chars h).ofChars_eq_ok

theorem Layout.ofSource_text {l : Layout} (h : l.IsProper) :
    Located.ofSource l.text = .ok l.located := by
  rw [Located.ofSource, Layout.text, String.toList_ofList]
  exact Layout.ofChars_chars h 0

end GraphPattern
