import GraphPattern.Proofs.Parse.Settling
import GraphPattern.Proofs.Surface.Recognition
import Mathlib.Data.List.Basic

/-!
Syntax errors. A syntax error is reported at the first token that extends no viable prefix,
or at the end if all tokens form a viable prefix that is no sentence, and the expected
terminals are those that extend the viable prefix read so far. This holds of every
recognizer, and each parser reads with one.
-/

namespace GraphPattern

/-- The terminals that extend `ks` to a viable prefix: each once, and in the order of
messages. -/
structure Continues (L : Language Terminal) (ks expected : List Terminal) : Prop where
  mem_iff : ∀ t, t ∈ expected ↔ Viable L (ks ++ [t])
  sublist : expected.Sublist Terminal.all

namespace Error

def IsSyntax : Error → Prop
  | unexpectedToken _ _ | unexpectedEnd _ _ | invalidToken _ | trailingToken _ => True
  | _ => False

/-- The two syntax errors that list expected terminals. -/
def IsUnexpected : Error → Prop
  | unexpectedToken _ _ | unexpectedEnd _ _ => True
  | _ => False

theorem IsSyntax.ne_strayCharacter {e : Error} (he : e.IsSyntax) (c : StrayCharacter) :
    e ≠ .strayCharacter c := by
  rintro rfl
  exact he

theorem IsSyntax.ne_conflict {e : Error} (he : e.IsSyntax) (c : Conflict) : e ≠ .conflict c := by
  rintro rfl
  exact he

theorem IsSyntax.ne_clash {e : Error} (he : e.IsSyntax) (c : Clash) : e ≠ .clash c := by
  rintro rfl
  exact he

theorem isSyntax_syntaxAt (ts : List Located) (i : Nat) (expected : List Terminal) :
    (syntaxAt ts i expected).IsSyntax := by
  rw [syntaxAt]
  cases ts[i]? <;> trivial

theorem isUnexpected_syntaxAt (ts : List Located) (i : Nat) (expected : List Terminal) :
    (syntaxAt ts i expected).IsUnexpected := by
  rw [syntaxAt]
  cases ts[i]? <;> trivial

theorem isSyntax_unexpected {σ α : Type} (m : Automaton σ α) (ts : List Located)
    (stop : Stop σ) : (m.unexpected ts stop).IsSyntax := by
  rw [Automaton.unexpected]
  cases stop.rest <;> trivial

theorem not_isSyntax_of_mapError {ε β : Type} {x : Except ε β} {f : ε → Error}
    (hf : ∀ c, ¬ (f c).IsSyntax) {e : Error} (h : x.mapError f = .error e) : ¬ e.IsSyntax := by
  obtain ⟨c, -, rfl⟩ := mapError_eq_error_iff.mp h
  exact hf c

end Error

section Readers

variable {σ α β : Type} {m : Automaton σ α} {Derives : α → List Token → Prop}
  {value : α → Except Error β} {failure : List Located → Stop σ → Error}
  {ts : List Located} {e : Error}

/-- The syntax errors of a reader are at the break, if only the automaton raises them. -/
theorem Automaton.Recognizes.exists_syntaxAt (h : m.Recognizes Derives)
    (hvalue : ∀ a e, value a = .error e → ¬ e.IsSyntax)
    (hfailure : ∀ ts stop, (failure ts stop).IsSyntax → failure ts stop = m.unexpected ts stop)
    (hread : m.readWith value failure ts = .error e) (he : e.IsSyntax) :
    ∃ i expected, BreaksAt (sentences Derives) (kinds ts) i ∧
      e = Error.syntaxAt ts i expected ∧
      Continues (sentences Derives) ((kinds ts).take i) expected := by
  rcases h.readWith_eq_error_iff.mp hread with ⟨a, -, ha⟩ | ⟨stop, hrun, rfl⟩
  · exact absurd he (hvalue a e ha)
  · obtain ⟨i, hbreak, hat, hmem⟩ := h.exists_breaksAt hrun
    refine ⟨i, m.expected stop.state, hbreak, ?_, hmem, List.filter_sublist⟩
    rw [hfailure ts stop he, hat]

theorem Pattern.failure_of_isSyntax (ts : List Located) (stop : Stop Surface.PatternProgress)
    (h : (Pattern.failure ts stop).IsSyntax) :
    Pattern.failure ts stop = Surface.patternReader.unexpected ts stop := by
  rw [failure] at h ⊢
  cases hc : Surface.meanings stop.state.closed with
  | error c => simp [hc, Error.IsSyntax] at h
  | ok ss => rfl

theorem Pattern.exists_syntaxAt (hread : Pattern.ofTokens ts = .error e) (he : e.IsSyntax) :
    ∃ i expected, BreaksAt (sentences Surface.Pattern.Derives) (kinds ts) i ∧
      e = Error.syntaxAt ts i expected ∧
      Continues (sentences Surface.Pattern.Derives) ((kinds ts).take i) expected := by
  rw [ofTokens_eq] at hread
  refine Surface.patternReader_recognizes.exists_syntaxAt ?_ failure_of_isSyntax hread he
  intro f e
  exact Error.not_isSyntax_of_mapError fun _ => id

theorem Statement.exists_syntaxAt (hread : Statement.ofTokens ts = .error e) (he : e.IsSyntax) :
    ∃ i expected, BreaksAt (sentences Surface.Statement.Derives) (kinds ts) i ∧
      e = Error.syntaxAt ts i expected ∧
      Continues (sentences Surface.Statement.Derives) ((kinds ts).take i) expected := by
  rw [ofTokens_eq] at hread
  refine Surface.statementReader_recognizes.exists_syntaxAt ?_ (fun _ _ _ => rfl) hread he
  intro f e
  exact Error.not_isSyntax_of_mapError fun _ => id

theorem Relation.exists_syntaxAt (hread : Relation.ofTokens ts = .error e) (he : e.IsSyntax) :
    ∃ i expected, BreaksAt (sentences Surface.RelationDerives) (kinds ts) i ∧
      e = Error.syntaxAt ts i expected ∧
      Continues (sentences Surface.RelationDerives) ((kinds ts).take i) expected := by
  rw [ofTokens_eq] at hread
  refine Surface.relationReader_recognizes.exists_syntaxAt ?_ (fun _ _ _ => rfl) hread he
  intro as e h
  cases h

end Readers

/-! ### Parsers -/

/-- The places and expected terminals of a parser's syntax errors, for the language `L`. -/
structure LocatesSyntaxErrors {β : Type} (L : Language Terminal)
    (parse : String → Except Error β) : Prop where
  /-- An error on a token is at the first token that extends no viable prefix. -/
  token : ∀ {source ts t expected}, Located.ofSource source = .ok ts →
    parse source = .error (.unexpectedToken t expected) →
    ∃ k, ts[k]? = some t ∧ Viable L ((kinds ts).take k) ∧ ¬ Viable L ((kinds ts).take (k + 1)) ∧
      (Error.unexpectedToken t expected).span? = some t.span ∧
      Continues L ((kinds ts).take k) expected
  /-- An error at the end means that the tokens are a viable prefix and no sentence. -/
  ending : ∀ {source ts offset expected}, Located.ofSource source = .ok ts →
    parse source = .error (.unexpectedEnd offset expected) →
    Viable L (kinds ts) ∧ kinds ts ∉ L ∧
      offset = (ts.getLast?.elim 0 fun last => last.span.stop) ∧
      (Error.unexpectedEnd offset expected).span? = some ⟨offset, offset⟩ ∧
      Continues L (kinds ts) expected
  /-- No other kind of syntax error is reported. -/
  unexpected : ∀ {source e}, parse source = .error e → e.IsSyntax → e.IsUnexpected

section Parsers

variable {β : Type} {read : List Located → Except Error β} {check : β → Except Clash Unit}
  {source : String} {ts : List Located} {e : Error}

/-- Syntax errors are raised by the reading stage. -/
theorem read_eq_error_of_isSyntax (hts : Located.ofSource source = .ok ts)
    (herror : parseWith read check source = .error e) (he : e.IsSyntax) :
    read ts = .error e := by
  rcases (parseWith_eq_error_iff_of_ofSource hts).mp herror with hread | ⟨b, c, -, -, rfl⟩
  · exact hread
  · exact absurd he id

theorem LocatesSyntaxErrors.of_exists_syntaxAt {L : Language Terminal}
    (h : ∀ {ts e}, read ts = .error e → e.IsSyntax → ∃ i expected, BreaksAt L (kinds ts) i ∧
      e = Error.syntaxAt ts i expected ∧ Continues L ((kinds ts).take i) expected) :
    LocatesSyntaxErrors L (parseWith read check) where
  token {source ts t expected} hts herror := by
    obtain ⟨i, expected', hbreak, hat, hcontinues⟩ :=
      h (read_eq_error_of_isSyntax hts herror trivial) trivial
    -- The break is in front of the end, because the error is on a token.
    rw [Error.syntaxAt] at hat
    cases hi : ts[i]? with
    | none => simp [hi] at hat
    | some u =>
        obtain ⟨rfl, rfl⟩ : t = u ∧ expected = expected' := by simpa [hi] using hat
        have hlt : i < (kinds ts).length := by
          rw [length_kinds]
          exact (List.getElem?_eq_some_iff.mp hi).1
        have hbroken := hbreak.broken
        rw [if_pos hlt] at hbroken
        exact ⟨i, hi, hbreak.viable, hbroken, rfl, hcontinues⟩
  ending {source ts offset expected} hts herror := by
    obtain ⟨i, expected', hbreak, hat, hcontinues⟩ :=
      h (read_eq_error_of_isSyntax hts herror trivial) trivial
    rw [Error.syntaxAt] at hat
    cases hi : ts[i]? with
    | some u => simp [hi] at hat
    | none =>
        obtain ⟨rfl, rfl⟩ : offset = Located.endOf ts ∧ expected = expected' := by
          simpa [hi] using hat
        have hle : (kinds ts).length ≤ i := by
          rw [length_kinds]
          exact List.getElem?_eq_none_iff.mp hi
        have hbroken := hbreak.broken
        have hviable := hbreak.viable
        rw [if_neg (Nat.not_lt.mpr hle)] at hbroken
        rw [List.take_of_length_le hle] at hviable hcontinues
        refine ⟨hviable, hbroken, ?_, rfl, hcontinues⟩
        rw [Located.endOf]
        cases ts.getLast? <;> rfl
  unexpected {source e} herror he := by
    rcases parseWith_eq_error_iff.mp herror with ⟨c, -, rfl⟩ | ⟨ts, -, hread | ⟨b, c, -, -, rfl⟩⟩
    · exact absurd he id
    · obtain ⟨i, expected, -, rfl, -⟩ := h hread he
      exact Error.isUnexpected_syntaxAt ts i expected
    · exact absurd he id

end Parsers

theorem Pattern.locatesSyntaxErrors :
    LocatesSyntaxErrors (sentences Surface.Pattern.Derives) Pattern.parse := by
  rw [parse_eq]
  exact .of_exists_syntaxAt exists_syntaxAt

theorem Statement.locatesSyntaxErrors :
    LocatesSyntaxErrors (sentences Surface.Statement.Derives) Statement.parse := by
  rw [parse_eq]
  exact .of_exists_syntaxAt exists_syntaxAt

theorem Relation.locatesSyntaxErrors :
    LocatesSyntaxErrors (sentences Surface.RelationDerives) Relation.parse := by
  rw [parse_eq]
  exact .of_exists_syntaxAt exists_syntaxAt

/-! ### Wording

The message of a syntax error is its span followed by a complaint, which names the token
found, or the end of input, and lists the expected terminals. The complaints about an
invalid token and about a trailing token are never the whole message. -/

/-- The message of a syntax error with the given span and complaint. -/
def Error.syntaxText (s : Span) (complaint : String) : String :=
  "Parse error at " ++ (s.text ++ (": " ++ complaint))

theorem Span.colon_notMem_text (s : Span) : ':' ∉ s.text.toList := by
  have hdigits : ∀ n : Nat, ':' ∉ Nat.toDigits 10 n := by
    intro n h
    have hdigit := Nat.isDigit_of_mem_toDigits (by decide) (by decide) h
    simp at hdigit
  simp [Span.text, hdigits]

/-- The text of a span contains no colon, so a message determines what follows its first
colon. -/
theorem Span.eq_of_text_append_eq {s s' : Span} {xs ys : List Char}
    (h : s.text.toList ++ ':' :: xs = s'.text.toList ++ ':' :: ys) : xs = ys := by
  -- Up to the first colon there is exactly the text of the span.
  have hdrop : ∀ (s : Span) (zs : List Char),
      (s.text.toList ++ ':' :: zs).dropWhile (· != ':') = ':' :: zs := by
    intro s zs
    rw [List.dropWhile_append_of_pos]
    · rfl
    · intro c hc
      simpa using fun hcolon : c = ':' => s.colon_notMem_text (hcolon ▸ hc)
  have htail := congrArg (List.dropWhile (· != ':')) h
  rw [hdrop, hdrop] at htail
  exact List.tail_eq_of_cons_eq htail

namespace Error

theorem message_unexpectedToken (t : Located) (expected : List Terminal) :
    (unexpectedToken t expected).message =
      syntaxText t.span ("unexpected " ++ (quoted t.token.text ++ expectation expected)) := by
  unfold message syntaxText
  rw [← String.toList_inj]
  simp only [String.toList_append, List.append_assoc]
  rfl

theorem message_unexpectedEnd (offset : Nat) (expected : List Terminal) :
    (unexpectedEnd offset expected).message =
      syntaxText ⟨offset, offset⟩ ("unexpected end of input" ++ expectation expected) := by
  unfold message syntaxText
  rw [← String.toList_inj]
  simp only [String.toList_append, List.append_assoc]
  rfl

/-- The complaint is determined by the message. -/
theorem eq_of_syntaxText_eq {s s' : Span} {x y : String} (h : syntaxText s x = syntaxText s' y) :
    x = y := by
  unfold syntaxText at h
  have hchars := congrArg String.toList h
  simp only [String.toList_append] at hchars
  have hbehind := Span.eq_of_text_append_eq (List.append_cancel_left hchars)
  exact String.toList_inj.mp (List.cons.inj hbehind).2

/-- Only syntax errors have messages of this form. -/
theorem isSyntax_of_message {e : Error} {x : String} (h : e.message = "Parse error at " ++ x) :
    e.IsSyntax := by
  have hchars := congrArg String.toList h
  unfold message at hchars
  cases e with
  | missingArgument a => simp at hchars
  | strayCharacter c => simp at hchars
  | conflict c => simp at hchars
  | clash c => simp at hchars
  | _ => trivial

/-- The two complaints of such an error. -/
theorem IsUnexpected.eq_of_message_eq_syntaxText {e : Error} (he : e.IsUnexpected) {s : Span}
    {x : String} (h : e.message = syntaxText s x) :
    (∃ t expected, e = .unexpectedToken t expected ∧
        x = "unexpected " ++ (quoted t.token.text ++ expectation expected)) ∨
      ∃ offset expected, e = .unexpectedEnd offset expected ∧
        x = "unexpected end of input" ++ expectation expected := by
  cases e with
  | unexpectedToken t expected =>
      have hsame := h.symm.trans (message_unexpectedToken t expected)
      exact .inl ⟨t, expected, rfl, eq_of_syntaxText_eq hsame⟩
  | unexpectedEnd offset expected =>
      have hsame := h.symm.trans (message_unexpectedEnd offset expected)
      exact .inr ⟨offset, expected, rfl, eq_of_syntaxText_eq hsame⟩
  | _ => exact absurd he id

section Wording

variable {e : Error} (he : e.IsSyntax → e.IsUnexpected)
include he

theorem message_ne_invalid (s : Span) : e.message ≠ syntaxText s "invalid token" := by
  intro h
  rcases (he (isSyntax_of_message h)).eq_of_message_eq_syntaxText h with
    ⟨t, expected, -, hx⟩ | ⟨offset, expected, -, hx⟩
  all_goals simpa using congrArg String.toList hx

theorem message_ne_trailing (s : Span) (t : Token) :
    e.message ≠ syntaxText s ("unexpected trailing " ++ quoted t.text) := by
  intro h
  rcases (he (isSyntax_of_message h)).eq_of_message_eq_syntaxText h with
    ⟨u, expected, -, hx⟩ | ⟨offset, expected, -, hx⟩
  all_goals simpa [quoted] using congrArg String.toList hx

end Wording

end Error

end GraphPattern
