import GraphPattern.Proofs.Parse.Precedence
import GraphPattern.Proofs.Token.Stray

/-!
Spans of errors. Lexical and syntax errors are located in the source, at a character, at a
token or at the end of the last token, so their spans begin and end at character boundaries.
Conflicts and clashes are about values, which carry no spans.
-/

namespace GraphPattern

/-! ### Stray characters -/

/-- The stray character is in `cs`, which begin at byte `offset`. -/
def StrayCharacter.StandsIn (e : StrayCharacter) (offset : Nat) (cs : List Char) : Prop :=
  ∃ before after, cs = before ++ e.char :: after ∧ e.span.start = offset + utf8Length before ∧
    e.span.stop = e.span.start + e.char.utf8Size

namespace StrayCharacter.StandsIn

variable {cs : List Char} {e : StrayCharacter}

theorem covers (h : e.StandsIn 0 cs) : e.span.Covers cs [e.char] := by
  obtain ⟨before, after, hcs, hstart, hstop⟩ := h
  refine ⟨before, after, ?_, ?_, ?_⟩
  · rw [hcs, List.append_assoc, List.singleton_append]
  · rw [hstart, Nat.zero_add]
  · rw [hstop, hstart, Nat.zero_add, utf8Length_append]
    rfl

end StrayCharacter.StandsIn

namespace Located

variable {offset : Nat} {cs : List Char} {e : StrayCharacter}

theorem standsIn_of_ofChars_eq_error (h : ofChars offset cs = .error e) :
    e.StandsIn offset cs := by
  obtain ⟨before, c, after, ts, rfl, -, rfl⟩ := ofChars_eq_error_iff.mp h
  exact ⟨before, after, rfl, rfl, rfl⟩

theorem covers_of_ofSource_eq_error {source : String} (h : ofSource source = .error e) :
    e.span.Covers source.toList [e.char] :=
  (standsIn_of_ofChars_eq_error h).covers

end Located

/-! ### Errors in a source -/

/-- The error is located in `cs`, or it is about a value. -/
inductive Error.IsFoundIn (cs : List Char) : Error → Prop
  | strayCharacter {c : StrayCharacter} (h : c.span.Covers cs [c.char]) :
      IsFoundIn cs (.strayCharacter c)
  | unexpectedToken {t : Located} (h : t.span.Covers cs t.token.chars)
      (expected : List Terminal) : IsFoundIn cs (.unexpectedToken t expected)
  | unexpectedEnd {offset : Nat} (h : Span.Covers ⟨offset, offset⟩ cs [])
      (expected : List Terminal) : IsFoundIn cs (.unexpectedEnd offset expected)
  | conflict (c : Conflict) : IsFoundIn cs (.conflict c)
  | clash (c : Clash) : IsFoundIn cs (.clash c)

theorem Located.Tiles.covers_endOf {cs : List Char} {ts : List Located} (h : Tiles cs ts) :
    Span.Covers ⟨endOf ts, endOf ts⟩ cs [] := by
  obtain ⟨gap, -, before, after, hcs, hstart, -⟩ := h.last
  refine ⟨before, gap ++ after, ?_, hstart, ?_⟩
  · rw [hcs, List.append_nil, List.append_assoc]
  · rw [List.append_nil]
    exact hstart

theorem Located.Tiles.isFoundIn_syntaxAt {cs : List Char} {ts : List Located} (h : Tiles cs ts)
    (i : Nat) (expected : List Terminal) : (Error.syntaxAt ts i expected).IsFoundIn cs := by
  rw [Error.syntaxAt]
  cases hi : ts[i]? with
  | some t => exact .unexpectedToken (h.covers t (List.mem_of_getElem? hi)).1 expected
  | none => exact .unexpectedEnd h.covers_endOf expected

section Parsers

variable {σ α β : Type} {m : Automaton σ α} {Derives : α → List Token → Prop}
  {value : α → Except Error β} {failure : List Located → Stop σ → Error}
  {check : β → Except Clash Unit} {source : String} {e : Error}

theorem Automaton.Recognizes.isFoundIn (h : m.Recognizes Derives)
    (hvalue : ∀ a e, value a = .error e → ∃ c, e = .conflict c)
    (hfailure : ∀ ts stop, failure ts stop = m.unexpected ts stop ∨
      ∃ c, failure ts stop = .conflict c)
    (herror : parseWith (m.readWith value failure) check source = .error e) :
    e.IsFoundIn source.toList := by
  rcases parseWith_eq_error_iff.mp herror with ⟨c, hc, rfl⟩ | ⟨ts, hts, hread | ⟨b, c, -, -, rfl⟩⟩
  · exact .strayCharacter (Located.covers_of_ofSource_eq_error hc)
  · obtain ⟨l, hl, hchars, rfl⟩ := Located.exists_layout_of_ofChars hts
    rcases h.syntaxAt_or_conflict hvalue hfailure hread with ⟨i, expected, -, rfl⟩ | ⟨c, rfl⟩
    · rw [← hchars]
      exact (Layout.tiles_located hl).isFoundIn_syntaxAt i expected
    · exact .conflict c
  · exact .clash c

end Parsers

section Sources

variable {source : String} {e : Error}

theorem Pattern.isFoundIn_of_parse (h : Pattern.parse source = .error e) :
    e.IsFoundIn source.toList := by
  rw [parse_eq, ofTokens_eq] at h
  exact Surface.patternReader_recognizes.isFoundIn (fun _ _ => exists_conflict_of_mapError)
    failure_eq_unexpected_or_conflict h

theorem Statement.isFoundIn_of_parse (h : Statement.parse source = .error e) :
    e.IsFoundIn source.toList := by
  rw [parse_eq, ofTokens_eq] at h
  exact Surface.statementReader_recognizes.isFoundIn (fun _ _ => exists_conflict_of_mapError)
    (fun _ _ => .inl rfl) h

theorem Relation.isFoundIn_of_parse (h : Relation.parse source = .error e) :
    e.IsFoundIn source.toList := by
  rw [parse_eq, ofTokens_eq] at h
  refine Surface.relationReader_recognizes.isFoundIn ?_ (fun _ _ => .inl rfl) h
  intro as e hvalue
  cases hvalue

end Sources

/-! ### Spans and messages -/

namespace Error.IsFoundIn

variable {cs : List Char} {e : Error} {s : Span}

theorem exists_covers (h : e.IsFoundIn cs) (hs : e.span? = some s) :
    ∃ piece, s.Covers cs piece := by
  cases h with
  | strayCharacter hc =>
      obtain rfl := Option.some.inj hs
      exact ⟨_, hc⟩
  | unexpectedToken ht expected =>
      obtain rfl := Option.some.inj hs
      exact ⟨_, ht⟩
  | unexpectedEnd hoffset expected =>
      obtain rfl := Option.some.inj hs
      exact ⟨_, hoffset⟩
  | conflict c => cases hs
  | clash c => cases hs

theorem span?_eq_none_iff (h : e.IsFoundIn cs) :
    e.span? = none ↔ (∃ c, e = .conflict c) ∨ ∃ c, e = .clash c := by
  cases h with
  | conflict c => exact iff_of_true rfl (.inl ⟨c, rfl⟩)
  | clash c => exact iff_of_true rfl (.inr ⟨c, rfl⟩)
  | _ => simp [span?]

theorem ne_missingArgument (h : e.IsFoundIn cs) (a : Argument) : e ≠ .missingArgument a := by
  rintro rfl
  cases h

end Error.IsFoundIn

theorem Error.message_strayCharacter (c : StrayCharacter) :
    (strayCharacter c).message = "Lexical error at " ++ c.span.text ++ ": Unexpected token " ++
      String.ofList [c.char] := by
  unfold message StrayCharacter.message
  rw [← String.toList_inj]
  simp only [String.toList_append, List.append_assoc]
  rfl

/-- The spans and messages of a parser's errors. -/
structure PlacesErrors {β : Type} (parse : String → Except Error β) : Prop where
  bounded : ∀ {source e s}, parse source = .error e → e.span? = some s →
    s.start ≤ s.stop ∧ s.stop ≤ utf8Length source.toList
  /-- Spans begin and end at character boundaries. -/
  boundaries : ∀ {source e s}, parse source = .error e → e.span? = some s →
    ∃ piece, s.Covers source.toList piece
  positions : ∀ {source e s}, parse source = .error e → e.span? = some s →
    (s.positions? source).isSome = true
  /-- The message of a lexical error quotes the character in the span. -/
  character : ∀ {source c}, parse source = .error (.strayCharacter c) →
    ∃ text : String, c.span.Covers source.toList text.toList ∧
      (Error.strayCharacter c).message =
        "Lexical error at " ++ c.span.text ++ ": Unexpected token " ++ text
  /-- The message of a syntax error on a token quotes the text in the span. -/
  token : ∀ {source t expected}, parse source = .error (.unexpectedToken t expected) →
    ∃ text : String, t.span.Covers source.toList text.toList ∧
      (Error.unexpectedToken t expected).message =
        "Parse error at " ++ t.span.text ++ ": unexpected " ++ Error.quoted text ++
          Error.expectation expected
  /-- Exactly the errors about values have no span. -/
  span?_eq_none_iff : ∀ {source e}, parse source = .error e →
    (e.span? = none ↔ (∃ c, e = .conflict c) ∨ ∃ c, e = .clash c)
  /-- Parsers do not report missing builder arguments. -/
  given : ∀ {source} (a : Argument), parse source ≠ .error (.missingArgument a)

theorem PlacesErrors.of_isFoundIn {β : Type} {parse : String → Except Error β}
    (h : ∀ {source e}, parse source = .error e → e.IsFoundIn source.toList) :
    PlacesErrors parse where
  bounded herror hs := by
    obtain ⟨piece, hpiece⟩ := (h herror).exists_covers hs
    exact hpiece.bounded
  boundaries herror hs := (h herror).exists_covers hs
  positions herror hs := by
    obtain ⟨piece, hpiece⟩ := (h herror).exists_covers hs
    obtain ⟨before, after, -, -, hpositions⟩ := hpiece.exists_positions
    rw [hpositions]
    rfl
  character {source c} herror := by
    obtain ⟨hc⟩ := h herror
    refine ⟨String.ofList [c.char], ?_, Error.message_strayCharacter c⟩
    rw [String.toList_ofList]
    exact hc
  token {source t expected} herror := by
    obtain _ | ⟨ht, _⟩ := h herror
    refine ⟨t.token.text, ?_, rfl⟩
    rw [Token.text, String.toList_ofList]
    exact ht
  span?_eq_none_iff herror := (h herror).span?_eq_none_iff
  given a herror := (h herror).ne_missingArgument a rfl

end GraphPattern
