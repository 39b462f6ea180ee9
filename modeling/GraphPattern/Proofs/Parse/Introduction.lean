import GraphPattern.Proofs.Parse.Settling
import GraphPattern.Proofs.Token.Lines

/-!
The introducing word. A line `match` in front of a pattern shifts the other tokens by six
bytes and removes `match` from the expected terminals. The pattern reader passes through the
same states otherwise: they differ in the flag `introduced` alone, and neither the closed
statements nor their meanings depend on it.
-/

namespace GraphPattern

/-- The size of a line `match` in bytes, with its line feed. -/
def introductionSize : Nat := utf8Length matchSpelling + 1

/-- The error of a pattern source behind a line `match`: spans are shifted, and `match` is
not among the expected terminals. -/
def Error.introduced : Error → Error
  | strayCharacter cause => strayCharacter (cause.shift introductionSize)
  | unexpectedToken found expected =>
    unexpectedToken (found.shift introductionSize) (expected.erase .matchWord)
  | unexpectedEnd offset expected =>
    unexpectedEnd (introductionSize + offset) (expected.erase .matchWord)
  | invalidToken offset => invalidToken (introductionSize + offset)
  | trailingToken found => trailingToken (found.shift introductionSize)
  | missingArgument argument => missingArgument argument
  | conflict cause => conflict cause
  | clash cause => clash cause

/-- The first token of a source, if there is one, is not the introducing word. -/
def OpensWithoutMatch (source : String) : Prop :=
  ∀ ts, Located.ofSource source = .ok ts → ts.head?.map Located.token ≠ some .matchWord

theorem OpensWithoutMatch.of_ofSource {source : String} {ts : List Located}
    (h : Located.ofSource source = .ok ts)
    (hhead : ts.head?.map Located.token ≠ some .matchWord) : OpensWithoutMatch source := by
  intro us hus
  rw [h] at hus
  cases hus
  exact hhead

/-! ### Tokens -/

namespace Located

/-- The tokens of a source behind a line `match`. -/
def introduced (ts : List Located) : List Located :=
  ⟨.matchWord, 0, 5⟩ :: ts.map (shift introductionSize)

theorem ofSource_introduced (source : String) :
    ofSource ("match\n" ++ source) =
      match ofSource source with
      | .ok ts => .ok (introduced ts)
      | .error e => .error (e.shift introductionSize) := by
  have hchars : ("match\n" ++ source).toList = matchSpelling ++ '\n' :: source.toList := by
    simp [matchSpelling]
  have hword : Scans 0 matchSpelling [⟨.matchWord, 0, 5⟩] [] :=
    .chars (t := .matchWord) trivial .nil
  have hlines : ofSource ("match\n" ++ source) =
      ofTwoLines 0 matchSpelling source.toList := by
    rw [ofSource, hchars]
    exact ofChars_append_newline 0 matchSpelling source.toList
  rw [hlines, ofTwoLines_of_ok hword.ofChars_eq_ok, Nat.zero_add, ofChars_eq_shiftOutcome]
  change (shiftOutcome _ (ofSource source)).map _ = _
  cases ofSource source <;> rfl

theorem endOf_introduced {ts : List Located} (h : ts ≠ []) :
    endOf (introduced ts) = introductionSize + endOf ts := by
  obtain ⟨before, last, rfl⟩ := (List.eq_nil_or_concat' ts).resolve_left h
  rw [endOf, endOf, introduced, List.map_append, List.map_singleton, ← List.cons_append,
    List.getLast?_concat, List.getLast?_concat]
  rfl

end Located

/-! ### States -/

namespace Surface

theorem StatementProgress.ne_start_of_step {p p' : StatementProgress} {t : Token}
    (h : p.step t = some p') : p' ≠ .start := by
  rintro rfl
  cases p with
  | relation s r =>
      obtain ⟨r', -, hr'⟩ := Option.map_eq_some_iff.mp h
      cases r' <;> cases hr'
  | _ => cases t <;> cases h

namespace PatternProgress

variable {p p' : PatternProgress} {t : Token}

/-- The state with the flag `introduced` set. -/
def introduce (p : PatternProgress) : PatternProgress := { p with introduced := true }

theorem step_introduce (h : t ≠ .matchWord) : p.introduce.step t = (p.step t).map introduce := by
  cases t with
  | matchWord => exact absurd rfl h
  | semicolon =>
      rw [step, step, Option.map_map]
      rfl
  | _ =>
      simp only [step, Option.map_map]
      rfl

/-- Behind its first token the pattern reader refuses `match`. -/
theorem step_matchWord_of_step (h : p.step t = some p') : p'.step .matchWord = none := by
  obtain ⟨introduced, closed, current⟩ := p
  cases t with
  | matchWord =>
      cases introduced <;> cases closed <;> cases current <;> cases h
      rfl
  | semicolon =>
      obtain ⟨s, -, rfl⟩ := Option.map_eq_some_iff.mp h
      cases introduced <;> cases closed <;> rfl
  | _ =>
      obtain ⟨current', hcurrent, rfl⟩ := Option.map_eq_some_iff.mp h
      have hne : current' ≠ .start := StatementProgress.ne_start_of_step hcurrent
      cases introduced <;> cases closed <;> cases current' <;> first | rfl | exact absurd rfl hne

theorem result?_introduce (p : PatternProgress) :
    p.introduce.result? = p.result?.map fun f => ⟨true, f.statements⟩ := by
  obtain ⟨introduced, closed, current⟩ := p
  cases closed <;> cases current <;> rfl

end PatternProgress

theorem expected_introduce (p : PatternProgress) :
    patternReader.expected p.introduce = (patternReader.expected p).erase .matchWord := by
  -- `erase` removes one occurrence, so it is a filter on a list without repetitions only.
  have hnodup : (patternReader.expected p).Nodup :=
    Terminal.nodup_all.sublist List.filter_sublist
  rw [hnodup.erase_eq_filter, Automaton.expected, Automaton.expected, List.filter_filter]
  refine List.filter_congr fun t _ => ?_
  by_cases ht : t = .matchWord
  · subst ht
    rfl
  · have hsample : t.sample ≠ .matchWord := by
      intro hsample
      exact ht (t.terminal_sample.symm.trans (congrArg Token.terminal hsample))
    have hstep : patternReader.step p.introduce t.sample =
        (patternReader.step p t.sample).map PatternProgress.introduce :=
      PatternProgress.step_introduce hsample
    simp [hstep, ht]

theorem advance_introduce {p : PatternProgress} {ts : List Located}
    (h : p.step .matchWord = none ∨ ∀ t ∈ ts.head?, t.token ≠ .matchWord) :
    patternReader.advance p.introduce ts =
      ((patternReader.advance p ts).1.introduce, (patternReader.advance p ts).2) := by
  induction ts generalizing p with
  | nil => rfl
  | cons t ts ih =>
      have hstep : patternReader.step p.introduce t.token =
          (patternReader.step p t.token).map PatternProgress.introduce := by
        by_cases ht : t.token = .matchWord
        · have hnone : p.step .matchWord = none :=
            h.resolve_right fun hhead => hhead t rfl ht
          rw [ht]
          exact (congrArg (Option.map PatternProgress.introduce) hnone).symm
        · exact PatternProgress.step_introduce ht
      rw [Automaton.advance_cons, Automaton.advance_cons, hstep]
      cases hp : patternReader.step p t.token with
      | none => rfl
      | some p' =>
          -- From here on `match` is refused in any case, so the head no longer matters.
          exact ih (.inl (PatternProgress.step_matchWord_of_step hp))

end Surface

/-! ### Outcomes -/

namespace Pattern

variable {ts : List Located}

theorem unexpected_introduced (hts : ts ≠ []) (p : Surface.PatternProgress)
    (rest : List Located) :
    Surface.patternReader.unexpected (Located.introduced ts)
        ⟨p.introduce, rest.map (Located.shift introductionSize)⟩ =
      (Surface.patternReader.unexpected ts ⟨p, rest⟩).introduced := by
  cases rest with
  | nil =>
      rw [List.map_nil, Automaton.unexpected, Automaton.unexpected, Error.introduced,
        Located.endOf_introduced hts, Surface.expected_introduce]
  | cons t rest =>
      rw [List.map_cons, Automaton.unexpected, Automaton.unexpected, Error.introduced,
        Surface.expected_introduce]

theorem conclude_introduced (hts : ts ≠ []) (p : Surface.PatternProgress)
    (rest : List Located) :
    conclude (Located.introduced ts) p.introduce (rest.map (Located.shift introductionSize)) =
      (conclude ts p rest).mapError Error.introduced := by
  have hclosed : p.introduce.closed = p.closed := rfl
  cases h : Surface.meanings p.closed with
  | error c =>
      rw [conclude_of_meanings_eq_error h, conclude_of_meanings_eq_error (hclosed ▸ h)]
      rfl
  | ok settled =>
      have hunexpected := unexpected_introduced hts p rest
      cases rest with
      | cons t rest =>
          rw [List.map_cons] at hunexpected ⊢
          rw [conclude_cons_of_meanings_eq_ok h, conclude_cons_of_meanings_eq_ok (hclosed ▸ h),
            hunexpected]
          rfl
      | nil =>
          have hresult : Surface.patternReader.result? p.introduce =
              (Surface.patternReader.result? p).map fun f => ⟨true, f.statements⟩ :=
            p.result?_introduce
          rw [List.map_nil] at hunexpected ⊢
          rw [conclude_nil_of_meanings_eq_ok h, conclude_nil_of_meanings_eq_ok (hclosed ▸ h),
            hunexpected, hresult]
          cases Surface.patternReader.result? p <;> rfl

theorem ofTokens_introduced {t : Located} (ht : t.token ≠ .matchWord) (rest : List Located) :
    ofTokens (Located.introduced (t :: rest)) =
      (ofTokens (t :: rest)).mapError Error.introduced := by
  have hstart : Surface.patternReader.step Surface.patternReader.start .matchWord =
      some (Surface.PatternProgress.introduce .start) := rfl
  have hhead : ∀ u ∈ (t :: rest).head?, u.token ≠ .matchWord := by
    rintro u ⟨⟩
    exact ht
  have hadvance : Surface.patternReader.advance Surface.patternReader.start
      (Located.introduced (t :: rest)) =
      Surface.patternReader.advance (Surface.PatternProgress.introduce .start)
        ((t :: rest).map (Located.shift introductionSize)) := by
    rw [Located.introduced, Automaton.advance_cons, hstart]
  rw [ofTokens_eq_conclude, hadvance, Automaton.advance_map (Located.token_shift _),
    Surface.advance_introduce (.inr hhead), ofTokens_eq_conclude]
  exact conclude_introduced (List.cons_ne_nil t rest) _ _

/-- A line `match` in front of a source changes the result of the pattern parser by
`Error.introduced`, if the source has tokens and the first of them is not `match`. -/
theorem parse_introduced {source : String} (hopens : OpensWithoutMatch source)
    (hne : ∀ ts, Located.ofSource source = .ok ts → ts ≠ []) :
    Pattern.parse ("match\n" ++ source) = (Pattern.parse source).mapError Error.introduced := by
  rw [parse_eq, parseWith, parseWith, Located.ofSource_introduced]
  cases hts : Located.ofSource source with
  | error e => rfl
  | ok ts =>
      obtain ⟨t, rest, rfl⟩ := List.exists_cons_of_ne_nil (hne ts hts)
      have ht : t.token ≠ .matchWord := by simpa using hopens (t :: rest) hts
      simp only [ofTokens_introduced ht]
      cases ofTokens (t :: rest) with
      | error e => rfl
      | ok p => cases hcheck : p.validate <;> simp [hcheck, Except.mapError, Error.introduced]

end Pattern

end GraphPattern
