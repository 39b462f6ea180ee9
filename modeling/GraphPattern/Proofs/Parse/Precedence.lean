import GraphPattern.Proofs.Parse.SyntaxError
import GraphPattern.Proofs.Surface.Meaning

/-!
Precedence of errors. A source with a lexical error is not parsed any further, and a kind
clash is reported only if there is no other error. Between these two stages, syntax errors
and conflicts compete by their token index.

The index of a syntax error is the break of the tokens. The index of a conflict is the end
of its statement: the semicolon in a pattern, and the end of the tokens for a statement on
its own. The error with the smaller index is reported. No conflict has an index beyond the
break, because no statement ends there.
-/

namespace GraphPattern

open Surface (relationReader_recognizes statementReader_recognizes patternReader_recognizes)

/-- The precedence of errors in a parser for the language `L`, given where conflicts are
raised and which rows of tokens clash. -/
structure OrdersErrors {β : Type} (L : Language Terminal)
    (SettlesAt : List Located → Nat → Conflict → Prop)
    (Clashes : List Located → Clash → Prop) (parse : String → Except Error β) : Prop where
  lexical : ∀ {source c},
    parse source = .error (.strayCharacter c) ↔ Located.ofSource source = .error c
  /-- A conflict is reported if its index precedes the break. -/
  conflict : ∀ {source ts c}, Located.ofSource source = .ok ts →
    (parse source = .error (.conflict c) ↔
      ∃ j, SettlesAt ts j c ∧ ∀ i, BreaksAt L (kinds ts) i → j < i)
  /-- A break is reported if no conflict precedes it. -/
  broken : ∀ {source ts i}, Located.ofSource source = .ok ts → BreaksAt L (kinds ts) i →
    ((∃ expected, parse source = .error (.syntaxAt ts i expected)) ↔
      ∀ j c, SettlesAt ts j c → i ≤ j)
  syntactic : ∀ {source ts e}, Located.ofSource source = .ok ts → parse source = .error e →
    e.IsSyntax → ∃ i, BreaksAt L (kinds ts) i
  /-- A clash is reported if there is neither a break nor a conflict. -/
  clash : ∀ {source ts c}, Located.ofSource source = .ok ts →
    (parse source = .error (.clash c) ↔
      (∀ i, ¬ BreaksAt L (kinds ts) i) ∧ (∀ j d, ¬ SettlesAt ts j d) ∧ Clashes ts c)

/-! ### Stages -/

section Stages

variable {σ α β : Type} {m : Automaton σ α} {Derives : α → List Token → Prop}
  {value : α → Except Error β} {failure : List Located → Stop σ → Error}
  {check : β → Except Clash Unit} {ts : List Located} {e : Error}
  {SettlesAt : List Located → Nat → Conflict → Prop}
  {Clashes : List Located → Clash → Prop}

theorem exists_conflict_of_mapError {x : Except Conflict β} (h : x.mapError .conflict = .error e) :
    ∃ c, e = .conflict c := by
  obtain ⟨c, -, rfl⟩ := mapError_eq_error_iff.mp h
  exact ⟨c, rfl⟩

/-! A reader whose only errors besides syntax errors are conflicts, both in the values of its
forms and in its failures. -/

variable (h : m.Recognizes Derives)
  (hvalue : ∀ a e, value a = .error e → ∃ c, e = .conflict c)
  (hfailure : ∀ ts stop, failure ts stop = m.unexpected ts stop ∨
    ∃ c, failure ts stop = .conflict c)

include h hvalue hfailure

/-- The error of such a reader is a conflict or the syntax error at the break. -/
theorem Automaton.Recognizes.syntaxAt_or_conflict
    (hread : m.readWith value failure ts = .error e) :
    (∃ i expected, BreaksAt (sentences Derives) (kinds ts) i ∧ e = .syntaxAt ts i expected) ∨
      ∃ c, e = .conflict c := by
  rcases h.readWith_eq_error_iff.mp hread with ⟨a, -, ha⟩ | ⟨stop, hrun, rfl⟩
  · exact .inr (hvalue a e ha)
  · rcases hfailure ts stop with hstop | hconflict
    · obtain ⟨i, hi, hat, -⟩ := h.exists_breaksAt hrun
      exact .inl ⟨i, _, hi, hstop.trans hat⟩
    · exact .inr hconflict

theorem Automaton.Recognizes.ne_strayCharacter_and_ne_clash
    (hread : m.readWith value failure ts = .error e) :
    (∀ c, e ≠ .strayCharacter c) ∧ ∀ c, e ≠ .clash c := by
  rcases h.syntaxAt_or_conflict hvalue hfailure hread with ⟨i, expected, -, rfl⟩ | ⟨d, rfl⟩
  · have hkind := Error.isSyntax_syntaxAt ts i expected
    exact ⟨hkind.ne_strayCharacter, hkind.ne_clash⟩
  · exact ⟨nofun, nofun⟩

/-- The reader reports the break unless a conflict is raised in front of it. -/
theorem Automaton.Recognizes.readWith_eq_syntaxAt_iff
    (hconflict : ∀ {c}, m.readWith value failure ts = .error (.conflict c) ↔
      ∃ j, SettlesAt ts j c)
    (hbefore : ∀ {j c i}, SettlesAt ts j c → BreaksAt (sentences Derives) (kinds ts) i → j < i)
    {i : Nat} (hi : BreaksAt (sentences Derives) (kinds ts) i) :
    (∃ expected, m.readWith value failure ts = .error (.syntaxAt ts i expected)) ↔
      ∀ j c, SettlesAt ts j c → i ≤ j := by
  constructor
  · rintro ⟨expected, hread⟩ j c hj
    have hsettled := hconflict.mpr ⟨j, hj⟩
    rw [hread, Except.error.injEq] at hsettled
    exact absurd hsettled ((Error.isSyntax_syntaxAt ts i expected).ne_conflict c)
  · intro hnone
    cases hread : m.readWith value failure ts with
    | ok b =>
        obtain ⟨a, ha, -⟩ := h.readWith_eq_ok_iff.mp hread
        exact absurd hi (not_breaksAt_of_derives ha i)
    | error e =>
        -- A conflict would be raised in front of the break, and there is none.
        rcases h.syntaxAt_or_conflict hvalue hfailure hread with
          ⟨i', expected, hi', rfl⟩ | ⟨c, rfl⟩
        · obtain rfl : i = i' := hi.unique hi'
          exact ⟨expected, rfl⟩
        · obtain ⟨j, hj⟩ := hconflict.mp hread
          exact absurd (hbefore hj hi) (Nat.not_lt.mpr (hnone j c hj))

theorem OrdersErrors.of_recognizes
    (hconflict : ∀ {ts c}, m.readWith value failure ts = .error (.conflict c) ↔
      ∃ j, SettlesAt ts j c)
    (hbefore : ∀ {ts j c i}, SettlesAt ts j c → BreaksAt (sentences Derives) (kinds ts) i → j < i)
    (hclash : ∀ {ts c}, Clashes ts c ↔
      ∃ a b, Derives a (ts.map Located.token) ∧ value a = .ok b ∧ check b = .error c) :
    OrdersErrors (sentences Derives) SettlesAt Clashes
      (parseWith (m.readWith value failure) check) where
  lexical {source c} := by
    rw [parseWith_eq_error_iff]
    constructor
    · rintro (⟨c', hc, hcause⟩ | ⟨ts, -, hread | ⟨b, c', -, -, hcause⟩⟩)
      · cases hcause
        exact hc
      · exact absurd rfl ((h.ne_strayCharacter_and_ne_clash hvalue hfailure hread).1 c)
      · cases hcause
    · intro hc
      exact .inl ⟨c, hc, rfl⟩
  conflict {source ts c} hts := by
    rw [parseWith_eq_error_iff_of_ofSource hts]
    constructor
    · rintro (hread | ⟨b, c', -, -, hcause⟩)
      · obtain ⟨j, hj⟩ := hconflict.mp hread
        exact ⟨j, hj, fun i => hbefore hj⟩
      · cases hcause
    · rintro ⟨j, hj, -⟩
      exact .inl (hconflict.mpr ⟨j, hj⟩)
  broken {source ts i} hts hi := by
    simp only [parseWith_eq_error_iff_of_ofSource hts,
      (Error.isSyntax_syntaxAt ts i _).ne_clash, and_false, exists_false, or_false]
    exact h.readWith_eq_syntaxAt_iff hvalue hfailure hconflict hbefore hi
  syntactic {source ts e} hts herror he := by
    have hread := read_eq_error_of_isSyntax hts herror he
    rcases h.syntaxAt_or_conflict hvalue hfailure hread with ⟨i, expected, hi, -⟩ | ⟨c, rfl⟩
    · exact ⟨i, hi⟩
    · exact absurd he id
  clash {source ts c} hts := by
    rw [parseWith_eq_error_iff_of_ofSource hts, hclash]
    constructor
    · rintro (hread | ⟨b, c', hread, hcheck, hcause⟩)
      · exact absurd rfl ((h.ne_strayCharacter_and_ne_clash hvalue hfailure hread).2 c)
      · cases hcause
        obtain ⟨a, ha, hb⟩ := h.readWith_eq_ok_iff.mp hread
        refine ⟨not_breaksAt_of_derives ha, ?_, a, b, ha, hb, hcheck⟩
        intro j d hj
        have hsettled := hconflict.mpr ⟨j, hj⟩
        rw [hread] at hsettled
        cases hsettled
    · rintro ⟨-, -, a, b, ha, hb, hcheck⟩
      exact .inr ⟨b, c, h.readWith_eq_ok_iff.mpr ⟨a, ha, hb⟩, hcheck, rfl⟩

end Stages

/-! ### Patterns

A statement of a pattern is closed by its semicolon and does not change afterwards. So the
statements that a reader has closed when it stops determine whether there is a conflict, and
each of them ends a pattern of its own. -/

/-- The token at `j` is the semicolon of the first inconsistent statement, of which `c` is
the conflict, and the tokens in front of `j` are those of a pattern without it. -/
def ClosesConflict (ts : List Located) (j : Nat) (c : Conflict) : Prop :=
  ∃ (introduced : Bool) (before : List Surface.Statement) (s : Surface.Statement),
    j < ts.length ∧
    Surface.Pattern.Derives ⟨introduced, before ++ [s]⟩ ((ts.take (j + 1)).map Located.token) ∧
    (∀ b ∈ before, b.IsConsistent) ∧ s.Conflicts c

theorem Pattern.failure_eq_unexpected_or_conflict (ts : List Located)
    (stop : Stop Surface.PatternProgress) :
    failure ts stop = Surface.patternReader.unexpected ts stop ∨
      ∃ c, failure ts stop = .conflict c := by
  rw [failure]
  cases Surface.meanings stop.state.closed with
  | error c => exact .inr ⟨c, rfl⟩
  | ok ss => exact .inl rfl

/-- The pattern reader reports the first conflict among the statements that the automaton
has closed when it stops. -/
theorem Pattern.ofTokens_eq_conflict_iff_meanings {ts : List Located} {c : Conflict} :
    Pattern.ofTokens ts = .error (.conflict c) ↔
      Surface.meanings (Surface.patternReader.advance Surface.patternReader.start ts).1.closed =
        .error c := by
  rw [ofTokens_eq_conclude]
  generalize Surface.patternReader.advance Surface.patternReader.start ts = stopped
  obtain ⟨p, rest⟩ := stopped
  cases h : Surface.meanings p.closed with
  | error d => simp [conclude_of_meanings_eq_error h]
  | ok settled =>
      have hunexpected (stop : Stop Surface.PatternProgress) :
          Surface.patternReader.unexpected ts stop ≠ .conflict c :=
        (Error.isSyntax_unexpected Surface.patternReader ts stop).ne_conflict c
      cases rest with
      | cons t rest => simp [conclude_cons_of_meanings_eq_ok h, hunexpected]
      | nil =>
          rw [conclude_nil_of_meanings_eq_ok h]
          cases Surface.patternReader.result? p <;> simp [hunexpected]

theorem Pattern.ofTokens_eq_conflict_iff {ts : List Located} {c : Conflict} :
    Pattern.ofTokens ts = .error (.conflict c) ↔ ∃ j, ClosesConflict ts j c := by
  rw [ofTokens_eq_conflict_iff_meanings]
  constructor
  · intro h
    obtain ⟨taken, hsplit, hreach, -⟩ :=
      Surface.patternReader.exists_taken Surface.patternReader.start ts
    obtain ⟨before, s, after, hclosed, hbefore, hs⟩ := Surface.meanings_eq_error_iff.mp h
    generalize (Surface.patternReader.advance Surface.patternReader.start ts).1 = p
      at hreach hclosed
    obtain ⟨hwritten, htokens⟩ := Surface.patternReader_tokens hreach
    -- The statements closed before the conflict form a pattern on their own.
    let f : Surface.Pattern := ⟨p.introduced, before ++ [s]⟩
    have hf : f.IsWritten := by
      refine ⟨List.concat_ne_nil _ _, fun r hr => hwritten.closed r ?_⟩
      rw [hclosed, List.append_cons]
      exact List.mem_append_left after hr
    have hcut : p.tokens = f.tokens ++ (Surface.statementsTokens after ++ p.current.tokens) := by
      simp [f, Surface.PatternProgress.tokens, Surface.Pattern.tokens, Surface.statementsTokens,
        hclosed]
    have hprefix : f.tokens <+: ts.map Located.token := by
      rw [hsplit, List.map_append, ← htokens, hcut, List.append_assoc]
      exact List.prefix_append _ _
    have hpos : 0 < f.tokens.length := by
      simp only [f, Surface.Pattern.tokens, List.flatMap_append, List.flatMap_singleton,
        List.length_append, List.length_singleton]
      omega
    refine ⟨f.tokens.length - 1, p.introduced, before, s, ?_, ?_, hbefore, hs⟩
    · have hle := hprefix.length_le
      rw [List.length_map] at hle
      omega
    · rw [Nat.sub_add_cancel hpos, List.map_take]
      exact Surface.Pattern.derives_iff.mpr ⟨hf, (List.prefix_iff_eq_take.mp hprefix).symm⟩
  · rintro ⟨j, introduced, before, s, -, hderives, hbefore, hs⟩
    -- The reader accepts that pattern, and behind it only closes further statements.
    have hreach := Surface.patternReader_derives hderives
    have hadvance := Automaton.advance_append_of_reach? hreach (ts.drop (j + 1))
    rw [List.take_append_drop] at hadvance
    obtain ⟨after, hafter⟩ := Surface.closed_prefix_advance
      ⟨introduced, before ++ [s], .start⟩ (ts.drop (j + 1))
    refine Surface.meanings_eq_error_iff.mpr ⟨before, s, after, ?_, hbefore, hs⟩
    rw [List.append_cons]
    exact (congrArg (fun r => r.1.closed) hadvance).trans hafter.symm

/-- No statement ends beyond the break. -/
theorem ClosesConflict.lt_of_breaksAt {ts : List Located} {j i : Nat} {c : Conflict}
    (h : ClosesConflict ts j c)
    (hi : BreaksAt (sentences Surface.Pattern.Derives) (kinds ts) i) : j < i := by
  obtain ⟨introduced, before, s, hlt, hderives, -⟩ := h
  refine hi.le_of_viable ?_ (.of_mem ⟨_, _, hderives, ?_⟩)
  · rw [length_kinds]
    exact hlt
  · rw [kinds_eq_map_terminal, List.map_take, List.map_take]

/-- The tokens denote a pattern with the clash `c`. -/
def Pattern.Clashes (ts : List Located) (c : Clash) : Prop :=
  ∃ (f : Surface.Pattern) (p : Pattern), f.Derives (ts.map Located.token) ∧
    f.meaning = .ok p ∧ p.validate = .error c

theorem Pattern.ordersErrors :
    OrdersErrors (sentences Surface.Pattern.Derives) ClosesConflict Pattern.Clashes
      Pattern.parse := by
  rw [parse_eq, ofTokens_eq]
  refine .of_recognizes patternReader_recognizes (fun _ _ => exists_conflict_of_mapError)
    failure_eq_unexpected_or_conflict ?_ ClosesConflict.lt_of_breaksAt ?_
  · intro ts c
    rw [← ofTokens_eq]
    exact ofTokens_eq_conflict_iff
  · intro ts c
    simp only [Clashes, mapError_eq_ok_iff]

/-! ### Statements and relations

No statement is closed before the end of the tokens, so a conflict never precedes a break. -/

/-- The tokens end at `j` and are derived from a statement with the conflict `c`. -/
def EndsInConflict (ts : List Located) (j : Nat) (c : Conflict) : Prop :=
  j = ts.length ∧ ∃ s : Surface.Statement, s.Derives (ts.map Located.token) ∧ s.Conflicts c

/-- The tokens denote a statement with the clash `c`. -/
def Statement.Clashes (ts : List Located) (c : Clash) : Prop :=
  ∃ (f : Surface.Statement) (s : Statement), f.Derives (ts.map Located.token) ∧
    f.meaning = .ok s ∧ s.validate = .error c

theorem Statement.ordersErrors :
    OrdersErrors (sentences Surface.Statement.Derives) EndsInConflict Statement.Clashes
      Statement.parse := by
  rw [parse_eq, ofTokens_eq]
  refine .of_recognizes statementReader_recognizes (fun _ _ => exists_conflict_of_mapError)
    (fun _ _ => .inl rfl) ?_ ?_ ?_
  · intro ts c
    rw [statementReader_recognizes.readWith_eq_error_iff]
    constructor
    · rintro (⟨s, hs, hvalue⟩ | ⟨stop, -, hstop⟩)
      · obtain ⟨d, hd, hcause⟩ := mapError_eq_error_iff.mp hvalue
        cases hcause
        exact ⟨ts.length, rfl, s, hs, Surface.Statement.meaning_eq_error_iff.mp hd⟩
      · have hkind := Error.isSyntax_unexpected Surface.statementReader ts stop
        exact absurd hstop (hkind.ne_conflict c)
    · rintro ⟨j, -, s, hs, hc⟩
      have hmeaning := Surface.Statement.meaning_eq_error_iff.mpr hc
      exact .inl ⟨s, hs, mapError_eq_error_iff.mpr ⟨c, hmeaning, rfl⟩⟩
  · rintro ts j c i ⟨-, s, hs, -⟩ hi
    exact absurd hi (not_breaksAt_of_derives hs i)
  · intro ts c
    simp only [Clashes, mapError_eq_ok_iff]

/-- Relations have neither conflicts nor clashes. -/
theorem Relation.ordersErrors :
    OrdersErrors (sentences Surface.RelationDerives) (fun _ _ _ => False) (fun _ _ => False)
      Relation.parse := by
  rw [parse_eq, ofTokens_eq]
  refine .of_recognizes relationReader_recognizes nofun (fun _ _ => .inl rfl) ?_ nofun ?_
  · intro ts c
    refine iff_of_false ?_ (by simp)
    intro hread
    rcases relationReader_recognizes.readWith_eq_error_iff.mp hread with ⟨as, -, hvalue⟩ |
      ⟨stop, -, hstop⟩
    · cases hvalue
    · have hkind := Error.isSyntax_unexpected Surface.relationReader ts stop
      exact absurd hstop (hkind.ne_conflict c)
  · intro ts c
    simp

/-- The precedence of errors in the three parsers. Lexical errors come first and clashes
last; between them the index of the break and that of the first conflict decide. -/
theorem parse_orders_errors :
    OrdersErrors (sentences Surface.Pattern.Derives) ClosesConflict Pattern.Clashes
      Pattern.parse ∧
    OrdersErrors (sentences Surface.Statement.Derives) EndsInConflict Statement.Clashes
      Statement.parse ∧
    OrdersErrors (sentences Surface.RelationDerives) (fun _ _ _ => False) (fun _ _ => False)
      Relation.parse ∧
    ∀ c : StrayCharacter, (Error.strayCharacter c).span? = some c.span ∧
      (Error.strayCharacter c).message =
        "Lexical error at " ++ c.span.text ++ ": " ++ c.message :=
  ⟨Pattern.ordersErrors, Statement.ordersErrors, Relation.ordersErrors, fun _ => ⟨rfl, rfl⟩⟩

/-- The tokens break at the third variable, but the conflict has a smaller index. -/
theorem parse_orders_errors_conflict_first :
    Pattern.parse "$x isa a isa b; $y $z;" =
      .error (.conflict ⟨⟨.visible "x", [.isa (.ofLabel "a")]⟩, .isa (.ofLabel "a"),
        .isa (.ofLabel "b")⟩) := by
  have hts : Located.ofSource "$x isa a isa b; $y $z;" =
      .ok [⟨.var (.visible "x"), 0, 2⟩, ⟨.isaWord, 3, 6⟩, ⟨.label "a", 7, 8⟩, ⟨.isaWord, 9, 12⟩,
        ⟨.label "b", 13, 14⟩, ⟨.semicolon, 14, 15⟩, ⟨.var (.visible "y"), 16, 18⟩,
        ⟨.var (.visible "z"), 19, 21⟩, ⟨.semicolon, 21, 22⟩] := by
    decide +kernel
  let s : Surface.Statement := ⟨some (.visible "x"), [.isa (.label "a"), .isa (.label "b")]⟩
  have hs : s.IsWritten := ⟨by decide, by decide⟩
  have hf : Surface.Pattern.Derives ⟨false, [s]⟩ [.var (.visible "x"), .isaWord, .label "a",
      .isaWord, .label "b", .semicolon] :=
    Surface.Pattern.derives_iff.mpr ⟨⟨by decide, by simpa using hs⟩, rfl⟩
  refine (parse_orders_errors.1.conflict hts).mpr ⟨5, ?_, ?_⟩
  · refine ⟨false, [], s, by decide, hf, by simp, ?_⟩
    exact ⟨[.isa (.ofLabel "a")], .isa (.ofLabel "a"), .isa (.ofLabel "b"), [], rfl,
      by decide +kernel, List.mem_singleton_self _, rfl, by decide +kernel, rfl⟩
  · intro i hi
    exact hi.le_of_viable (by decide) (.of_mem ⟨_, _, hf, rfl⟩)

end GraphPattern
