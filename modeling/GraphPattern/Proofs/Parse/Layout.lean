import GraphPattern.Proofs.Parse.SyntaxError
import GraphPattern.Proofs.Token.Tiling

/-!
Parsing is independent of layout. The readers look at tokens and not at spans, so on two
sources with equal token rows a reader passes through the same states and stops at the same
index. The results are equal values, or errors that differ only in the span of the token or
of the end that they name.
-/

namespace GraphPattern

/-! ### Errors at the same place -/

/-- The same error up to spans in two sources, of which `ts` and `us` are the tokens. -/
inductive Error.Alike (ts us : List Located) : Error → Error → Prop
  | unplaced {e : Error} (h : e.span? = none) : Alike ts us e e
  /-- Errors on the tokens of index `i`, with messages that differ only in the span. -/
  | token {i : Nat} {t u : Located} {expected : List Terminal} {complaint : String}
      (ht : ts[i]? = some t) (hu : us[i]? = some u) (htoken : t.token = u.token)
      (htext : (unexpectedToken t expected).message = syntaxText t.span complaint)
      (hutext : (unexpectedToken u expected).message = syntaxText u.span complaint) :
      Alike ts us (unexpectedToken t expected) (unexpectedToken u expected)
  /-- Errors at the end of the tokens, with messages that differ only in the span. -/
  | ending {m n : Nat} {expected : List Terminal} {complaint : String}
      (hm : m = Located.endOf ts) (hn : n = Located.endOf us)
      (htext : (unexpectedEnd m expected).message = syntaxText ⟨m, m⟩ complaint)
      (hutext : (unexpectedEnd n expected).message = syntaxText ⟨n, n⟩ complaint) :
      Alike ts us (unexpectedEnd m expected) (unexpectedEnd n expected)

/-- Equal values, or the same error up to spans. -/
def SameOutcome {β : Type} (ts us : List Located) : Except Error β → Except Error β → Prop
  | .ok b, .ok c => b = c
  | .error e, .error f => Error.Alike ts us e f
  | _, _ => False

section Readers

variable {σ α β : Type} {m : Automaton σ α} {ts us : List Located}

theorem getElem?_eq_of_map_token_eq (h : ts.map Located.token = us.map Located.token) (i : Nat) :
    (ts[i]?).map Located.token = (us[i]?).map Located.token := by
  rw [← List.getElem?_map, h, List.getElem?_map]

theorem Error.alike_syntaxAt (h : ts.map Located.token = us.map Located.token) (i : Nat)
    (expected : List Terminal) :
    Error.Alike ts us (syntaxAt ts i expected) (syntaxAt us i expected) := by
  have hi := getElem?_eq_of_map_token_eq h i
  rw [syntaxAt, syntaxAt]
  cases ht : ts[i]? with
  | none =>
      rw [ht, Option.map_none, eq_comm, Option.map_eq_none_iff] at hi
      rw [hi]
      exact .ending rfl rfl (message_unexpectedEnd _ _) (message_unexpectedEnd _ _)
  | some t =>
      rw [ht, Option.map_some, eq_comm, Option.map_eq_some_iff] at hi
      obtain ⟨u, hu, htoken⟩ := hi
      rw [hu]
      refine .token ht hu htoken.symm (message_unexpectedToken _ _) ?_
      rw [← htoken]
      exact message_unexpectedToken _ _

/-! ### Readers -/

theorem Automaton.advance_congr (h : ts.map Located.token = us.map Located.token) (s : σ) :
    ∃ s' i, m.advance s ts = (s', ts.drop i) ∧ m.advance s us = (s', us.drop i) := by
  induction ts generalizing us s with
  | nil =>
      obtain rfl : us = [] := by simpa using h.symm
      exact ⟨s, 0, rfl, rfl⟩
  | cons t ts ih =>
      obtain ⟨u, us, rfl, ht, hts⟩ := List.map_eq_cons_iff.mp h.symm
      rw [advance_cons, advance_cons, ht]
      cases hstep : m.step s t.token with
      | none => exact ⟨s, 0, rfl, rfl⟩
      | some s' =>
          obtain ⟨s'', i, hadvance, hadvance'⟩ := ih hts.symm s'
          exact ⟨s'', i + 1, hadvance, hadvance'⟩

/-- The state and the index in which a reader stops depend on the tokens only, not on their
spans. -/
theorem Automaton.run_congr (h : ts.map Located.token = us.map Located.token) :
    (∃ a, m.run ts = .ok a ∧ m.run us = .ok a) ∨
      ∃ s i, m.run ts = .error ⟨s, ts.drop i⟩ ∧ m.run us = .error ⟨s, us.drop i⟩ := by
  obtain ⟨s, i, hts, hus⟩ := m.advance_congr h m.start
  have hrest : (ts.drop i).map Located.token = (us.drop i).map Located.token := by
    rw [List.map_drop, h, List.map_drop]
  cases hdrop : ts.drop i with
  | nil =>
      rw [hdrop] at hrest hts
      have hdrop' : us.drop i = [] := List.map_eq_nil_iff.mp hrest.symm
      rw [hdrop'] at hus
      cases hresult : m.result? s with
      | some a => exact .inl ⟨a, by simp [run, hts, hresult], by simp [run, hus, hresult]⟩
      | none =>
          refine .inr ⟨s, i, ?_⟩
          rw [hdrop, hdrop']
          simp [run, hts, hus, hresult]
  | cons t rest =>
      rw [hdrop] at hrest hts
      obtain ⟨u, rest', hdrop', -, -⟩ := List.map_eq_cons_iff.mp hrest.symm
      rw [hdrop'] at hus
      refine .inr ⟨s, i, ?_⟩
      rw [hdrop, hdrop']
      simp [run, hts, hus]

theorem Automaton.unexpected_drop (m : Automaton σ α) (ts : List Located) (s : σ) (i : Nat) :
    m.unexpected ts ⟨s, ts.drop i⟩ = Error.syntaxAt ts i (m.expected s) := by
  rw [unexpected, Error.syntaxAt, ← List.head?_drop]
  cases ts.drop i <;> rfl

variable {value : α → Except Error β} {failure : List Located → Stop σ → Error}

theorem Automaton.readWith_sameOutcome (h : ts.map Located.token = us.map Located.token)
    (hvalue : ∀ a e, value a = .error e → e.span? = none)
    (hfailure : ∀ s i, (failure ts ⟨s, ts.drop i⟩).Alike ts us (failure us ⟨s, us.drop i⟩)) :
    SameOutcome ts us (m.readWith value failure ts) (m.readWith value failure us) := by
  rw [readWith, readWith]
  rcases m.run_congr h with ⟨a, hts, hus⟩ | ⟨s, i, hts, hus⟩
  · rw [hts, hus]
    cases ha : value a with
    | ok b => simp [ha, SameOutcome]
    | error e => simpa [ha, SameOutcome] using Error.Alike.unplaced (hvalue a e ha)
  · rw [hts, hus]
    exact hfailure s i

end Readers

/-! ### Parsers -/

section Parsers

variable {β : Type} {read : List Located → Except Error β} {check : β → Except Clash Unit}
  {ts us : List Located} {source source' : String}

theorem parseWith_sameOutcome (hts : Located.ofSource source = .ok ts)
    (hus : Located.ofSource source' = .ok us) (hread : SameOutcome ts us (read ts) (read us)) :
    SameOutcome ts us (parseWith read check source) (parseWith read check source') := by
  simp only [parseWith, hts, hus]
  cases hb : read ts with
  | error e =>
      cases hc : read us with
      | error f => simpa only [hb, hc] using hread
      | ok c => simp [hb, hc, SameOutcome] at hread
  | ok b =>
      cases hc : read us with
      | error f => simp [hb, hc, SameOutcome] at hread
      | ok c =>
          obtain rfl : b = c := by simpa [hb, hc, SameOutcome] using hread
          cases hcheck : check b with
          | ok u => simp only [hcheck, SameOutcome]
          | error c =>
              have hclash : Error.Alike ts us (.clash c) (.clash c) := .unplaced rfl
              simpa only [hcheck, SameOutcome] using hclash

variable (h : ts.map Located.token = us.map Located.token)
include h

theorem Pattern.ofTokens_sameOutcome :
    SameOutcome ts us (Pattern.ofTokens ts) (Pattern.ofTokens us) := by
  rw [ofTokens_eq]
  refine Automaton.readWith_sameOutcome h ?_ ?_
  · intro f e hvalue
    obtain ⟨c, -, rfl⟩ := mapError_eq_error_iff.mp hvalue
    rfl
  · intro s i
    simp only [failure, Automaton.unexpected_drop]
    cases Surface.meanings s.closed with
    | error c => exact .unplaced rfl
    | ok ss => exact Error.alike_syntaxAt h i _

theorem Statement.ofTokens_sameOutcome :
    SameOutcome ts us (Statement.ofTokens ts) (Statement.ofTokens us) := by
  rw [ofTokens_eq]
  refine Automaton.readWith_sameOutcome h ?_ ?_
  · intro f e hvalue
    obtain ⟨c, -, rfl⟩ := mapError_eq_error_iff.mp hvalue
    rfl
  · intro s i
    rw [Automaton.unexpected_drop, Automaton.unexpected_drop]
    exact Error.alike_syntaxAt h i _

theorem Relation.ofTokens_sameOutcome :
    SameOutcome ts us (Relation.ofTokens ts) (Relation.ofTokens us) := by
  rw [ofTokens_eq]
  refine Automaton.readWith_sameOutcome h nofun ?_
  intro s i
  rw [Automaton.unexpected_drop, Automaton.unexpected_drop]
  exact Error.alike_syntaxAt h i _

end Parsers

/-- A proper layout is lexed to its tokens with their spans, and all proper layouts of one
token row have the same parser result up to the spans in errors. -/
theorem parse_ignores_layout :
    (∀ l : Layout, l.IsProper → Located.ofSource l.text = .ok l.located) ∧
    ∀ l l' : Layout, l.IsProper → l'.IsProper → l.tokens = l'.tokens →
      SameOutcome l.located l'.located (Pattern.parse l.text) (Pattern.parse l'.text) ∧
      SameOutcome l.located l'.located (Statement.parse l.text) (Statement.parse l'.text) ∧
      SameOutcome l.located l'.located (Relation.parse l.text) (Relation.parse l'.text) := by
  refine ⟨fun l => Layout.ofSource_text, fun l l' hl hl' htokens => ?_⟩
  have hts := Layout.ofSource_text hl
  have hus := Layout.ofSource_text hl'
  have h : l.located.map Located.token = l'.located.map Located.token := by
    rw [l.map_token_located, l'.map_token_located, htokens]
  rw [Pattern.parse_eq, Statement.parse_eq, Relation.parse_eq]
  exact ⟨parseWith_sameOutcome hts hus (Pattern.ofTokens_sameOutcome h),
    parseWith_sameOutcome hts hus (Statement.ofTokens_sameOutcome h),
    parseWith_sameOutcome hts hus (Relation.ofTokens_sameOutcome h)⟩

/-- The same syntax error without layout and behind a comment. -/
theorem parse_ignores_layout_comment :
    SameOutcome
      [⟨.parenOpen, 0, 1⟩, ⟨.label "wife", 1, 5⟩, ⟨.var (.visible "x"), 5, 7⟩]
      [⟨.parenOpen, 0, 1⟩, ⟨.label "wife", 2, 6⟩, ⟨.var (.visible "x"), 12, 14⟩]
      (Relation.parse "(wife$x") (Relation.parse "( wife# é$\n$x#") := by
  let bare : Layout := ⟨[⟨[], .parenOpen⟩, ⟨[], .label "wife"⟩, ⟨[], .var (.visible "x")⟩], []⟩
  let spread : Layout := ⟨[⟨[], .parenOpen⟩, ⟨[' '], .label "wife"⟩,
    ⟨['#', ' ', 'é', '$', '\n'], .var (.visible "x")⟩], ['#']⟩
  have hwritable : ∀ t ∈ [Token.parenOpen, .label "wife", .var (.visible "x")],
      t.IsWritable := by
    have hlabel : IsLabelName "wife" := by decide
    have hname : IsVariableName "x" := by decide
    simp [Token.IsWritable, Variable.IsWritable, hlabel, hname]
  have hbare : bare.IsProper := by
    refine ⟨List.forall_mem_map.mp hwritable, ?_, .gap .nil, ?_⟩
    · simp [bare, IsGap.nil]
    · simp [bare, Token.endsInName, Token.beginsInName]
  have hspread : spread.IsProper := by
    have hline : '\n' ∉ [' ', 'é', '$'] := by decide
    have hcomment : IsGap ['#', ' ', 'é', '$', '\n'] := .comment hline .nil
    have hblank : IsGap [' '] := .blank rfl .nil
    refine ⟨List.forall_mem_map.mp hwritable, ?_, IsLastGap.comment .nil nofun, ?_⟩
    · simp [spread, hcomment, hblank, IsGap.nil]
    · simp [spread, Token.endsInName, Token.beginsInName]
  have hsame := (parse_ignores_layout.2 bare spread hbare hspread rfl).2.2
  have hlocated : bare.located = [⟨.parenOpen, 0, 1⟩, ⟨.label "wife", 1, 5⟩,
      ⟨.var (.visible "x"), 5, 7⟩] := by decide +kernel
  have hlocated' : spread.located = [⟨.parenOpen, 0, 1⟩, ⟨.label "wife", 2, 6⟩,
      ⟨.var (.visible "x"), 12, 14⟩] := by decide +kernel
  have htext : bare.text = "(wife$x" := by decide +kernel
  have htext' : spread.text = "( wife# é$\n$x#" := by decide +kernel
  rwa [hlocated, hlocated', htext, htext'] at hsame

end GraphPattern
