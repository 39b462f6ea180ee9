import GraphPattern.Surface.Progress
import GraphPattern.Proofs.Automaton.Reach
import GraphPattern.Proofs.Surface.Grammar

/-!
Soundness of the readers. The state of a reader determines the tokens that led to it:
`tokens` reads them back, for each kind of progress, and a step appends exactly the token it
takes. So the result of a reader is a form whose tokens are those that were read.

Reading back requires that finished parts of the state are written, so that a player
precedes every comma and every closed statement has a subject or a property. `IsWritten` is
this invariant, and the same lemma shows that steps preserve it.
-/

namespace GraphPattern.Surface

/-! ### Relations -/

/-- The tokens of players, each followed by a comma. -/
def openTokens (as : List RolePlayer) : List Token :=
  .parenOpen :: as.flatMap fun a => a.tokens ++ [.comma]

theorem openTokens_concat (as : List RolePlayer) (a : RolePlayer) :
    openTokens (as ++ [a]) = openTokens as ++ a.tokens ++ [.comma] := by
  simp [openTokens]

theorem playersTokens_concat (as : List RolePlayer) (a : RolePlayer) :
    .parenOpen :: playersTokens (as ++ [a]) = openTokens as ++ a.tokens := by
  induction as with
  | nil => simp [openTokens]
  | cons b as ih =>
      rw [List.cons_append, playersTokens_cons (by simp)]
      simpa [openTokens] using ih

theorem openTokens_of_ne_nil {as : List RolePlayer} (h : as ≠ []) :
    openTokens as = .parenOpen :: playersTokens as ++ [.comma] := by
  rw [← List.dropLast_concat_getLast h, openTokens_concat, playersTokens_concat]

namespace RelationProgress

/-- The tokens that led to the state. -/
def tokens : RelationProgress → List Token
  | outside => []
  | awaiting as => openTokens as
  | roleOrPlayer as v => openTokens as ++ [.var v]
  | role as name => openTokens as ++ [.label name]
  | tagged as r => openTokens as ++ r.tokens ++ [.colon]
  | complete as => .parenOpen :: playersTokens as
  | closed as => relationTokens as

/-- A complete or closed relation has players. -/
def IsWritten : RelationProgress → Prop
  | complete as | closed as => as ≠ []
  | _ => True

theorem step_tokens {r r' : RelationProgress} {t : Token} (hr : r.IsWritten)
    (h : r.step t = some r') : r'.IsWritten ∧ r'.tokens = r.tokens ++ [t] := by
  cases r with
  | outside =>
      cases t with
      | parenOpen => cases h; exact ⟨trivial, rfl⟩
      | _ => cases h
  | awaiting as =>
      cases t with
      | var v => cases h; exact ⟨trivial, rfl⟩
      | label name => cases h; exact ⟨trivial, rfl⟩
      | _ => cases h
  | roleOrPlayer as v =>
      cases t with
      | colon => cases h; exact ⟨trivial, rfl⟩
      | comma => cases h; exact ⟨trivial, openTokens_concat as (.plain v)⟩
      | parenClose =>
          cases h
          refine ⟨List.concat_ne_nil _ _, ?_⟩
          exact congrArg (· ++ [.parenClose]) (playersTokens_concat as (.plain v))
      | _ => cases h
  | role as name =>
      cases t with
      | colon => cases h; exact ⟨trivial, rfl⟩
      | _ => cases h
  | tagged as role =>
      cases t with
      | var v =>
          cases h
          refine ⟨List.concat_ne_nil _ _, ?_⟩
          simpa [tokens, RolePlayer.tokens] using playersTokens_concat as (.tagged role v)
      | _ => cases h
  | complete as =>
      cases t with
      -- The invariant is used here: a player precedes the comma.
      | comma => cases h; exact ⟨trivial, openTokens_of_ne_nil hr⟩
      | parenClose => cases h; exact ⟨hr, rfl⟩
      | _ => cases h
  | closed as => cases h

end RelationProgress

theorem relationReader_tokens {ts : List Token} {r : RelationProgress}
    (h : relationReader.reach? relationReader.start ts = some r) :
    r.IsWritten ∧ r.tokens = ts := by
  refine Automaton.reach?_induction (motive := fun r ts => r.IsWritten ∧ r.tokens = ts)
    ⟨trivial, rfl⟩ ?_ h
  rintro r ts t r' ⟨hr, rfl⟩ hstep
  exact RelationProgress.step_tokens hr hstep

/-! ### Statements -/

theorem Statement.tokens_push (s : Statement) (p : Property) :
    (s.push p).tokens = s.tokens ++ p.tokens := by
  simp [Statement.tokens, Statement.push]

/-- A statement form under construction, which may still be empty. -/
def Statement.IsBegun (s : Statement) : Prop := ∀ p ∈ s.properties, p.IsWritten

theorem Statement.isBegun_empty : Statement.empty.IsBegun := nofun

theorem Statement.IsBegun.push {s : Statement} (hs : s.IsBegun) {p : Property}
    (hp : p.IsWritten) : (s.push p).IsWritten where
  nonempty _ := List.concat_ne_nil _ _
  properties := by
    simp only [Statement.push, List.forall_mem_append, List.forall_mem_singleton]
    exact ⟨hs, hp⟩

namespace StatementProgress

/-- The tokens that led to the state. -/
def tokens : StatementProgress → List Token
  | start => []
  | isa s => s.tokens ++ [.isaWord]
  | type s => s.tokens ++ [.typeWord]
  | relation s r => s.tokens ++ r.tokens
  | complete s => s.tokens

/-- A relation state inside a statement is not closed, and a complete statement is written.
-/
def IsWritten : StatementProgress → Prop
  | start => True
  | isa s | type s => s.IsBegun
  | relation s r => s.IsBegun ∧ r.IsWritten ∧ inRelation s r = relation s r
  | complete s => s.IsWritten

theorem property_tokens {s : Statement} {c : StatementProgress} {t : Token} (hs : s.IsBegun)
    (h : property s t = some c) : c.IsWritten ∧ c.tokens = s.tokens ++ [t] := by
  cases t with
  | isaWord => cases h; exact ⟨hs, rfl⟩
  | typeWord => cases h; exact ⟨hs, rfl⟩
  | parenOpen => cases h; exact ⟨⟨hs, trivial, rfl⟩, rfl⟩
  | _ => cases h

theorem inRelation_tokens {s : Statement} {r : RelationProgress} (hs : s.IsBegun)
    (hr : r.IsWritten) :
    (inRelation s r).IsWritten ∧ (inRelation s r).tokens = s.tokens ++ r.tokens := by
  cases r with
  | closed as => exact ⟨hs.push hr, s.tokens_push (.relation as)⟩
  | _ => exact ⟨⟨hs, hr, rfl⟩, rfl⟩

theorem step_tokens {c c' : StatementProgress} {t : Token} (hc : c.IsWritten)
    (h : c.step t = some c') : c'.IsWritten ∧ c'.tokens = c.tokens ++ [t] := by
  cases c with
  | start =>
      cases t with
      | var v => cases h; exact ⟨⟨nofun, nofun⟩, rfl⟩
      | _ => exact property_tokens Statement.isBegun_empty h
  | isa s =>
      cases t with
      | label _ | var _ =>
          cases h
          refine ⟨hc.push trivial, ?_⟩
          simp [tokens, Statement.tokens_push, Property.tokens, TypeRef.tokens]
      | _ => cases h
  | type s =>
      cases t with
      | label name =>
          cases h
          refine ⟨hc.push trivial, ?_⟩
          simp [tokens, Statement.tokens_push, Property.tokens]
      | _ => cases h
  | relation s r =>
      obtain ⟨hs, hr, -⟩ := hc
      obtain ⟨r', hstep, rfl⟩ := Option.map_eq_some_iff.mp h
      obtain ⟨hr', htokens⟩ := RelationProgress.step_tokens hr hstep
      obtain ⟨hwritten, hin⟩ := inRelation_tokens hs hr'
      exact ⟨hwritten, by rw [hin, htokens, tokens, List.append_assoc]⟩
  | complete s => exact property_tokens hc.properties h

end StatementProgress

theorem statementReader_tokens {ts : List Token} {c : StatementProgress}
    (h : statementReader.reach? statementReader.start ts = some c) :
    c.IsWritten ∧ c.tokens = ts := by
  refine Automaton.reach?_induction (motive := fun c ts => c.IsWritten ∧ c.tokens = ts)
    ⟨trivial, rfl⟩ ?_ h
  rintro c ts t c' ⟨hc, rfl⟩ hstep
  exact StatementProgress.step_tokens hc hstep

/-! ### Patterns -/

namespace PatternProgress

/-- The tokens that led to the state. -/
def tokens (p : PatternProgress) : List Token :=
  (if p.introduced then [.matchWord] else []) ++ statementsTokens p.closed ++ p.current.tokens

/-- The closed statements are written, and so is the state of the current one. -/
structure IsWritten (p : PatternProgress) : Prop where
  closed : ∀ s ∈ p.closed, s.IsWritten
  current : p.current.IsWritten

theorem step_tokens {p p' : PatternProgress} {t : Token} (hp : p.IsWritten)
    (h : p.step t = some p') : p'.IsWritten ∧ p'.tokens = p.tokens ++ [t] := by
  obtain ⟨introduced, closed, current⟩ := p
  obtain ⟨hclosed, hcurrent⟩ := hp
  cases t with
  | matchWord =>
      cases introduced with
      | true => cases h
      | false =>
          cases closed with
          | cons s ss => cases h
          | nil =>
              cases current with
              | start => cases h; exact ⟨⟨nofun, trivial⟩, rfl⟩
              | _ => cases h
  | semicolon =>
      obtain ⟨s, hresult, rfl⟩ := Option.map_eq_some_iff.mp h
      cases current with
      | complete r =>
          cases hresult
          refine ⟨⟨?_, trivial⟩, ?_⟩
          · simp only [List.forall_mem_append, List.forall_mem_singleton]
            exact ⟨hclosed, hcurrent⟩
          · simp [tokens, statementsTokens, StatementProgress.tokens]
      | _ => cases hresult
  | _ =>
      obtain ⟨current', hstep, rfl⟩ := Option.map_eq_some_iff.mp h
      obtain ⟨hwritten, htokens⟩ := StatementProgress.step_tokens hcurrent hstep
      exact ⟨⟨hclosed, hwritten⟩, by simp only [tokens, htokens, List.append_assoc]⟩

end PatternProgress

theorem patternReader_tokens {ts : List Token} {p : PatternProgress}
    (h : patternReader.reach? patternReader.start ts = some p) :
    p.IsWritten ∧ p.tokens = ts := by
  refine Automaton.reach?_induction (motive := fun p ts => p.IsWritten ∧ p.tokens = ts)
    ⟨⟨nofun, trivial⟩, rfl⟩ ?_ h
  rintro p ts t p' ⟨hp, rfl⟩ hstep
  exact PatternProgress.step_tokens hp hstep

end GraphPattern.Surface
