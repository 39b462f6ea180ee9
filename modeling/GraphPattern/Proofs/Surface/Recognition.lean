import GraphPattern.Proofs.Automaton.Recognition
import GraphPattern.Proofs.Surface.ReadBack

/-!
The readers recognize the grammar. Soundness is known from reading their states back. It
remains that they accept every derived row, that every state reached can be completed, and
that they depend on the classes of tokens only.

The readers are nested, and the state of an inner reader is embedded in that of the outer
one. The lemmas named `reach?_current` and `reach?_inRelation` say so, and they carry every
fact about an inner reader outwards.
-/

namespace GraphPattern.Surface

open Automaton

/-! ### Relations -/

theorem relationReader_player {a : RolePlayer} {ts : List Token} (h : a.Derives ts)
    (done : List RolePlayer) :
    relationReader.reach? (.awaiting done) (ts ++ [.comma]) =
        some (.awaiting (done ++ [a])) ∧
      relationReader.reach? (.awaiting done) (ts ++ [.parenClose]) =
        some (.closed (done ++ [a])) := by
  rcases h with _ | ⟨player, _ | _⟩
  all_goals exact ⟨rfl, rfl⟩

theorem relationReader_players {as : List RolePlayer} {ts : List Token}
    (h : PlayersDerive as ts) (done : List RolePlayer) :
    relationReader.reach? (.awaiting done) (ts ++ [.parenClose]) =
      some (.closed (done ++ as)) := by
  induction h generalizing done with
  | one h => exact (relationReader_player h done).2
  | @cons a as ts us h _ ih =>
      have hcomma := (relationReader_player h done).1
      rw [List.append_assoc, List.cons_append, List.append_cons,
        reach?_append_of_eq hcomma, ih (done ++ [a]), List.append_assoc, List.singleton_append]

theorem relationReader_derives {as : List RolePlayer} {ts : List Token}
    (h : RelationDerives as ts) : relationReader.reach? .outside ts = some (.closed as) := by
  obtain ⟨h⟩ := h
  exact (reach?_cons_of_eq rfl _).trans (relationReader_players h [])

/-- Every state of the relation reader can be completed. -/
theorem relationReader_live (r : RelationProgress) :
    ∃ us as, relationReader.reach? r us = some (.closed as) := by
  cases r with
  | outside => exact ⟨[.parenOpen, .var .anonymous, .parenClose], _, rfl⟩
  | awaiting as => exact ⟨[.var .anonymous, .parenClose], _, rfl⟩
  | roleOrPlayer as v => exact ⟨[.parenClose], _, rfl⟩
  | role as name => exact ⟨[.colon, .var .anonymous, .parenClose], _, rfl⟩
  | tagged as role => exact ⟨[.var .anonymous, .parenClose], _, rfl⟩
  | complete as => exact ⟨[.parenClose], _, rfl⟩
  | closed as => exact ⟨[], as, rfl⟩

/-- The outline of a relation state, without names and labels. -/
def RelationProgress.outline : RelationProgress → RelationProgress
  | outside => outside
  | awaiting _ => awaiting []
  | roleOrPlayer _ _ => roleOrPlayer [] .anonymous
  | role _ _ => role [] ""
  | tagged _ _ => tagged [] (.var .anonymous)
  | complete _ => complete []
  | closed _ => closed []

theorem RelationProgress.step_outline (r : RelationProgress) (t : Token) :
    (r.step t).map outline = (r.outline.step t.terminal.sample).map outline := by
  cases r <;> rcases t with _ | _ | _ | (_ | _) | _ | _ | _ | _ | _ | _ <;> rfl

theorem relationReader_recognizes : relationReader.Recognizes RelationDerives where
  derives_iff {as ts} := by
    constructor
    · intro h
      exact ⟨.closed as, relationReader_derives h, rfl⟩
    · rintro ⟨r, hreach, hresult⟩
      obtain ⟨hwritten, rfl⟩ := relationReader_tokens hreach
      cases r with
      | closed bs =>
          cases hresult
          exact relationDerives_iff.mpr ⟨hwritten, rfl⟩
      | _ => cases hresult
  live {ts r} _ := by
    obtain ⟨us, as, hreach⟩ := relationReader_live r
    exact ⟨us, .closed as, as, hreach, rfl⟩
  blind := by
    refine blind_of_outline RelationProgress.step_outline ?_
    intro r
    cases r <;> rfl

/-! ### Statements -/

theorem reach?_inRelation {s : Statement} {r r' : RelationProgress} {ts : List Token}
    (h : relationReader.reach? r ts = some r') :
    statementReader.reach? (.inRelation s r) ts = some (.inRelation s r') := by
  refine reach?_embedded (StatementProgress.inRelation s) ?_ h
  intro r t r' hstep
  -- A closed relation takes no token, so the outer reader is still inside the relation.
  cases r with
  | closed as => cases hstep
  | _ => exact congrArg (Option.map (StatementProgress.inRelation s)) hstep

theorem statementReader_property {p : Property} {ts : List Token} (h : p.Derives ts)
    (s : Statement) :
    statementReader.reach? (.complete s) ts = some (.complete (s.push p)) := by
  rcases h with @⟨as, ts, h⟩ | ⟨_ | _⟩ | _
  · obtain ⟨hplayers⟩ := h
    refine (reach?_cons_of_eq rfl _).trans ?_
    exact reach?_inRelation (r := .awaiting []) (relationReader_players hplayers [])
  all_goals rfl

/-- The statement reader accepts a property at the start as it does behind a subject. -/
theorem statementReader_start {p : Property} {ts : List Token} (h : p.Derives ts) :
    statementReader.reach? .start ts = statementReader.reach? (.complete .empty) ts := by
  rcases h with ⟨⟨h⟩⟩ | h | _
  all_goals rfl

theorem statementReader_properties {ps : List Property} {ts : List Token}
    (h : PropertiesDerive ps ts) (s : Statement) :
    statementReader.reach? (.complete s) ts =
      some (.complete { s with properties := s.properties ++ ps }) := by
  induction h generalizing s with
  | nil => rw [List.append_nil, reach?_nil]
  | cons h _ ih =>
      rw [reach?_append_of_eq (statementReader_property h s), ih]
      simp [Statement.push]

theorem statementReader_derives {s : Statement} {ts : List Token} (h : s.Derives ts) :
    statementReader.reach? .start ts = some (.complete s) := by
  rcases h with ⟨v, hs⟩ | ⟨h, hs⟩
  · exact (reach?_cons_of_eq rfl _).trans (statementReader_properties hs ⟨some v, []⟩)
  · have hfirst := (statementReader_start h).trans (statementReader_property h .empty)
    rw [reach?_append_of_eq hfirst, statementReader_properties hs]
    rfl

/-- Every state of the statement reader can be completed. -/
theorem statementReader_live {c : StatementProgress} (hc : c.IsWritten) :
    ∃ us s, statementReader.reach? c us = some (.complete s) := by
  cases c with
  | start => exact ⟨[.var .anonymous], _, rfl⟩
  | isa s => exact ⟨[.var .anonymous], _, rfl⟩
  | type s => exact ⟨[.label ""], _, rfl⟩
  | relation s r =>
      obtain ⟨us, as, hreach⟩ := relationReader_live r
      have hin := reach?_inRelation (s := s) hreach
      rw [hc.2.2] at hin
      exact ⟨us, _, hin⟩
  | complete s => exact ⟨[], s, rfl⟩

/-- The outline of a statement state, without names and labels. -/
def StatementProgress.outline : StatementProgress → StatementProgress
  | start => start
  | isa _ => isa .empty
  | type _ => type .empty
  | relation _ r => relation .empty r.outline
  | complete _ => complete .empty

theorem StatementProgress.outline_comp_inRelation (s : Statement) :
    outline ∘ inRelation s = (outline ∘ inRelation .empty) ∘ RelationProgress.outline := by
  funext r
  cases r <;> rfl

theorem StatementProgress.step_outline (c : StatementProgress) (t : Token) :
    (c.step t).map outline = (c.outline.step t.terminal.sample).map outline := by
  cases c with
  | relation s r =>
      calc ((r.step t).map (inRelation s)).map outline
          = ((r.step t).map RelationProgress.outline).map (outline ∘ inRelation .empty) := by
            rw [Option.map_map, Option.map_map, outline_comp_inRelation]
        _ = ((r.outline.step t.terminal.sample).map RelationProgress.outline).map
              (outline ∘ inRelation .empty) := by
            rw [r.step_outline]
        _ = ((r.outline.step t.terminal.sample).map (inRelation .empty)).map outline := by
            rw [Option.map_map, Option.map_map, ← outline_comp_inRelation]
  | _ => rcases t with _ | _ | _ | (_ | _) | _ | _ | _ | _ | _ | _ <;> rfl

theorem statementReader_recognizes : statementReader.Recognizes Statement.Derives where
  derives_iff {s ts} := by
    constructor
    · intro h
      exact ⟨.complete s, statementReader_derives h, rfl⟩
    · rintro ⟨c, hreach, hresult⟩
      obtain ⟨hwritten, rfl⟩ := statementReader_tokens hreach
      cases c with
      | complete r =>
          cases hresult
          exact Statement.derives_iff.mpr ⟨hwritten, rfl⟩
      | _ => cases hresult
  live {ts c} h := by
    obtain ⟨us, s, hreach⟩ := statementReader_live (statementReader_tokens h).1
    exact ⟨us, .complete s, s, hreach, rfl⟩
  blind := by
    refine blind_of_outline StatementProgress.step_outline ?_
    intro c
    cases c <;> rfl

/-! ### Patterns -/

theorem reach?_current {introduced : Bool} {closed : List Statement}
    {c c' : StatementProgress} {ts : List Token} (h : statementReader.reach? c ts = some c') :
    patternReader.reach? ⟨introduced, closed, c⟩ ts = some ⟨introduced, closed, c'⟩ := by
  refine reach?_embedded (PatternProgress.mk introduced closed) ?_ h
  intro c t c' hstep
  -- The statement reader takes neither `match` nor a semicolon.
  cases t with
  | matchWord => rcases c with _ | _ | _ | ⟨_, _ | _⟩ | _ <;> cases hstep
  | semicolon => rcases c with _ | _ | _ | ⟨_, _ | _⟩ | _ <;> cases hstep
  | _ => exact congrArg (Option.map (PatternProgress.mk introduced closed)) hstep

theorem patternReader_statement {s : Statement} {ts : List Token} (h : s.Derives ts)
    (introduced : Bool) (done : List Statement) :
    patternReader.reach? ⟨introduced, done, .start⟩ (ts ++ [.semicolon]) =
      some ⟨introduced, done ++ [s], .start⟩ := by
  rw [reach?_append_of_eq (reach?_current (statementReader_derives h))]
  rfl

theorem patternReader_statements {ss : List Statement} {ts : List Token}
    (h : StatementsDerive ss ts) (introduced : Bool) (done : List Statement) :
    patternReader.reach? ⟨introduced, done, .start⟩ ts =
      some ⟨introduced, done ++ ss, .start⟩ := by
  induction h generalizing done with
  | one h => exact patternReader_statement h introduced done
  | cons h _ ih =>
      rw [List.append_cons, reach?_append_of_eq (patternReader_statement h introduced done), ih,
        List.append_assoc, List.singleton_append]

theorem patternReader_derives {p : Pattern} {ts : List Token} (h : p.Derives ts) :
    patternReader.reach? .start ts = some ⟨p.introduced, p.statements, .start⟩ := by
  rcases h with h | h
  · exact (reach?_cons_of_eq rfl _).trans (patternReader_statements h true [])
  · exact patternReader_statements h false []

/-- The outline of a pattern state, without names and labels. -/
def PatternProgress.outline (p : PatternProgress) : PatternProgress :=
  ⟨p.introduced, p.closed.map fun _ => .empty, p.current.outline⟩

theorem PatternProgress.step_outline (p : PatternProgress) (t : Token) :
    (p.step t).map outline = (p.outline.step t.terminal.sample).map outline := by
  obtain ⟨introduced, closed, current⟩ := p
  have hcurrent := congrArg
    (Option.map (PatternProgress.mk introduced (closed.map fun _ => .empty)))
    (current.step_outline t)
  rcases t with _ | _ | _ | (_ | _) | _ | _ | _ | _ | _ | _
  case matchWord => cases introduced <;> cases closed <;> cases current <;> rfl
  case semicolon => cases current <;> simp [step, outline, Terminal.sample, Token.terminal,
      StatementProgress.outline, StatementProgress.result?]
  all_goals simpa [step, outline, Function.comp_def, Token.terminal, Terminal.sample] using hcurrent

theorem patternReader_recognizes : patternReader.Recognizes Pattern.Derives where
  derives_iff {p ts} := by
    constructor
    · intro h
      refine ⟨_, patternReader_derives h, ?_⟩
      obtain ⟨s, ss, hss⟩ := List.exists_cons_of_ne_nil (Pattern.derives_iff.mp h).1.nonempty
      obtain ⟨introduced, statements⟩ := p
      obtain rfl : statements = s :: ss := hss
      rfl
    · rintro ⟨⟨introduced, closed, current⟩, hreach, hresult⟩
      obtain ⟨hwritten, rfl⟩ := patternReader_tokens hreach
      cases closed with
      | nil => cases hresult
      | cons s ss =>
          cases current with
          | start =>
              cases hresult
              refine Pattern.derives_iff.mpr ⟨⟨List.cons_ne_nil s ss, hwritten.closed⟩, ?_⟩
              exact List.append_nil _
          | _ => cases hresult
  live {ts p} h := by
    obtain ⟨introduced, closed, current⟩ := p
    obtain ⟨us, s, hreach⟩ := statementReader_live (patternReader_tokens h).1.current
    refine ⟨us ++ [Token.semicolon], ⟨introduced, closed ++ [s], .start⟩,
      ⟨introduced, closed ++ [s]⟩, ?_, ?_⟩
    · exact reach?_append_of_eq (reach?_current hreach) _
    · cases closed <;> rfl
  blind := by
    refine blind_of_outline PatternProgress.step_outline ?_
    rintro ⟨introduced, closed, current⟩
    cases closed <;> cases current <;> rfl

end GraphPattern.Surface
