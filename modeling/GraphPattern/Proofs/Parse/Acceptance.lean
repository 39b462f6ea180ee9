import GraphPattern.Proofs.Parse.Settling
import GraphPattern.Proofs.Surface.Recognition

/-!
Acceptance. A source parses exactly if the grammar derives its tokens from a surface form
that is consistent and not mixed, and the result is the value that the form denotes. The
readers recognize the grammar, so a row of tokens has at most one derivation.
-/

namespace GraphPattern

open Surface (relationReader_recognizes statementReader_recognizes patternReader_recognizes)

variable {ts : List Located}

theorem Pattern.ofTokens_eq_ok_iff {p : Pattern} :
    Pattern.ofTokens ts = .ok p ↔
      ∃ f : Surface.Pattern, f.Derives (ts.map Located.token) ∧ f.IsConsistent ∧
        p = f.denoted := by
  simp only [ofTokens_eq, patternReader_recognizes.readWith_eq_ok_iff, mapError_eq_ok_iff,
    Surface.Pattern.meaning_eq_ok_iff]

theorem Statement.ofTokens_eq_ok_iff {s : Statement} :
    Statement.ofTokens ts = .ok s ↔
      ∃ f : Surface.Statement, f.Derives (ts.map Located.token) ∧ f.IsConsistent ∧
        s = f.denoted := by
  simp only [ofTokens_eq, statementReader_recognizes.readWith_eq_ok_iff, mapError_eq_ok_iff,
    Surface.Statement.meaning_eq_ok_iff]

theorem Relation.ofTokens_eq_ok_iff {r : Relation} :
    Relation.ofTokens ts = .ok r ↔
      ∃ as, Surface.RelationDerives as (ts.map Located.token) ∧
        r = ⟨as.map Surface.RolePlayer.meaning⟩ := by
  simp only [ofTokens_eq, relationReader_recognizes.readWith_eq_ok_iff, Except.ok.injEq, eq_comm]

/-- If a reader returns the denotations of consistent forms, and the check refuses those of
mixed ones, then the parser accepts exactly the consistent forms that are not mixed. -/
theorem parseWith_eq_ok_iff_of_forms {φ β : Type} {read : List Located → Except Error β}
    {check : β → Except Clash Unit} {Derives : φ → List Token → Prop}
    {IsConsistent IsMixed : φ → Prop} {denoted : φ → β}
    (hread : ∀ {ts b}, read ts = .ok b ↔
      ∃ f, Derives f (ts.map Located.token) ∧ IsConsistent f ∧ b = denoted f)
    (hcheck : ∀ f, check (denoted f) = .ok () ↔ ¬ IsMixed f) {source : String} {b : β} :
    parseWith read check source = .ok b ↔
      ∃ (ts : List Located) (f : φ), Located.ofSource source = .ok ts ∧
        Derives f (ts.map Located.token) ∧ IsConsistent f ∧ ¬ IsMixed f ∧ b = denoted f := by
  rw [parseWith_eq_ok_iff]
  constructor
  · rintro ⟨ts, hts, hok, hvalid⟩
    obtain ⟨f, hf, hconsistent, rfl⟩ := hread.mp hok
    exact ⟨ts, f, hts, hf, hconsistent, (hcheck f).mp hvalid, rfl⟩
  · rintro ⟨ts, f, hts, hf, hconsistent, hmixed, rfl⟩
    exact ⟨ts, hts, hread.mpr ⟨f, hf, hconsistent, rfl⟩, (hcheck f).mpr hmixed⟩

theorem Pattern.parse_eq_ok_iff {source : String} {p : Pattern} :
    Pattern.parse source = .ok p ↔
      ∃ (ts : List Located) (f : Surface.Pattern), Located.ofSource source = .ok ts ∧
        f.Derives (ts.map Located.token) ∧ f.IsConsistent ∧ ¬ f.IsMixed ∧ p = f.denoted := by
  rw [parse_eq]
  exact parseWith_eq_ok_iff_of_forms ofTokens_eq_ok_iff
    Surface.Pattern.validate_denoted_eq_ok_iff

theorem Statement.parse_eq_ok_iff {source : String} {s : Statement} :
    Statement.parse source = .ok s ↔
      ∃ (ts : List Located) (f : Surface.Statement), Located.ofSource source = .ok ts ∧
        f.Derives (ts.map Located.token) ∧ f.IsConsistent ∧ ¬ f.IsMixed ∧ s = f.denoted := by
  rw [parse_eq]
  exact parseWith_eq_ok_iff_of_forms ofTokens_eq_ok_iff
    Surface.Statement.validate_denoted_eq_ok_iff

theorem Relation.parse_eq_ok_iff {source : String} {r : Relation} :
    Relation.parse source = .ok r ↔
      ∃ (ts : List Located) (as : List Surface.RolePlayer), Located.ofSource source = .ok ts ∧
        Surface.RelationDerives as (ts.map Located.token) ∧
        r = ⟨as.map Surface.RolePlayer.meaning⟩ := by
  rw [parse_eq, parseWith_eq_ok_iff]
  constructor
  · rintro ⟨ts, hts, hread, -⟩
    obtain ⟨as, has, hr⟩ := ofTokens_eq_ok_iff.mp hread
    exact ⟨ts, as, hts, has, hr⟩
  · rintro ⟨ts, as, hts, has, hr⟩
    exact ⟨ts, hts, ofTokens_eq_ok_iff.mpr ⟨as, has, hr⟩, rfl⟩

/-- The parsers are sound and complete for the grammar. They accept the token rows that are
derived by consistent forms without a kind clash, and return the denotation of the
derivation, of which there is at most one. -/
theorem parse_eq_ok_iff_derives :
    (∀ (source : String) (p : Pattern), Pattern.parse source = .ok p ↔
      ∃ (ts : List Located) (f : Surface.Pattern), Located.ofSource source = .ok ts ∧
        f.Derives (ts.map Located.token) ∧ f.IsConsistent ∧ ¬ f.IsMixed ∧ p = f.denoted) ∧
    (∀ (source : String) (s : Statement), Statement.parse source = .ok s ↔
      ∃ (ts : List Located) (f : Surface.Statement), Located.ofSource source = .ok ts ∧
        f.Derives (ts.map Located.token) ∧ f.IsConsistent ∧ ¬ f.IsMixed ∧ s = f.denoted) ∧
    (∀ (source : String) (r : Relation), Relation.parse source = .ok r ↔
      ∃ (ts : List Located) (as : List Surface.RolePlayer), Located.ofSource source = .ok ts ∧
        Surface.RelationDerives as (ts.map Located.token) ∧
        r = ⟨as.map Surface.RolePlayer.meaning⟩) ∧
    ∀ tokens : List Token,
      {f : Surface.Pattern | f.Derives tokens}.Subsingleton ∧
      {f : Surface.Statement | f.Derives tokens}.Subsingleton ∧
      {as : List Surface.RolePlayer | Surface.RelationDerives as tokens}.Subsingleton := by
  refine ⟨fun _ _ => Pattern.parse_eq_ok_iff, fun _ _ => Statement.parse_eq_ok_iff,
    fun _ _ => Relation.parse_eq_ok_iff, fun tokens => ⟨?_, ?_, ?_⟩⟩
  · intro f hf g hg
    exact patternReader_recognizes.unique hf hg
  · intro f hf g hg
    exact statementReader_recognizes.unique hf hg
  · intro as has bs hbs
    exact relationReader_recognizes.unique has hbs

theorem parse_eq_ok_iff_derives_repeated :
    Pattern.parse "match $x ($y, wife: $_) isa $t isa $t; type person;" =
      .ok ⟨[⟨.visible "x", [.relation [.plain (.bare (.visible "y")),
          .tagged (.ofLabel "wife") (.bare .anonymous)], .isa (.bare (.visible "t"))]⟩,
        .ofLabel "person"]⟩ := by
  let first : Surface.Statement := ⟨some (.visible "x"),
    [.relation [.plain (.visible "y"), .tagged (.label "wife") .anonymous],
      .isa (.var (.visible "t")), .isa (.var (.visible "t"))]⟩
  let second : Surface.Statement := ⟨none, [.type "person"]⟩
  have hts : Located.ofSource "match $x ($y, wife: $_) isa $t isa $t; type person;" =
      .ok [⟨.matchWord, 0, 5⟩, ⟨.var (.visible "x"), 6, 8⟩, ⟨.parenOpen, 9, 10⟩,
        ⟨.var (.visible "y"), 10, 12⟩, ⟨.comma, 12, 13⟩, ⟨.label "wife", 14, 18⟩, ⟨.colon, 18, 19⟩,
        ⟨.var .anonymous, 20, 22⟩, ⟨.parenClose, 22, 23⟩, ⟨.isaWord, 24, 27⟩,
        ⟨.var (.visible "t"), 28, 30⟩, ⟨.isaWord, 31, 34⟩, ⟨.var (.visible "t"), 35, 37⟩,
        ⟨.semicolon, 37, 38⟩, ⟨.typeWord, 39, 43⟩, ⟨.label "person", 44, 50⟩,
        ⟨.semicolon, 50, 51⟩] := by decide +kernel
  refine (parse_eq_ok_iff_derives.1 _ _).mpr ⟨_, ⟨true, [first, second]⟩, hts, ?_, ?_, ?_, ?_⟩
  · have hfirst : first.IsWritten := ⟨by decide, by decide⟩
    have hsecond : second.IsWritten := ⟨by decide, by decide⟩
    exact Surface.Pattern.derives_iff.mpr ⟨⟨by decide, by simp [hfirst, hsecond]⟩, rfl⟩
  · decide +kernel
  · decide +kernel
  · decide +kernel

end GraphPattern
