import GraphPattern.Proofs.Parse.Assembly
import GraphPattern.Proofs.Surface.Exact

/-!
Parsing the text of an arbitrary statement. Printing does not delimit nested statements. A
role or a player with properties of its own gives a text that does not parse. A type that is
a variable with properties of its own gives a text that may parse, but as the statement to
which these properties have moved.
-/

namespace GraphPattern

namespace Statement

/-- The text of a statement with writable tokens parses exactly if its deduplicated spread
is in surface form, and that is the result. -/
theorem parse_text_eq_ok_iff {s s' : Statement} (h : ∀ k ∈ s.tokens, k.IsWritable) :
    Statement.parse s.text = .ok s' ↔
      s' = ⟨s.subject, s.spread.properties.eraseDups⟩ ∧ s'.InSurfaceForm := by
  obtain ⟨ts, hts, htokens⟩ := (Statement.reads_chars h).ofSource
  have hparse : Statement.parse s.text = .ok s' ↔
      ∃ f : Surface.Statement, f.IsWritten ∧ s.tokens = f.tokens ∧ f.IsConsistent ∧
        ¬ f.IsMixed ∧ s' = f.denoted := by
    have hsource : Located.ofSource s.text = .ok ts := hts
    simp only [Statement.parse_eq_ok_iff, hsource, Except.ok.injEq, exists_and_left,
      exists_eq_left', htokens, Surface.Statement.derives_iff, and_assoc]
  rw [hparse]
  constructor
  · rintro ⟨f, hwritten, hsame, hconsistent, hmixed, rfl⟩
    have hspread : s.spread = ⟨f.subject, f.propertyMeanings⟩ :=
      Surface.Statement.eq_of_tokens_eq s.isPlain_of_mem_spread hwritten
        (s.tokens_spread.trans hsame)
    have hsubject : s.subject = f.subject := congrArg subject hspread
    rw [hsame] at h
    rw [hsubject, hspread]
    exact ⟨rfl, Surface.Statement.inSurfaceForm_denoted hwritten hconsistent hmixed h⟩
  · rintro ⟨rfl, hform⟩
    obtain ⟨f, hwritten, hsubject, hproperties, hsame, -⟩ :=
      Surface.Statement.exists_propertyMeanings_eq (s := s.spread) hform.subject fun p hp =>
        hform.properties p (List.mem_eraseDups.mpr hp)
    have hdenoted : (⟨s.subject, s.spread.properties.eraseDups⟩ : Statement) = f.denoted := by
      rw [Surface.Statement.denoted, hsubject, hproperties]
      rfl
    refine ⟨f, hwritten, (hsame.trans s.tokens_spread).symm, ?_, ?_, hdenoted⟩
    · rw [Surface.Statement.IsConsistent, hproperties]
      intro p hp q hq hkey
      exact List.inj_on_of_nodup_map hform.nodup (List.mem_eraseDups.mpr hp)
        (List.mem_eraseDups.mpr hq) hkey
    · rw [← f.mixed_denoted_iff, ← hdenoted]
      exact hform.unmixed

/-- The deduplicated spread is the statement itself exactly if all properties are plain. -/
theorem IsCoherent.eraseDups_spread_eq_iff {s : Statement} (h : s.IsCoherent) :
    (⟨s.subject, s.spread.properties.eraseDups⟩ : Statement) = s ↔
      ∀ p ∈ s.properties, p.IsPlain := by
  obtain ⟨v, ps⟩ := s
  have hnodup : ps.Nodup := h.nodup.of_map
  constructor
  · intro hsame p hp
    have hproperties : (spread ⟨v, ps⟩).properties.eraseDups = ps := (mk.inj hsame).2
    rw [← hproperties, List.mem_eraseDups] at hp
    exact isPlain_of_mem_spread ⟨v, ps⟩ p hp
  · intro hplain
    have hflat : ps.flatMap Property.spread = ps.flatMap fun p => [p] :=
      List.flatMap_congr fun p hp => Property.spread_of_isPlain (hplain p hp)
    rw [spread, hflat, List.flatMap_singleton', Surface.eraseDups_eq_self_of_nodup hnodup]

end Statement

/-- If the text of a statement parses, the result is its deduplicated spread. For an
assembled statement this is the statement itself exactly if no type in it is a variable with
properties of its own. -/
theorem parse_text_eq_spread :
    ∀ s : Statement, s.IsAssembled → (∀ t ∈ s.innerStatements, t.HasWritableNames) →
      ∀ s' : Statement,
        (Statement.parse s.text = .ok s' ↔
          s' = ⟨s.subject, (s.properties.flatMap Property.spread).eraseDups⟩ ∧
            s'.InSurfaceForm) ∧
        (Statement.parse s.text = .ok s' → (s' = s ↔ ∀ p ∈ s.properties, p.IsPlain)) := by
  intro s hs hnames s'
  have hread : Statement.parse s.text = .ok s' ↔ _ :=
    Statement.parse_text_eq_ok_iff (Statement.isWritable_tokens hnames)
  refine ⟨hread, fun h => ?_⟩
  obtain ⟨rfl, -⟩ := hread.mp h
  exact (hs.isCoherent s s.self_mem_innerStatements).eraseDups_spread_eq_iff

/-- An assembled statement whose type is a variable with a relation property. -/
theorem isAssembled_of_relation_type :
    let s : Statement :=
      ⟨.visible "x", [.isa ⟨.visible "t", [.relation [.plain (.ofName "y")]]⟩]⟩
    s.IsAssembled ∧ ∀ t ∈ s.innerStatements, t.HasWritableNames := by
  intro s
  have hcalls : (Statement.ofName "x").after
      (.isa ((Statement.ofName "t").after (.relPlayer (.ofName "y")))) = s := by decide +kernel
  have hinner : s.innerStatements =
      [s, ⟨.visible "t", [.relation [.plain (.ofName "y")]]⟩, .ofName "y"] := by decide +kernel
  have hx : IsVariableName "x" := by decide
  have ht : IsVariableName "t" := by decide
  have hy : IsVariableName "y" := by decide
  constructor
  · rw [← hcalls]
    refine .after (.new ⟨"x", rfl⟩) (List.forall_mem_singleton.mpr ?_)
    exact .after (.new ⟨"t", rfl⟩) (List.forall_mem_singleton.mpr (.new ⟨"y", rfl⟩))
  · rw [hinner]
    simp only [List.forall_mem_cons]
    exact ⟨⟨hx, by simp [s]⟩, ⟨ht, by simp⟩,
      ⟨hy, by simp [Statement.ofName, Statement.bare]⟩, List.forall_mem_nil _⟩

/-- The relation has moved from the type to the thing. -/
theorem parse_text_eq_spread_relation :
    Statement.parse "$x isa $t ($y)" =
        .ok ⟨.visible "x", [.isa (.ofName "t"), .relation [.plain (.ofName "y")]]⟩ ∧
      (⟨.visible "x", [.isa (.ofName "t"), .relation [.plain (.ofName "y")]]⟩ : Statement) ≠
        ⟨.visible "x", [.isa ⟨.visible "t", [.relation [.plain (.ofName "y")]]⟩]⟩ := by
  let s : Statement := ⟨.visible "x", [.isa ⟨.visible "t", [.relation [.plain (.ofName "y")]]⟩]⟩
  let s' : Statement := ⟨.visible "x", [.isa (.ofName "t"), .relation [.plain (.ofName "y")]]⟩
  obtain ⟨hassembled, hnames⟩ := isAssembled_of_relation_type
  have htext : s.text = "$x isa $t ($y)" := by decide +kernel
  have hparse : Statement.parse s.text = .ok s' := by decide +kernel
  have hsame : s' = s ↔ ∀ p ∈ s.properties, p.IsPlain :=
    (parse_text_eq_spread s hassembled hnames s').2 hparse
  have hplain : ¬ ∀ p ∈ s.properties, p.IsPlain := by simp [s, Property.IsPlain]
  refine ⟨?_, fun h => hplain (hsame.mp h)⟩
  rw [← htext]
  exact hparse

/-- Not every statement whose text parses is the result of parsing it. -/
theorem not_forall_parse_text_eq :
    ¬ ∀ s : Statement, s.IsAssembled → (∀ t ∈ s.innerStatements, t.HasWritableNames) →
      ∀ s' : Statement, Statement.parse s.text = .ok s' → s' = s := by
  intro h
  let s : Statement := ⟨.visible "x", [.isa ⟨.visible "t", [.relation [.plain (.ofName "y")]]⟩]⟩
  let s' : Statement := ⟨.visible "x", [.isa (.ofName "t"), .relation [.plain (.ofName "y")]]⟩
  obtain ⟨hassembled, hnames⟩ := isAssembled_of_relation_type
  have hparse : Statement.parse s.text = .ok s' := by decide +kernel
  have hne : s' ≠ s := by decide +kernel
  exact hne (h s hassembled hnames s' hparse)

end GraphPattern
