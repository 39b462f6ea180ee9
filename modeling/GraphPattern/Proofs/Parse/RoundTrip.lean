import GraphPattern.Proofs.Parse.Acceptance
import GraphPattern.Proofs.Surface.Form

/-!
Printing and parsing. The text of a value in surface form lexes to the tokens of a form that
denotes the value, and the parsers are complete for the grammar; so parsing the text returns
the value.

Three abbreviations of the printers are accounted for before this point: a space is printed
only where two names would run together, the anonymous subject is omitted in front of a
property, and roles and types are printed without the keyword of the statement that they
abbreviate.
-/

namespace GraphPattern

theorem Relation.parse_text {r : Relation} (h : r.InSurfaceForm) :
    Relation.parse r.text = .ok r := by
  obtain ⟨as, has, hne, hwritable⟩ := Surface.exists_players_eq h
  have htokens : r.tokens = Surface.relationTokens as := by
    rw [Relation.tokens, Relation.toProperty, ← has]
    exact Surface.Property.tokens_meaning (.relation as)
  rw [← htokens] at hwritable
  obtain ⟨ts, hts, hread⟩ := (Relation.reads_chars hwritable).ofSource
  refine parse_eq_ok_iff.mpr ⟨ts, as, hts, ?_, ?_⟩
  · exact Surface.relationDerives_iff.mpr ⟨hne, hread.trans htokens⟩
  · rw [has]

theorem Statement.parse_text {s : Statement} (h : s.InSurfaceForm) :
    Statement.parse s.text = .ok s := by
  obtain ⟨f, hf⟩ := Surface.Statement.exists_isFormOf h
  obtain ⟨ts, hts, hread⟩ := (Statement.reads_chars hf.writable).ofSource
  refine parse_eq_ok_iff.mpr ⟨ts, f, hts, ?_, hf.consistent, hf.unmixed, hf.denoted.symm⟩
  exact Surface.Statement.derives_iff.mpr ⟨hf.written, hread.trans hf.tokens.symm⟩

/-- A pattern in surface form parses from any layout of its tokens. -/
theorem Pattern.parse_of_reads {p : Pattern} (h : p.InSurfaceForm) {cs : List Char}
    (hcs : Reads cs p.tokens) : Pattern.parse (String.ofList cs) = .ok p := by
  obtain ⟨f, hf⟩ := Surface.Pattern.exists_isFormOf h
  obtain ⟨ts, hts, hread⟩ := hcs.ofSource
  refine parse_eq_ok_iff.mpr ⟨ts, f, hts, ?_, hf.consistent, hf.unmixed, hf.denoted.symm⟩
  exact Surface.Pattern.derives_iff.mpr ⟨hf.written, hread.trans hf.tokens.symm⟩

theorem Pattern.parse_text {p : Pattern} (h : p.InSurfaceForm) :
    Pattern.parse p.text = .ok p :=
  parse_of_reads h (Pattern.reads_chars h.isWritable_tokens)

/-- Parsing the text of a value in surface form returns the value. -/
theorem parse_text_of_inSurfaceForm :
    (∀ r : Relation, r.InSurfaceForm → Relation.parse r.text = .ok r) ∧
    (∀ s : Statement, s.InSurfaceForm → Statement.parse s.text = .ok s) ∧
    ∀ p : Pattern, p.InSurfaceForm → Pattern.parse p.text = .ok p :=
  ⟨fun _ => Relation.parse_text, fun _ => Statement.parse_text, fun _ => Pattern.parse_text⟩

theorem parse_text_of_inSurfaceForm_marriage :
    Pattern.parse "$x (wife: $y, $_) isa marriage; type person;" =
      .ok ⟨[⟨.visible "x", [.relation [.tagged (.ofLabel "wife") (.bare (.visible "y")),
          .plain .anonymous], .isa (.ofLabel "marriage")]⟩, .ofLabel "person"]⟩ := by
  let marriage : Statement := ⟨.visible "x",
    [.relation [.tagged (.ofLabel "wife") (.bare (.visible "y")), .plain .anonymous],
      .isa (.ofLabel "marriage")]⟩
  have hx : IsVariableName "x" := by decide
  have hy : IsVariableName "y" := by decide
  have hwife : IsLabelName "wife" := by decide
  have hisa : IsLabelName "marriage" := by decide
  have htype : IsLabelName "person" := by decide
  have hplayers : Relation.InSurfaceForm
      ⟨[.tagged (.ofLabel "wife") (.bare (.visible "y")), .plain .anonymous]⟩ := by
    refine ⟨by decide, ?_⟩
    simp only [List.forall_mem_cons]
    exact ⟨⟨.inr ⟨"wife", hwife, rfl⟩, .visible "y", hy, rfl⟩, ⟨.anonymous, trivial, rfl⟩, nofun⟩
  have hmarriage : marriage.InSurfaceForm := by
    refine ⟨hx, ?_, by decide, by decide⟩
    simp only [marriage, List.forall_mem_cons]
    exact ⟨hplayers, .inr ⟨"marriage", hisa, rfl⟩, nofun⟩
  have hperson : (Statement.ofLabel "person").InSurfaceForm :=
    ⟨trivial, List.forall_mem_singleton.mpr htype, by decide, by decide⟩
  have hpattern : Pattern.InSurfaceForm ⟨[marriage, .ofLabel "person"]⟩ :=
    ⟨by decide, List.forall_mem_cons.mpr ⟨hmarriage, List.forall_mem_singleton.mpr hperson⟩⟩
  have htext : Pattern.text ⟨[marriage, .ofLabel "person"]⟩ =
      "$x (wife: $y, $_) isa marriage; type person;" := by decide +kernel
  rw [← htext]
  exact parse_text_of_inSurfaceForm.2.2 _ hpattern

end GraphPattern
