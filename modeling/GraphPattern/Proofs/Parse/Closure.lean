import GraphPattern.Proofs.Parse.RoundTrip
import GraphPattern.Proofs.Surface.Denotation
import GraphPattern.Proofs.Token.Tiling

/-!
Parser results. The tokens of a source are writable, so a value that a parser returns is in
surface form, and so are the statements nested in it. Values in surface form are read back
from their texts. A nested statement may also be printed in full, which can differ from its
short form: a role `wife` prints in full as `type wife`.
-/

namespace GraphPattern

/-- A statement in surface form that the parser reads back from its text. -/
structure Statement.IsReadBack (s : Statement) : Prop where
  form : s.InSurfaceForm
  parsed : Statement.parse s.text = .ok s

theorem Statement.InSurfaceForm.isReadBack {s : Statement} (h : s.InSurfaceForm) : s.IsReadBack :=
  ⟨h, parse_text h⟩

variable {source : String}

theorem Pattern.inSurfaceForm_of_parse {p : Pattern} (h : Pattern.parse source = .ok p) :
    p.InSurfaceForm := by
  rw [parse_eq_ok_iff] at h
  obtain ⟨ts, f, hts, hf, hconsistent, hmixed, rfl⟩ := h
  obtain ⟨hwritten, htokens⟩ := Surface.Pattern.derives_iff.mp hf
  have hwritable := Located.isWritable_of_ofSource hts
  rw [htokens] at hwritable
  exact Surface.Pattern.inSurfaceForm_denoted hwritten hconsistent hmixed hwritable

theorem Statement.inSurfaceForm_of_parse {s : Statement} (h : Statement.parse source = .ok s) :
    s.InSurfaceForm := by
  rw [parse_eq_ok_iff] at h
  obtain ⟨ts, f, hts, hf, hconsistent, hmixed, rfl⟩ := h
  obtain ⟨hwritten, htokens⟩ := Surface.Statement.derives_iff.mp hf
  have hwritable := Located.isWritable_of_ofSource hts
  rw [htokens] at hwritable
  exact Surface.Statement.inSurfaceForm_denoted hwritten hconsistent hmixed hwritable

theorem Relation.inSurfaceForm_of_parse {r : Relation} (h : Relation.parse source = .ok r) :
    r.InSurfaceForm := by
  rw [parse_eq_ok_iff] at h
  obtain ⟨ts, as, hts, hf, rfl⟩ := h
  obtain ⟨hne, htokens⟩ := Surface.relationDerives_iff.mp hf
  have hwritable := Located.isWritable_of_ofSource hts
  rw [htokens] at hwritable
  exact Surface.inSurfaceForm_players hne hwritable

/-- Parser results are in surface form, and each of their inner statements is in surface
form and is read back from its own text. The inner statements are the statement itself
followed by those of its children. -/
theorem parse_inSurfaceForm :
    (∀ (source : String) (p : Pattern), Pattern.parse source = .ok p →
      p.InSurfaceForm ∧ ∀ t ∈ p.innerStatements, t.IsReadBack) ∧
    (∀ (source : String) (s : Statement), Statement.parse source = .ok s →
      s.InSurfaceForm ∧ ∀ t ∈ s.innerStatements, t.IsReadBack) ∧
    (∀ (source : String) (r : Relation), Relation.parse source = .ok r →
      r.InSurfaceForm ∧ ∀ t ∈ r.statements.flatMap Statement.innerStatements, t.IsReadBack) ∧
    (∀ p : Pattern, p.innerStatements = p.statements.flatMap Statement.innerStatements) ∧
    ∀ s : Statement, s.innerStatements = s :: s.children.flatMap Statement.innerStatements := by
  refine ⟨fun source p h => ?pattern, fun source s h => ?statement, fun source r h => ?relation,
    fun _ => rfl, Statement.innerStatements_eq⟩
  case pattern =>
    have hp := Pattern.inSurfaceForm_of_parse h
    exact ⟨hp, fun t ht => (hp.of_mem_innerStatements ht).isReadBack⟩
  case statement =>
    have hs := Statement.inSurfaceForm_of_parse h
    exact ⟨hs, fun t ht => (hs.of_mem_innerStatements ht).isReadBack⟩
  case relation =>
    have hr := Relation.inSurfaceForm_of_parse h
    exact ⟨hr, fun t ht => (hr.of_mem_innerStatements ht).isReadBack⟩

/-- A role reads back as the statement that it abbreviates. -/
theorem parse_inSurfaceForm_role :
    Pattern.parse "match $x (wife: $_);" =
        .ok ⟨[⟨.visible "x", [.relation [.tagged (.ofLabel "wife") .anonymous]]⟩]⟩ ∧
      Statement.ofLabel "wife" ∈ Pattern.innerStatements
        ⟨[⟨.visible "x", [.relation [.tagged (.ofLabel "wife") .anonymous]]⟩]⟩ ∧
      Statement.parse "type wife" = .ok (.ofLabel "wife") := by
  have hparse : Pattern.parse "match $x (wife: $_);" =
      .ok ⟨[⟨.visible "x", [.relation [.tagged (.ofLabel "wife") .anonymous]]⟩]⟩ := by
    decide +kernel
  have hmem : Statement.ofLabel "wife" ∈ Pattern.innerStatements
      ⟨[⟨.visible "x", [.relation [.tagged (.ofLabel "wife") .anonymous]]⟩]⟩ := by
    decide +kernel
  have htext : (Statement.ofLabel "wife").text = "type wife" := by decide +kernel
  rw [← htext]
  exact ⟨hparse, hmem, ((parse_inSurfaceForm.1 _ _ hparse).2 _ hmem).parsed⟩

end GraphPattern
