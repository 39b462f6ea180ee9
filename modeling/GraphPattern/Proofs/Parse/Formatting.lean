import GraphPattern.Proofs.Parse.Closure
import Mathlib.Data.List.Flatten

/-!
Formatting a parsed pattern. The printed tokens are those of the source without the
redundant ones: the introducing word, an anonymous subject in front of a property, and
repeated properties. `essential` is the form without them.

The printed tokens are computed from the denoted value and the essential ones from the form,
so the equation is between two recursions, one over values and one over forms.
-/

namespace GraphPattern

namespace Surface

/-! ### Essential forms -/

/-- The properties of `ps` whose meaning is neither in `seen` nor that of an earlier one. -/
def withoutRepeats (seen : List GraphPattern.Property) : List Property → List Property
  | [] => []
  | p :: ps =>
    if p.meaning ∈ seen then withoutRepeats (seen ++ [p.meaning]) ps
    else p :: withoutRepeats (seen ++ [p.meaning]) ps

/-- The form of a statement without a redundant anonymous subject and without repeated
properties. -/
def Statement.essential (s : Statement) : Statement where
  subject? := if s.subject? = some .anonymous ∧ s.properties ≠ [] then none else s.subject?
  properties := withoutRepeats [] s.properties

/-- The form of a pattern without the introducing word and with essential statements. -/
def Pattern.essential (p : Pattern) : Pattern where
  introduced := false
  statements := p.statements.map Statement.essential

theorem eraseDups_append_withoutRepeats (seen : List GraphPattern.Property) (ps : List Property) :
    (seen ++ ps.map Property.meaning).eraseDups =
      seen.eraseDups ++ (withoutRepeats seen ps).map Property.meaning := by
  induction ps generalizing seen with
  | nil => simp [withoutRepeats]
  | cons p ps ih =>
      rw [List.map_cons, List.append_cons, ih, withoutRepeats]
      by_cases hp : p.meaning ∈ seen
      · rw [if_pos hp, eraseDups_concat_of_mem hp]
      · rw [if_neg hp, eraseDups_concat_of_not_mem hp, List.map_cons, List.append_assoc,
          List.singleton_append]

/-- The essential properties denote the deduplicated meanings. -/
theorem map_meaning_withoutRepeats (ps : List Property) :
    (withoutRepeats [] ps).map Property.meaning = (ps.map Property.meaning).eraseDups :=
  (eraseDups_append_withoutRepeats [] ps).symm

theorem withoutRepeats_nil_cons (p : Property) (ps : List Property) :
    withoutRepeats [] (p :: ps) = p :: withoutRepeats [p.meaning] ps := by
  simp [withoutRepeats]

theorem withoutRepeats_sublist (seen : List GraphPattern.Property) (ps : List Property) :
    (withoutRepeats seen ps).Sublist ps := by
  induction ps generalizing seen with
  | nil => exact List.Sublist.slnil
  | cons p ps ih =>
      rw [withoutRepeats]
      split
      · exact (ih _).cons p
      · exact (ih _).cons_cons p

theorem Statement.tokens_essential_sublist (s : Statement) :
    s.essential.tokens.Sublist s.tokens := by
  refine List.Sublist.append ?_ ((withoutRepeats_sublist [] s.properties).flatMap _)
  simp only [essential]
  split
  · exact List.nil_sublist _
  · exact List.Sublist.refl _

/-- The tokens of the essential form are a sublist of those of the form. -/
theorem Pattern.tokens_essential_sublist (p : Pattern) :
    p.essential.tokens.Sublist p.tokens := by
  refine List.Sublist.append (List.nil_sublist _) ?_
  rw [essential, List.flatMap_map]
  refine List.Sublist.flatMap_right _ fun s _ => ?_
  exact s.tokens_essential_sublist.append (List.Sublist.refl _)

/-! ### Printed tokens -/

theorem Statement.tokens_denoted {s : Statement} (h : s.IsWritten) :
    s.denoted.tokens = s.essential.tokens := by
  have hrows : s.propertyMeanings.eraseDups.map GraphPattern.Property.tokens =
      (withoutRepeats [] s.properties).map Property.tokens := by
    rw [propertyMeanings, ← map_meaning_withoutRepeats, List.map_map]
    exact List.map_congr_left fun p _ => p.tokens_meaning
  rw [GraphPattern.Statement.tokens, denoted, hrows, tokens, essential, List.flatMap_def]
  obtain ⟨subject?, ps⟩ := s
  cases ps with
  | nil =>
      -- Without properties the form has a subject, which is essential.
      cases subject? with
      | none => exact absurd rfl (h.nonempty rfl)
      | some v => cases v <;> rfl
  | cons p ps =>
      simp only [withoutRepeats_nil_cons]
      rcases subject? with _ | _ | name <;> rfl

theorem Pattern.tokens_denoted {p : Pattern} (h : p.IsWritten) :
    p.denoted.tokens = p.essential.tokens := by
  rw [GraphPattern.Pattern.tokens, denoted, tokens, essential, List.flatMap_map, List.flatMap_map]
  refine List.flatMap_congr fun s hs => ?_
  rw [Statement.tokens_denoted (h.statements s hs)]

end Surface

/-! ### Formatting -/

/-- The text of a parsed pattern has the tokens of its source in order, without the
redundant ones and no others. -/
theorem tokens_text_of_parse :
    ∀ (source : String) (p : Pattern), Pattern.parse source = .ok p →
      ∃ ts us : List Located, Located.ofSource source = .ok ts ∧ Located.ofSource p.text = .ok us ∧
        (us.map Located.token).Sublist (ts.map Located.token) ∧
        (∃ f : Surface.Pattern, f.Derives (ts.map Located.token)) ∧
        ∀ f : Surface.Pattern, f.Derives (ts.map Located.token) →
          us.map Located.token = f.essential.tokens := by
  intro source p h
  obtain ⟨f', hform⟩ := Surface.Pattern.exists_isFormOf (Pattern.inSurfaceForm_of_parse h)
  obtain ⟨us, hus, hread⟩ := (Pattern.reads_chars hform.writable).ofSource
  rw [Pattern.parse_eq_ok_iff] at h
  obtain ⟨ts, f, hts, hf, -, -, rfl⟩ := h
  obtain ⟨hwritten, htokens⟩ := Surface.Pattern.derives_iff.mp hf
  have hkept : us.map Located.token = f.essential.tokens := by
    rw [hread, Surface.Pattern.tokens_denoted hwritten]
  refine ⟨ts, us, hts, hus, ?_, ⟨f, hf⟩, fun g hg => ?_⟩
  · rw [hkept, htokens]
    exact f.tokens_essential_sublist
  · rw [hkept, Surface.patternReader_recognizes.unique hf hg]

/-- An anonymous subject without properties is printed. -/
theorem tokens_text_of_parse_repeated :
    ∃ us, Located.ofSource "isa a; $_;" = .ok us ∧
      us.map Located.token =
        [.isaWord, .label "a", .semicolon, .var .anonymous, .semicolon] := by
  let f : Surface.Pattern := ⟨true,
    [⟨some .anonymous, [.isa (.label "a"), .isa (.label "a")]⟩, ⟨some .anonymous, []⟩]⟩
  have hparse : Pattern.parse "match $_ isa a isa a; $_;" =
      .ok ⟨[⟨.anonymous, [.isa (.ofLabel "a")]⟩, .anonymous]⟩ := by decide +kernel
  have htext : Pattern.text ⟨[⟨.anonymous, [.isa (.ofLabel "a")]⟩, .anonymous]⟩ =
      "isa a; $_;" := by decide +kernel
  obtain ⟨ts, us, hts, hus, -, -, hkept⟩ := tokens_text_of_parse _ _ hparse
  have hread : (Located.ofSource "match $_ isa a isa a; $_;").map (·.map Located.token) =
      .ok f.tokens := by decide +kernel
  rw [hts, Except.map, Except.ok.injEq] at hread
  have hwritten : f.IsWritten := by
    refine ⟨by decide, ?_⟩
    simp only [f, List.forall_mem_cons]
    exact ⟨⟨nofun, by decide⟩, ⟨nofun, nofun⟩, nofun⟩
  have hessential : f.essential.tokens =
      [.isaWord, .label "a", .semicolon, .var .anonymous, .semicolon] := by decide +kernel
  rw [htext] at hus
  rw [← hessential]
  exact ⟨us, hus, hkept f (Surface.Pattern.derives_iff.mpr ⟨hwritten, hread⟩)⟩

end GraphPattern
