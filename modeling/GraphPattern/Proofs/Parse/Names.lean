import GraphPattern.Proofs.Parse.Closure
import GraphPattern.Proofs.Parse.Assembly
import GraphPattern.Proofs.Statement.Names

/-!
Names in a source. The tokens that formatting drops contain no name that does not occur
elsewhere, since a property is dropped only as a repetition. So the names in a source are
those in the tokens of the parsed pattern, and these are the names in its inner statements.
-/

namespace GraphPattern

variable {k : Token}

namespace Surface

/-- The denoted statement has the names of its form. -/
theorem Statement.mem_tokens_denoted_iff (hk : k.isName = true) {f : Statement} :
    k ∈ f.denoted.tokens ↔ k ∈ f.tokens := by
  have hsubject : k = .var f.subject ↔ k ∈ f.subject?.toList.map Token.var := by
    obtain ⟨subject?, ps⟩ := f
    cases subject? with
    | none => exact iff_of_false (Token.ne_of_isName hk rfl) List.not_mem_nil
    | some v => exact List.mem_singleton.symm
  have hproperties : (∃ p ∈ f.propertyMeanings.eraseDups, k ∈ p.tokens) ↔
      k ∈ f.properties.flatMap Property.tokens := by
    simp [propertyMeanings, Property.tokens_meaning]
  rw [GraphPattern.Statement.mem_tokens_iff hk, denoted, hsubject, hproperties, ← List.mem_append]
  obtain ⟨_ | v, ps⟩ := f <;> rfl

theorem Pattern.mem_tokens_denoted_iff (hk : k.isName = true) {f : Pattern} :
    k ∈ f.denoted.tokens ↔ k ∈ f.tokens := by
  have hintroduction : k ∉ if f.introduced then [Token.matchWord] else [] := by
    have hword : k ≠ .matchWord := Token.ne_of_isName hk rfl
    split <;> simp [hword]
  simp only [GraphPattern.Pattern.tokens, denoted, List.flatMap_map, tokens, List.mem_flatMap,
    List.mem_append, hintroduction, false_or, Statement.mem_tokens_denoted_iff hk]

end Surface

theorem Statement.IsCoherent.shows_label_iff {s : Statement} (h : s.IsCoherent) {label : String} :
    s.Shows (.label label) ↔ s.typeLabel? = some label := by
  rw [h.typeLabel?_eq_some_iff]
  exact ⟨fun | .label h => h, .label⟩

theorem Statement.shows_var_iff {s : Statement} {name : String} :
    s.Shows (.var (.visible name)) ↔ s.subject = .visible name :=
  ⟨fun | .subject h => h, .subject⟩

/-- The names in the tokens of a source are those in the tokens of the parsed pattern. -/
theorem Pattern.mem_tokens_iff_of_parse {source : String} {p : Pattern}
    (h : Pattern.parse source = .ok p) :
    ∃ ts : List Located, Located.ofSource source = .ok ts ∧
      ∀ k : Token, k.isName = true →
        (k ∈ ts.map Located.token ↔ ∃ t ∈ p.innerStatements, t.Shows k) := by
  rw [parse_eq_ok_iff] at h
  obtain ⟨ts, f, hts, hf, -, -, rfl⟩ := h
  refine ⟨ts, hts, fun k hk => ?_⟩
  obtain ⟨-, htokens⟩ := Surface.Pattern.derives_iff.mp hf
  rw [htokens, ← Surface.Pattern.mem_tokens_denoted_iff hk, mem_tokens_iff_exists_shows hk]

/-- The visible variables of a parsed pattern are those in its source, each listed once, and
the labels in the source are the type labels of its inner statements. -/
theorem parse_keeps_names :
    ∀ (source : String) (p : Pattern), Pattern.parse source = .ok p →
      ∃ (ts : List Located) (names : List String), Located.ofSource source = .ok ts ∧
        p.visibleVariables = names.map .visible ∧ names.Nodup ∧
        (∀ name : String, name ∈ names ↔ .var (.visible name) ∈ ts.map Located.token) ∧
        ∀ label : String, label ∈ p.innerStatements.filterMap Statement.typeLabel? ↔
          .label label ∈ ts.map Located.token := by
  intro source p h
  obtain ⟨ts, hts, hnames⟩ := Pattern.mem_tokens_iff_of_parse h
  obtain ⟨names, hlisted, hnodup⟩ := p.exists_names
  refine ⟨ts, names, hts, hlisted, hnodup, fun name => ?names, fun label => ?labels⟩
  case names =>
    have hmem : name ∈ names ↔ .visible name ∈ p.visibleVariables := by
      rw [hlisted]
      simp
    rw [hmem, Pattern.mem_visibleVariables_iff, hnames _ rfl]
    simp only [Statement.shows_var_iff]
    exact and_iff_right rfl
  case labels =>
    have hcoherent : ∀ t ∈ p.innerStatements, t.IsCoherent := fun t ht =>
      ((Pattern.inSurfaceForm_of_parse h).of_mem_innerStatements ht).isCoherent
    rw [List.mem_filterMap, hnames _ rfl]
    exact exists_congr fun t => and_congr_right fun ht => (hcoherent t ht).shows_label_iff.symm

/-- A variable that occurs only in a repeated property, and a label that occurs only as a
role. -/
theorem parse_keeps_names_repeated :
    ∃ ts : List Located,
      Located.ofSource "match $r (wife: $x, $h: $x) isa $t isa $t; type person;" = .ok ts ∧
        (∀ name : String, name ∈ ["r", "x", "h", "t"] ↔
          .var (.visible name) ∈ ts.map Located.token) ∧
        ∀ label : String, label ∈ ["wife", "person"] ↔ .label label ∈ ts.map Located.token := by
  let x : Statement := .bare (.visible "x")
  let p : Pattern := ⟨[⟨.visible "r", [.relation [.tagged (.ofLabel "wife") x,
    .tagged (.bare (.visible "h")) x], .isa (.bare (.visible "t"))]⟩, .ofLabel "person"]⟩
  have hparse : Pattern.parse "match $r (wife: $x, $h: $x) isa $t isa $t; type person;" =
      .ok p := by
    decide +kernel
  have hvariables : p.visibleVariables = ["r", "x", "h", "t"].map .visible := by
    decide +kernel
  have hlabels : p.innerStatements.filterMap Statement.typeLabel? = ["wife", "person"] := by
    decide +kernel
  obtain ⟨ts, names, hts, hlisted, -, hnames, hlabeled⟩ := parse_keeps_names _ _ hparse
  obtain rfl : names = ["r", "x", "h", "t"] := by
    apply List.map_injective_iff.mpr fun _ _ => Variable.visible.inj
    rw [← hlisted, hvariables]
  rw [hlabels] at hlabeled
  exact ⟨ts, hts, hnames, hlabeled⟩

end GraphPattern
