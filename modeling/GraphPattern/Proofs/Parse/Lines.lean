import GraphPattern.Proofs.Parse.Acceptance
import GraphPattern.Proofs.Parse.Introduction
import GraphPattern.Proofs.Statement.Tokens
import GraphPattern.Proofs.Token.Lines
import Mathlib.Data.List.Forall2

/-!
Patterns statement by statement. If each of several sources is closed by a semicolon on a
line of its own, their concatenation parses as a pattern of as many statements exactly if
each source parses as a statement, and to these statements. The line feeds close comments
and separate names, and a source with a semicolon of its own changes the number of
statements.
-/

namespace GraphPattern

/-! ### Rows closed by semicolons -/

/-- Rows of tokens, each closed by a semicolon. -/
def closedRows (rows : List (List Token)) : List Token := rows.flatMap (· ++ [.semicolon])

theorem closedRows_cons (row : List Token) (rows : List (List Token)) :
    closedRows (row :: rows) = row ++ .semicolon :: closedRows rows := by
  simp [closedRows]

theorem length_le_count_closedRows (rows : List (List Token)) :
    rows.length ≤ (closedRows rows).count .semicolon := by
  induction rows with
  | nil => exact Nat.zero_le _
  | cons row rows ih =>
      rw [closedRows_cons, List.count_append, List.count_cons_self, List.length_cons]
      omega

theorem count_closedRows {rows : List (List Token)} (h : ∀ row ∈ rows, .semicolon ∉ row) :
    (closedRows rows).count .semicolon = rows.length := by
  induction rows with
  | nil => rfl
  | cons row rows ih =>
      rw [List.forall_mem_cons] at h
      rw [closedRows_cons, List.count_append, List.count_cons_self, List.length_cons, ih h.2,
        List.count_eq_zero_of_not_mem h.1, Nat.zero_add]

theorem append_semicolon_inj {row row' rest rest' : List Token} (hrow : .semicolon ∉ row)
    (hrow' : .semicolon ∉ row') (h : row ++ .semicolon :: rest = row' ++ .semicolon :: rest') :
    row = row' ∧ rest = rest' := by
  rcases List.append_eq_append_iff.mp h with ⟨more, rfl, hmore⟩ | ⟨more, rfl, hmore⟩
  · cases more with
    | nil => simpa using hmore
    | cons t more => simp_all
  · cases more with
    | nil => simpa [eq_comm] using hmore
    | cons t more => simp_all

/-- Closed rows without inner semicolons are determined by their concatenation and their
number. -/
theorem eq_of_closedRows_eq {rows rows' : List (List Token)} (hlength : rows.length = rows'.length)
    (hfree : ∀ row ∈ rows', .semicolon ∉ row) (h : closedRows rows = closedRows rows') :
    rows = rows' := by
  induction rows generalizing rows' with
  | nil => exact (List.length_eq_zero_iff.mp hlength.symm).symm
  | cons row rows ih =>
      cases rows' with
      | nil => cases hlength
      | cons row' rows' =>
          have hcount := count_closedRows hfree
          rw [← h, closedRows_cons, List.count_append, List.count_cons_self] at hcount
          have hrest := length_le_count_closedRows rows
          have hrow : .semicolon ∉ row := by
            rw [← List.count_eq_zero]
            rw [List.length_cons, List.length_cons] at hlength
            rw [List.length_cons] at hcount
            omega
          rw [List.forall_mem_cons] at hfree
          rw [closedRows_cons, closedRows_cons] at h
          obtain ⟨rfl, hrows⟩ := append_semicolon_inj hrow hfree.1 h
          rw [ih (Nat.succ.inj hlength) hfree.2 hrows]

namespace Surface

/-! ### Statements

The tokens of a statement contain no semicolon. -/

theorem TypeRef.ne_semicolon (r : TypeRef) : ∀ t ∈ r.tokens, t ≠ .semicolon := by
  cases r <;> simp [tokens]

theorem RolePlayer.ne_semicolon (a : RolePlayer) : ∀ t ∈ a.tokens, t ≠ .semicolon := by
  cases a with
  | plain player => simp [tokens]
  | tagged role player =>
      rw [tokens, List.forall_mem_append]
      exact ⟨role.ne_semicolon, by simp⟩

theorem Property.ne_semicolon (p : Property) : ∀ t ∈ p.tokens, t ≠ .semicolon := by
  cases p with
  | isa r => exact List.forall_mem_cons.mpr ⟨by decide, r.ne_semicolon⟩
  | type label => simp [tokens]
  | relation players =>
      rw [tokens, List.forall_mem_append, List.forall_mem_cons]
      exact ⟨⟨by decide, forall_mem_joined (by decide) fun a _ => a.ne_semicolon⟩, by decide⟩

theorem Statement.semicolon_not_mem (s : Statement) : .semicolon ∉ s.tokens := by
  intro h
  rcases List.mem_append.mp h with h | h
  · cases hv : s.subject? <;> simp [hv] at h
  · obtain ⟨p, -, hp⟩ := List.mem_flatMap.mp h
    exact p.ne_semicolon _ hp rfl

theorem statementsTokens_eq_closedRows (ss : List Statement) :
    statementsTokens ss = closedRows (ss.map Statement.tokens) := by
  rw [statementsTokens, closedRows, List.flatMap_map]

/-- The flag `introduced` of a form tells whether its first token is `match`. -/
theorem Pattern.introduced_eq_false_of_derives {f : Pattern} {ts : List Token} (h : f.Derives ts)
    (hhead : ts.head? ≠ some .matchWord) : f.introduced = false := by
  cases h with
  | introduced h => exact absurd rfl hhead
  | plain h => rfl

/-- A form that is written, consistent and not mixed. -/
structure Statement.IsAccepted (f : Statement) : Prop where
  written : f.IsWritten
  consistent : f.IsConsistent
  unmixed : ¬ f.IsMixed

end Surface

/-! ### Parsing rows -/

section Rows

variable {source : String}

theorem Statement.parse_eq_ok_iff_row {s : Statement} :
    Statement.parse source = .ok s ↔
      ∃ f : Surface.Statement, Row source.toList f.tokens ∧ f.IsAccepted ∧ s = f.denoted := by
  rw [parse_eq_ok_iff]
  constructor
  · rintro ⟨ts, f, hts, hf, hconsistent, hmixed, rfl⟩
    obtain ⟨hwritten, htokens⟩ := Surface.Statement.derives_iff.mp hf
    exact ⟨f, Row.iff_ofSource.mpr ⟨ts, hts, htokens⟩, ⟨hwritten, hconsistent, hmixed⟩, rfl⟩
  · rintro ⟨f, hrow, hf, rfl⟩
    obtain ⟨ts, hts, htokens⟩ := Row.iff_ofSource.mp hrow
    have hderives := Surface.Statement.derives_iff.mpr ⟨hf.written, htokens⟩
    exact ⟨ts, f, hts, hderives, hf.consistent, hf.unmixed, rfl⟩

theorem Pattern.parse_eq_ok_iff_row {p : Pattern} :
    Pattern.parse source = .ok p ↔
      ∃ (ts : List Token) (f : Surface.Pattern), Row source.toList ts ∧ f.Derives ts ∧
        (∀ s ∈ f.statements, s.IsAccepted) ∧ p = f.denoted := by
  rw [parse_eq_ok_iff]
  constructor
  · rintro ⟨ts, f, hts, hf, hconsistent, hmixed, rfl⟩
    have hwritten := (Surface.Pattern.derives_iff.mp hf).1
    refine ⟨_, f, Row.iff_ofSource.mpr ⟨ts, hts, rfl⟩, hf, fun s hs => ?_, rfl⟩
    exact ⟨hwritten.statements s hs, hconsistent s hs, fun h => hmixed ⟨s, hs, h⟩⟩
  · rintro ⟨us, f, hrow, hf, haccepted, rfl⟩
    obtain ⟨ts, hts, rfl⟩ := Row.iff_ofSource.mp hrow
    refine ⟨ts, f, hts, hf, fun s hs => (haccepted s hs).consistent, ?_, rfl⟩
    rintro ⟨s, hs, hmixed⟩
    exact (haccepted s hs).unmixed hmixed

end Rows

/-! ### Sources line by line -/

/-- The concatenation of sources, each closed by a semicolon on a line of its own. -/
def closedLines : List String → String
  | [] => ""
  | source :: sources => source ++ "\n;" ++ closedLines sources

theorem row_closedLines_iff {sources : List String} {ts : List Token} :
    Row (closedLines sources).toList ts ↔
      ∃ rows, List.Forall₂ (fun source row => Row source.toList row) sources rows ∧
        ts = closedRows rows := by
  induction sources generalizing ts with
  | nil => simp [closedLines, closedRows, Row.nil_iff]
  | cons source sources ih =>
      have hchars : (closedLines (source :: sources)).toList =
          source.toList ++ '\n' :: ';' :: (closedLines sources).toList := by
        simp [closedLines]
      have hmark : Token.ofMark? ';' = some .semicolon := rfl
      rw [hchars, Row.append_newline_iff]
      simp only [Row.mark_cons_iff hmark, ih, List.forall₂_cons_left_iff]
      constructor
      · rintro ⟨row, _, hrow, ⟨_, ⟨rows, hrows, rfl⟩, rfl⟩, rfl⟩
        exact ⟨row :: rows, ⟨row, rows, hrow, hrows, rfl⟩, (closedRows_cons row rows).symm⟩
      · rintro ⟨_, ⟨row, rows, hrow, hrows, rfl⟩, rfl⟩
        exact ⟨row, _, hrow, ⟨_, ⟨rows, hrows, rfl⟩, rfl⟩, closedRows_cons row rows⟩

/-- The statement parser on a list of sources, in terms of token rows. -/
theorem forall₂_parse_iff {sources : List String} {ss : List Statement} :
    List.Forall₂ (fun source s => Statement.parse source = .ok s) sources ss ↔
      ∃ fs : List Surface.Statement,
        List.Forall₂ (fun source row => Row source.toList row) sources
          (fs.map Surface.Statement.tokens) ∧
        (∀ f ∈ fs, f.IsAccepted) ∧ ss = fs.map Surface.Statement.denoted := by
  induction sources generalizing ss with
  | nil => simp +contextual [List.forall₂_nil_left_iff]
  | cons source sources ih =>
      rw [List.forall₂_cons_left_iff]
      simp only [ih]
      constructor
      · rintro ⟨s, _, hs, ⟨fs, hrows, hfs, rfl⟩, rfl⟩
        obtain ⟨f, hrow, hf, rfl⟩ := Statement.parse_eq_ok_iff_row.mp hs
        exact ⟨f :: fs, .cons hrow hrows, List.forall_mem_cons.mpr ⟨hf, hfs⟩, rfl⟩
      · rintro ⟨fs, hrows, hfs, rfl⟩
        obtain ⟨row, rows, hrow, hrows, hmap⟩ := List.forall₂_cons_left_iff.mp hrows
        obtain ⟨f, fs, rfl, rfl, rfl⟩ := List.map_eq_cons_iff.mp hmap
        rw [List.forall_mem_cons] at hfs
        have hf := Statement.parse_eq_ok_iff_row.mpr ⟨f, hrow, hfs.1, rfl⟩
        exact ⟨_, _, hf, ⟨fs, hrows, hfs.2, rfl⟩, rfl⟩

theorem OpensWithoutMatch.head?_ne {source : String} (h : OpensWithoutMatch source)
    {row : List Token} (hrow : Row source.toList row) : row.head? ≠ some .matchWord := by
  obtain ⟨ts, hts, rfl⟩ := Row.iff_ofSource.mp hrow
  rw [List.head?_map]
  exact h ts hts

theorem OpensWithoutMatch.closedLines {first : String} (h : OpensWithoutMatch first)
    (more : List String) : OpensWithoutMatch (closedLines (first :: more)) := by
  intro ts hts
  obtain ⟨_, hrows, htokens⟩ := row_closedLines_iff.mp (Row.iff_ofSource.mpr ⟨ts, hts, rfl⟩)
  obtain ⟨row, rows, hrow, -, rfl⟩ := List.forall₂_cons_left_iff.mp hrows
  rw [← List.head?_map, htokens, closedRows_cons]
  cases row with
  | nil => simp
  | cons t row => simpa using h.head?_ne hrow

/-- A closed source has at least one token. -/
theorem ne_nil_of_ofSource_closedLines {first : String} {more : List String} {ts : List Located}
    (h : Located.ofSource (closedLines (first :: more)) = .ok ts) : ts ≠ [] := by
  rintro rfl
  obtain ⟨_, hrows, htokens⟩ := row_closedLines_iff.mp (Row.iff_ofSource.mpr ⟨[], h, rfl⟩)
  obtain ⟨row, rows, -, -, rfl⟩ := List.forall₂_cons_left_iff.mp hrows
  simp [closedRows_cons] at htokens

/-- A concatenation of closed sources parses as a pattern of as many statements exactly if
each source parses as a statement. -/
theorem Pattern.parse_closedLines_iff {sources : List String} {ss : List Statement}
    (hopens : OpensWithoutMatch (closedLines sources)) (hne : sources ≠ [])
    (hlength : ss.length = sources.length) :
    Pattern.parse (closedLines sources) = .ok ⟨ss⟩ ↔
      List.Forall₂ (fun source s => Statement.parse source = .ok s) sources ss := by
  rw [forall₂_parse_iff, parse_eq_ok_iff_row]
  constructor
  · rintro ⟨ts, f, hts, hf, haccepted, hdenoted⟩
    obtain ⟨rows, hrows, rfl⟩ := row_closedLines_iff.mp hts
    have hplain : f.introduced = false :=
      Surface.Pattern.introduced_eq_false_of_derives hf (hopens.head?_ne hts)
    obtain ⟨introduced, fs⟩ := f
    obtain rfl : introduced = false := hplain
    obtain rfl : ss = fs.map Surface.Statement.denoted := congrArg Pattern.statements hdenoted
    obtain ⟨-, htokens⟩ := Surface.Pattern.derives_iff.mp hf
    have hclosed : closedRows rows = closedRows (fs.map Surface.Statement.tokens) :=
      htokens.trans (Surface.statementsTokens_eq_closedRows fs)
    -- A source with a semicolon of its own would give more statements than there are sources.
    have hsame : rows.length = (fs.map Surface.Statement.tokens).length := by
      rw [← hrows.length_eq, ← hlength, List.length_map, List.length_map]
    have hfree : ∀ row ∈ fs.map Surface.Statement.tokens, .semicolon ∉ row :=
      List.forall_mem_map.mpr fun s _ => s.semicolon_not_mem
    obtain rfl := eq_of_closedRows_eq hsame hfree hclosed
    exact ⟨fs, hrows, haccepted, rfl⟩
  · rintro ⟨fs, hrows, haccepted, rfl⟩
    have hfs : fs ≠ [] := by
      rintro rfl
      exact hne (List.length_eq_zero_iff.mp hlength.symm)
    have hderives : Surface.StatementsDerive fs (closedRows (fs.map Surface.Statement.tokens)) :=
      Surface.statementsDerive_iff.mpr
        ⟨hfs, fun f hf => (haccepted f hf).written,
          (Surface.statementsTokens_eq_closedRows fs).symm⟩
    exact ⟨_, ⟨false, fs⟩, row_closedLines_iff.mpr ⟨_, hrows, rfl⟩, .plain hderives, haccepted, rfl⟩

/-- Closed sources of which the first does not begin with `match` are parsed independently:
their concatenation parses as a pattern of as many statements exactly if each source parses
as a statement, and to these statements. A line `match` in front changes the result by
`Error.introduced` only, which leaves values, conflicts and clashes as they are. -/
theorem parse_closedLines :
    ∀ (first : String) (more : List String),
      (∀ ts, Located.ofSource first = .ok ts →
        ts.head?.map Located.token ≠ some .matchWord) →
      (∀ ss : List Statement, ss.length = more.length + 1 →
        (Pattern.parse (closedLines (first :: more)) = .ok ⟨ss⟩ ↔
          List.Forall₂ (fun source s => Statement.parse source = .ok s) (first :: more) ss)) ∧
      Pattern.parse ("match\n" ++ closedLines (first :: more)) =
        (Pattern.parse (closedLines (first :: more))).mapError Error.introduced := by
  intro first more hfirst
  have hopens := OpensWithoutMatch.closedLines hfirst more
  exact ⟨fun ss => Pattern.parse_closedLines_iff hopens (List.cons_ne_nil first more),
    Pattern.parse_introduced hopens fun ts => ne_nil_of_ofSource_closedLines⟩

/-- The comment in the first source ends with its line, and a syntax error on the next line
is located there, behind the line `match`. -/
theorem parse_closedLines_comment :
    Pattern.parse "match\n$x isa person # a; b\n;type person\n;" =
      .ok ⟨[⟨.visible "x", [.isa (.ofLabel "person")]⟩, .ofLabel "person"]⟩ ∧
    Pattern.parse "match\n$x isa person # a; b\n;type $y\n;" =
      .error (.unexpectedToken ⟨.var (.visible "y"), 33, 35⟩ [.label]) := by
  have hfirst : Located.ofSource "$x isa person # a; b" =
      .ok [⟨.var (.visible "x"), 0, 2⟩, ⟨.isaWord, 3, 6⟩, ⟨.label "person", 7, 13⟩] := by
    decide +kernel
  have hopens : OpensWithoutMatch "$x isa person # a; b" := .of_ofSource hfirst (by decide)
  constructor
  · obtain ⟨hlines, hmatch⟩ := parse_closedLines "$x isa person # a; b" ["type person"] hopens
    have hparse := (hlines [⟨.visible "x", [.isa (.ofLabel "person")]⟩, .ofLabel "person"] rfl).mpr
      (.cons (by decide +kernel) (.cons (by decide +kernel) .nil))
    rw [hparse] at hmatch
    exact hmatch
  · obtain ⟨-, hmatch⟩ := parse_closedLines "$x isa person # a; b" ["type $y"] hopens
    have hparse : Pattern.parse (closedLines ["$x isa person # a; b", "type $y"]) =
        .error (.unexpectedToken ⟨.var (.visible "y"), 27, 29⟩ [.label]) := by decide +kernel
    rw [hparse] at hmatch
    exact hmatch

/-- A line `match` in front is not without effect on errors. The error about a semicolon
that closes no statement moves with the text, and `match` is expected only if it is not
there already. -/
theorem not_forall_parse_match_closedLines_eq :
    Pattern.parse (closedLines [""]) = .error (.unexpectedToken ⟨.semicolon, 1, 2⟩
      [.matchWord, .isaWord, .typeWord, .anonymous, .visible, .parenOpen]) ∧
    Pattern.parse ("match\n" ++ closedLines [""]) = .error (.unexpectedToken ⟨.semicolon, 7, 8⟩
      [.isaWord, .typeWord, .anonymous, .visible, .parenOpen]) ∧
    ¬ ∀ (first : String) (more : List String),
      (∀ ts, Located.ofSource first = .ok ts →
        ts.head?.map Located.token ≠ some .matchWord) →
      (∀ ss : List Statement, ss.length = more.length + 1 →
        (Pattern.parse (closedLines (first :: more)) = .ok ⟨ss⟩ ↔
          List.Forall₂ (fun source s => Statement.parse source = .ok s) (first :: more) ss)) ∧
      Pattern.parse ("match\n" ++ closedLines (first :: more)) =
        Pattern.parse (closedLines (first :: more)) := by
  have hplain : Pattern.parse (closedLines [""]) = .error (.unexpectedToken ⟨.semicolon, 1, 2⟩
      [.matchWord, .isaWord, .typeWord, .anonymous, .visible, .parenOpen]) := by decide +kernel
  have hmatch : Pattern.parse ("match\n" ++ closedLines [""]) =
      .error (.unexpectedToken ⟨.semicolon, 7, 8⟩
        [.isaWord, .typeWord, .anonymous, .visible, .parenOpen]) := by decide +kernel
  refine ⟨hplain, hmatch, fun hall => ?_⟩
  have hempty : Located.ofSource "" = .ok [] := by decide +kernel
  have hopens : OpensWithoutMatch "" := .of_ofSource hempty (by decide)
  have hsame := (hall "" [] hopens).2
  rw [hplain, hmatch] at hsame
  cases hsame

end GraphPattern
