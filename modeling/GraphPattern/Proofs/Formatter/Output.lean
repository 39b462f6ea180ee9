import GraphPattern.Formatter.Report
import GraphPattern.Proofs.Parse.Closure
import GraphPattern.Proofs.Statement.Names

/-!
The standard output of the formatter. It consists of lines, and no printed value contains a
line feed, since printed texts are tokens separated by spaces. So the lines of the output
are exactly those printed, and the values on them can be read back.

Formatting is idempotent for a similar reason: the output without listings is the text of
the pattern and a line feed, which is a blank.
-/

namespace GraphPattern

/-! ### Printed values are single lines -/

theorem Statement.InSurfaceForm.newline_notMem_chars {s : Statement} (h : s.InSurfaceForm) :
    '\n' ∉ s.chars :=
  (Spells.renders.statement h.isWritable_tokens).newline_notMem h.isWritable_tokens

theorem Pattern.InSurfaceForm.newline_notMem_chars {p : Pattern} (h : p.InSurfaceForm) :
    '\n' ∉ p.chars :=
  (Spells.renders.pattern h.isWritable_tokens).newline_notMem h.isWritable_tokens

theorem Pattern.InSurfaceForm.isWritable_of_mem_visibleVariables {p : Pattern}
    (h : p.InSurfaceForm) {v : Variable} (hv : v ∈ p.visibleVariables) : v.IsWritable := by
  obtain ⟨-, t, ht, rfl⟩ := mem_visibleVariables_iff.mp hv
  exact (h.of_mem_innerStatements ht).subject

namespace Formatter

/-! ### Lines -/

/-- The lines of a text, including the one behind the last line feed. -/
def linesOf (text : String) : List (List Char) := text.toList.splitOn '\n'

theorem toList_unlines (lines : List String) :
    (unlines lines).toList = ['\n'].intercalate (lines.map String.toList ++ [[]]) := by
  induction lines with
  | nil => rfl
  | cons line lines ih =>
      have hne : lines.map String.toList ++ [[]] ≠ [] := List.concat_ne_nil _ _
      rw [unlines, String.toList_append, String.toList_append, ih, List.map_cons, List.cons_append,
        List.intercalate_cons_of_ne_nil hne]
      rfl

theorem linesOf_unlines {lines : List String} (h : ∀ line ∈ lines, '\n' ∉ line.toList) :
    linesOf (unlines lines) = lines.map String.toList ++ [[]] := by
  rw [linesOf, toList_unlines]
  refine List.splitOn_intercalate '\n' ?_ (List.concat_ne_nil _ _)
  rw [List.forall_mem_append, List.forall_mem_map]
  exact ⟨h, List.forall_mem_singleton.mpr List.not_mem_nil⟩

theorem isDigit_of_mem_toString {n : Nat} {c : Char} (h : c ∈ (toString n).toList) :
    c.isDigit = true := by
  refine Nat.isDigit_of_mem_toDigits (b := 10) (n := n) (by decide) (by decide) ?_
  simpa using h

/-- The line of an inner statement in the listing. -/
def entry (s : Statement) (i : Nat) : String := alignedRight 4 (toString i) ++ ": " ++ s.text

/-- The part of the line in front of the statement: blanks and the index. -/
def margin (i : Nat) : List Char :=
  List.replicate (4 - (toString i).length) ' ' ++ (toString i).toList

theorem toList_entry (s : Statement) (i : Nat) :
    (entry s i).toList = margin i ++ ':' :: ' ' :: s.chars := by
  simp [entry, margin, alignedRight, Statement.text]

theorem eq_space_or_isDigit_of_mem_margin {i : Nat} {c : Char} (h : c ∈ margin i) :
    c = ' ' ∨ c.isDigit = true := by
  rcases List.mem_append.mp h with h | h
  · exact .inl (List.eq_of_mem_replicate h)
  · exact .inr (isDigit_of_mem_toString h)

theorem newline_notMem_entry {s : Statement} (h : s.InSurfaceForm) (i : Nat) :
    '\n' ∉ (entry s i).toList := by
  rw [toList_entry]
  intro hmem
  rcases List.mem_append.mp hmem with hmargin | htext
  · rcases eq_space_or_isDigit_of_mem_margin hmargin with hspace | hdigit
    · exact absurd hspace (by decide)
    · exact absurd hdigit (by decide)
  · simp [h.newline_notMem_chars] at htext

theorem newline_notMem_statementLines {p : Pattern} (h : p.InSurfaceForm) :
    ∀ line ∈ statementLines p, '\n' ∉ line.toList := by
  have hentries : ∀ line ∈ p.innerStatements.zipIdx.map (fun x => entry x.1 x.2),
      '\n' ∉ line.toList := by
    refine List.forall_mem_map.mpr fun x hx => newline_notMem_entry ?_ x.2
    exact h.of_mem_innerStatements (List.fst_mem_of_mem_zipIdx hx)
  exact List.forall_mem_cons.mpr ⟨by decide, List.forall_mem_cons.mpr ⟨by decide, hentries⟩⟩

theorem newline_notMem_variableLines {p : Pattern} (h : p.InSurfaceForm) :
    ∀ line ∈ variableLines p, '\n' ∉ line.toList := by
  have hnames : ∀ line ∈ p.visibleVariables.map (fun v => "  " ++ v.text), '\n' ∉ line.toList := by
    refine List.forall_mem_map.mpr fun v hv => ?_
    have hchars : '\n' ∉ v.chars :=
      Token.newline_notMem_chars (t := .var v) (h.isWritable_of_mem_visibleVariables hv)
    simpa [Variable.text] using hchars
  exact List.forall_mem_cons.mpr ⟨by decide, List.forall_mem_cons.mpr ⟨by decide, hnames⟩⟩

/-- Output lines contain no line feed. -/
theorem newline_notMem_outputLines {p : Pattern} (h : p.InSurfaceForm) (o : Options) :
    ∀ line ∈ outputLines o p, '\n' ∉ line.toList := by
  have hpattern : '\n' ∉ p.text.toList := by
    rw [Pattern.text, String.toList_ofList]
    exact h.newline_notMem_chars
  have hstatements : ∀ line ∈ (if o.listStatements then statementLines p else []),
      '\n' ∉ line.toList := by
    split
    · exact newline_notMem_statementLines h
    · exact nofun
  have hvariables : ∀ line ∈ (if o.listVariables then variableLines p else []),
      '\n' ∉ line.toList := by
    split
    · exact newline_notMem_variableLines h
    · exact nofun
  exact List.forall_mem_append.mpr ⟨List.forall_mem_cons.mpr ⟨hpattern, hstatements⟩, hvariables⟩

/-! ### Reading a listing back

A listing is decoded line by line. Statements are read from their lines in the listing,
without the pattern on the first line. -/

/-- Reads the statement on a line, behind the first colon and a space. -/
def statementOfLine? (line : List Char) : Option Statement :=
  (Statement.parse (String.ofList ((line.dropWhile (· != ':')).drop 2))).toOption

/-- Reads the variable on a line, behind two spaces and the dollar sign. -/
def variableOfLine? : List Char → Option Variable
  | ' ' :: ' ' :: '$' :: name => some (.ofName (String.ofList name))
  | _ => none

/-- The contents of an output with both listings. -/
structure Listing where
  pattern : Pattern
  statements : List Statement
  visibleVariables : List Variable
  deriving DecidableEq

/-- Decodes an output with both listings. Each section ends at the empty line in front of
the next heading, and the last one at the end of the text. -/
def Listing.ofOutput? (stdout : String) : Option Listing :=
  match linesOf stdout with
  | first :: [] :: heading :: rest =>
    match rest.dropWhile (· ≠ []) with
    | [] :: heading' :: names =>
      if heading = "Statements:".toList ∧ heading' = "Variables:".toList then do
        let p ← (Pattern.parse (String.ofList first)).toOption
        let ss ← (rest.takeWhile (· ≠ [])).mapM statementOfLine?
        let vs ← names.dropLast.mapM variableOfLine?
        some ⟨p, ss, vs⟩
      else none
    | _ => none
  | _ => none

theorem Listing.ofOutput?_eq_some {stdout : String} {first : List Char}
    {entries names : List (List Char)} {p : Pattern} {ss : List Statement} {vs : List Variable}
    (hlines : linesOf stdout = first :: [] :: "Statements:".toList ::
      (entries ++ [] :: "Variables:".toList :: (names ++ [[]])))
    (hne : ∀ line ∈ entries, line ≠ []) (hfirst : Pattern.parse (String.ofList first) = .ok p)
    (hentries : entries.mapM statementOfLine? = some ss)
    (hnames : names.mapM variableOfLine? = some vs) : ofOutput? stdout = some ⟨p, ss, vs⟩ := by
  have hne' : ∀ line ∈ entries, decide (line ≠ []) = true := by simpa using hne
  rw [ofOutput?, hlines]
  simp only [List.dropWhile_append_of_pos hne', List.takeWhile_append_of_pos hne']
  simp [hfirst, hentries, hnames, Except.toOption]

theorem mapM_map_eq_some {α β γ : Type} {f : α → β} {g : β → Option γ} {h : α → γ} {as : List α}
    (hg : ∀ a ∈ as, g (f a) = some (h a)) : (as.map f).mapM g = some (as.map h) := by
  induction as with
  | nil => rfl
  | cons a as ih =>
      rw [List.forall_mem_cons] at hg
      simp [hg.1, ih hg.2]

theorem statementOfLine?_entry {s : Statement} (h : s.InSurfaceForm) (i : Nat) :
    statementOfLine? (entry s i).toList = some s := by
  have hmargin : ∀ c ∈ margin i, (c != ':') = true := by
    intro c hc
    rcases eq_space_or_isDigit_of_mem_margin hc with rfl | hdigit
    · decide
    · refine bne_iff_ne.mpr ?_
      rintro rfl
      exact absurd hdigit (by decide)
  have hcut : ((entry s i).toList.dropWhile (· != ':')).drop 2 = s.chars := by
    rw [toList_entry, List.dropWhile_append_of_pos hmargin]
    rfl
  rw [statementOfLine?, hcut]
  change (Statement.parse s.text).toOption = some s
  rw [Statement.parse_text h]
  rfl

theorem variableOfLine?_visible {name : String} (h : IsVariableName name) :
    variableOfLine? ("  $".toList ++ name.toList) = some (.visible name) := by
  change some (Variable.ofName (String.ofList name.toList)) = _
  rw [String.ofList_toList, Variable.ofName_of_isVariableName h]

/-! ### Reports -/

/-- A line of the listing: the index, right-aligned to a width of four, and the text of a
statement, which parses as the statement. -/
def IsEntry (s : Statement) (i : Nat) (line : List Char) : Prop :=
  ∃ blanks : Nat,
    line = List.replicate blanks ' ' ++ (toString i).toList ++ ": ".toList ++ s.text.toList ∧
      blanks + (toString i).length = max 4 (toString i).length ∧ Statement.parse s.text = .ok s

theorem isEntry_entry {s : Statement} (h : s.InSurfaceForm) (i : Nat) :
    IsEntry s i (entry s i).toList := by
  refine ⟨4 - (toString i).length, ?_, ?_, Statement.parse_text h⟩
  · simp [toList_entry, margin, Statement.text]
  · omega

/-- No listing is requested. -/
structure Options.IsPlain (o : Options) : Prop where
  statements : o.listStatements = false
  visibleVariables : o.listVariables = false

/-- Both listings are requested. -/
structure Options.IsFull (o : Options) : Prop where
  statements : o.listStatements = true
  visibleVariables : o.listVariables = true

/-- The report `r` shows the pattern `p` as requested by the options `o`. -/
structure Report.Shows (r : Report) (o : Options) (p : Pattern) : Prop where
  succeeds : r.exitCode = 0
  /-- The first line is the text of the pattern. -/
  first : ∃ rest, linesOf r.stdout = p.text.toList :: rest
  unbroken : '\n' ∉ p.text.toList
  /-- Formatting the output again does not change it. -/
  stable : o.IsPlain → ∀ o' : Options, o'.IsPlain →
    (report o' (.ok r.stdout.toUTF8)).stdout = r.stdout
  /-- The inner statements are listed behind the pattern, and the visible variables behind
  these. -/
  listed : o.IsFull → ∃ (entries : List (List Char)) (names : List String),
    linesOf r.stdout =
        [p.text.toList, [], "Statements:".toList] ++ entries ++ [[], "Variables:".toList] ++
          names.map (fun name => "  $".toList ++ name.toList) ++ [[]] ∧
      List.Forall₂ (fun (s, i) line => IsEntry s i line) p.innerStatements.zipIdx entries ∧
      p.visibleVariables = names.map .visible
  /-- Decoding the output returns the listed values. -/
  readBack : o.IsFull →
    Listing.ofOutput? r.stdout = some ⟨p, p.innerStatements, p.visibleVariables⟩

section Reports

variable {o : Options} {source : String} {p : Pattern}

theorem report_eq_reportOn {bytes : ByteArray} (h : String.fromUTF8? bytes = some source) :
    report o (.ok bytes) = reportOn o source := by
  simp only [report, h]

theorem fromUTF8?_toUTF8 (s : String) : String.fromUTF8? s.toUTF8 = some s :=
  dif_pos s.isValidUTF8

theorem stdout_reportOn (h : Pattern.parse source = .ok p) :
    (reportOn o source).stdout = unlines (outputLines o p) := by
  simp only [reportOn, h]

theorem outputLines_of_isPlain (ho : o.IsPlain) (p : Pattern) : outputLines o p = [p.text] := by
  simp [outputLines, ho.statements, ho.visibleVariables]

/-- The text of a pattern with a line feed parses as the pattern. -/
theorem parse_unlines_text (h : p.InSurfaceForm) : Pattern.parse (unlines [p.text]) = .ok p := by
  have hnewline : Reads ['\n'] [] := .blank rfl .nil
  have hline : Reads (p.chars ++ ['\n']) (p.tokens ++ []) :=
    (Pattern.reads_chars h.isWritable_tokens).append hnewline (.cons (by decide) [])
  rw [List.append_nil] at hline
  have htext : unlines [p.text] = String.ofList (p.chars ++ ['\n']) := by
    rw [← String.toList_inj]
    simp [unlines, Pattern.text]
  rw [htext]
  exact Pattern.parse_of_reads h hline

theorem linesOf_reportOn (h : Pattern.parse source = .ok p) :
    linesOf (reportOn o source).stdout = (outputLines o p).map String.toList ++ [[]] := by
  rw [stdout_reportOn h]
  exact linesOf_unlines (newline_notMem_outputLines (Pattern.inSurfaceForm_of_parse h) o)

theorem exists_lines_of_isFull (ho : o.IsFull) (h : Pattern.parse source = .ok p) :
    ∃ names : List String, p.visibleVariables = names.map .visible ∧
      linesOf (reportOn o source).stdout = p.text.toList :: [] :: "Statements:".toList ::
        (p.innerStatements.zipIdx.map (fun (s, i) => (entry s i).toList) ++
          [] :: "Variables:".toList ::
            (names.map (fun name => "  $".toList ++ name.toList) ++ [[]])) := by
  obtain ⟨names, hnames, -⟩ := p.exists_names
  refine ⟨names, hnames, ?_⟩
  rw [linesOf_reportOn h, outputLines, ho.statements, ho.visibleVariables, if_pos rfl, if_pos rfl]
  simp only [statementLines, variableLines, hnames]
  simp [Function.comp_def, entry, Variable.text, Variable.chars, Mark.chars]

theorem forall₂_isEntry (h : p.InSurfaceForm) :
    List.Forall₂ (fun (s, i) line => IsEntry s i line) p.innerStatements.zipIdx
      (p.innerStatements.zipIdx.map fun (s, i) => (entry s i).toList) := by
  rw [List.forall₂_map_right_iff, List.forall₂_same]
  intro ⟨s, i⟩ hs
  exact isEntry_entry (h.of_mem_innerStatements (List.fst_mem_of_mem_zipIdx hs)) i

theorem ofOutput?_reportOn (ho : o.IsFull) (h : Pattern.parse source = .ok p) :
    Listing.ofOutput? (reportOn o source).stdout =
      some ⟨p, p.innerStatements, p.visibleVariables⟩ := by
  have hp := Pattern.inSurfaceForm_of_parse h
  obtain ⟨names, hnames, hlines⟩ := exists_lines_of_isFull ho h
  refine Listing.ofOutput?_eq_some hlines ?_ ?_ ?_ ?_
  · refine List.forall_mem_map.mpr fun ⟨s, i⟩ _ => ?_
    change (entry s i).toList ≠ []
    rw [toList_entry]
    exact List.append_ne_nil_of_right_ne_nil _ (List.cons_ne_nil _ _)
  · rw [String.ofList_toList]
    exact Pattern.parse_text hp
  · rw [mapM_map_eq_some (h := Prod.fst)]
    · rw [List.zipIdx_map_fst]
    · intro ⟨s, i⟩ hs
      exact statementOfLine?_entry (hp.of_mem_innerStatements (List.fst_mem_of_mem_zipIdx hs)) i
  · rw [hnames]
    refine mapM_map_eq_some fun name hname => variableOfLine?_visible ?_
    exact hp.isWritable_of_mem_visibleVariables (hnames ▸ List.mem_map_of_mem hname)

theorem reportOn_shows (h : Pattern.parse source = .ok p) : (reportOn o source).Shows o p := by
  have hp := Pattern.inSurfaceForm_of_parse h
  refine ⟨?_, ?_, ?_, ?_, ?_, fun ho => ofOutput?_reportOn ho h⟩
  · simp only [reportOn, h]
  · exact ⟨_, linesOf_reportOn h⟩
  · rw [Pattern.text, String.toList_ofList]
    exact hp.newline_notMem_chars
  · intro ho o' ho'
    have hout : (reportOn o source).stdout = unlines [p.text] := by
      rw [stdout_reportOn h, outputLines_of_isPlain ho]
    rw [hout, report_eq_reportOn (fromUTF8?_toUTF8 _), stdout_reportOn (parse_unlines_text hp),
      outputLines_of_isPlain ho']
  · intro ho
    obtain ⟨names, hnames, hlines⟩ := exists_lines_of_isFull ho h
    refine ⟨_, names, ?_, forall₂_isEntry hp, hnames⟩
    rw [hlines]
    simp

end Reports

/-! ### The command line -/

/-- The options that request listings. -/
def Arguments.flags (statements names : Bool) : List String :=
  (if statements then ["--statements"] else []) ++ (if names then ["--variables"] else [])

theorem Arguments.take_path {a : Arguments} {path : String} (ha : a.path? = none)
    (hne : path ≠ "") (hpath : isOption path = false) :
    a.take [path] = finish { a with path? := some path } := by
  have htaken : a.takePath path = .ok { a with path? := some path } := by
    rw [takePath, ha]
    exact if_neg hne
  have hdashes : path ≠ "--" := by
    rintro rfl
    exact absurd hpath (by decide)
  rw [take.eq_def]
  simp only
  rw [hpath, if_neg (by decide), htaken]
  rfl

theorem ofArguments_flags {path : String} (hne : path ≠ "")
    (hpath : Arguments.isOption path = false) (statements names : Bool) :
    Request.ofArguments (Arguments.flags statements names ++ [path]) =
      .ok (.format ⟨.ofPath path, statements, names, .ofText Arguments.defaultLogFilter⟩) := by
  have htake := fun (a : Arguments) ha => Arguments.take_path (a := a) ha hne hpath
  cases statements <;> cases names
  · exact htake {} rfl
  · exact htake { listVariables := true } rfl
  · exact htake { listStatements := true } rfl
  · exact htake { listStatements := true, listVariables := true } rfl

/-- If the source does not parse, the report has exit code 1 and an empty standard output;
otherwise it shows the pattern. -/
theorem report_decodable :
    (∀ (statements names : Bool) (path : String), path ≠ "" → Arguments.isOption path = false →
      Request.ofArguments (Arguments.flags statements names ++ [path]) =
        .ok (.format ⟨.ofPath path, statements, names, .ofText Arguments.defaultLogFilter⟩)) ∧
    ∀ (o : Options) (bytes : ByteArray) (source : String), String.fromUTF8? bytes = some source →
      (∀ e, Pattern.parse source = .error e →
        (report o (.ok bytes)).exitCode = 1 ∧ (report o (.ok bytes)).stdout = "") ∧
      ∀ p, Pattern.parse source = .ok p → (report o (.ok bytes)).Shows o p := by
  refine ⟨fun statements names path hne hpath => ofArguments_flags hne hpath _ _, ?_⟩
  intro o bytes source hbytes
  rw [report_eq_reportOn hbytes]
  refine ⟨fun e he => ?_, fun p hp => reportOn_shows hp⟩
  simp only [reportOn, he, and_self]

/-- A pair with an anonymous player and a comment behind it, and an incomplete source. -/
theorem report_decodable_couple :
    let o : Options := ⟨.stdin, true, true, .ofText Arguments.defaultLogFilter⟩
    let x : Statement := .bare (.visible "x")
    let couple : Statement :=
      ⟨.anonymous, [.relation [.tagged (.ofLabel "wife") x, .plain (.bare .anonymous)]]⟩
    Request.ofArguments ["--statements", "--variables", "-"] = .ok (.format o) ∧
      Listing.ofOutput? (report o (.ok "match (wife: $x, $_); # a pair\n".toUTF8)).stdout =
        some ⟨⟨[couple]⟩, [couple, x, .ofLabel "wife", .bare .anonymous], [.visible "x"]⟩ ∧
      (report o (.ok "match $x".toUTF8)).exitCode = 1 := by
  intro o x couple
  obtain ⟨hflags, hreport⟩ := report_decodable
  have hparse : Pattern.parse "match (wife: $x, $_); # a pair\n" = .ok ⟨[couple]⟩ := by
    decide +kernel
  have hopen : Pattern.parse "match $x" =
      .error (.unexpectedEnd 8 [.isaWord, .typeWord, .parenOpen, .semicolon]) := by
    decide +kernel
  have hwalk : Pattern.innerStatements ⟨[couple]⟩ =
      [couple, x, .ofLabel "wife", .bare .anonymous] := by
    decide +kernel
  have hvariables : Pattern.visibleVariables ⟨[couple]⟩ = [.visible "x"] := by
    decide +kernel
  refine ⟨hflags true true "-" (by decide) (by decide), ?listing, ?refused⟩
  case listing =>
    rw [((hreport o _ _ (fromUTF8?_toUTF8 _)).2 _ hparse).readBack ⟨rfl, rfl⟩, hwalk, hvariables]
  case refused =>
    exact ((hreport o _ _ (fromUTF8?_toUTF8 _)).1 _ hopen).1

end Formatter

end GraphPattern
