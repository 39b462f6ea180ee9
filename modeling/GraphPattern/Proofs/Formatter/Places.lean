import GraphPattern.Proofs.Formatter.Output
import GraphPattern.Proofs.Parse.Places

/-!
The positions that the formatter prints. An error with a span is printed with the line and
the column at which the span begins, and nothing else is printed, because records are logged
only after parsing. Any other error is printed with the words for an unknown position, which
no line and column print like.
-/

namespace GraphPattern.Formatter

/-- The report `r` prints the position of the error `e` in the source. -/
structure Report.Places (r : Report) (source : String) (e : Error) : Prop where
  unknown_iff : (∃ log, r.stderr = unlines (log ++ ["unknown position: " ++ e.message])) ↔
    (∃ c, e = .conflict c) ∨ ∃ c, e = .clash c
  /-- The line is the number of line feeds before the error plus one, and the column the
  number of characters since the last of them plus one. -/
  known : ∀ s, e.span? = some s → ∃ before rest, source.toList = before ++ rest ∧
    s.start = utf8Length before ∧
      r.stderr = unlines [toString (1 + before.count '\n') ++ ":" ++
        toString (1 + (lastLine before).length) ++ ": " ++ e.message]

theorem toList_unlines_concat (log : List String) (line : String) :
    (unlines (log ++ [line])).toList = (unlines log).toList ++ line.toList ++ ['\n'] := by
  induction log with
  | nil => simp [unlines]
  | cons first log ih => simp [unlines, ih]

/-- A printed line and column differ from the words for an unknown position. -/
theorem unlines_ne_unknown (line column : Nat) (log : List String) (message : String) :
    unlines [toString line ++ ":" ++ toString column ++ ": " ++ message] ≠
      unlines (log ++ ["unknown position: " ++ message]) := by
  intro h
  have hchars := congrArg String.toList h
  rw [← List.nil_append [_], toList_unlines_concat, toList_unlines_concat] at hchars
  have hplace : (toString line).toList ++ ':' :: (toString column).toList =
      (unlines log).toList ++ "unknown position".toList := by
    apply List.append_cancel_right
    show _ ++ ':' :: ' ' :: (message.toList ++ ['\n']) = _
    simpa [unlines] using hchars
  have hletter : 'u' ∈ (toString line).toList ++ ':' :: (toString column).toList := by
    rw [hplace]
    exact List.mem_append_right _ (by decide)
  rcases List.mem_append.mp hletter with hline | hcolumn
  · exact absurd (isDigit_of_mem_toString hline) (by decide)
  · rcases List.mem_cons.mp hcolumn with hcolon | hcolumn
    · exact absurd hcolon (by decide)
    · exact absurd (isDigit_of_mem_toString hcolumn) (by decide)

section Reports

variable {o : Options} {source : String} {e : Error}

/-- No record is logged if parsing fails with an error that has a span. -/
theorem logRecords_eq_nil (h : Pattern.parse source = .error e) {s : Span}
    (hs : e.span? = some s) : logRecords source = [] := by
  rw [logRecords]
  cases hread : Pattern.read source with
  | error e' => rfl
  | ok p =>
      rw [Pattern.parse, hread] at h
      cases hcheck : p.validate with
      | ok u => simp [hcheck, bind, Except.bind, Except.mapError, pure, Except.pure] at h
      | error c =>
          obtain rfl : Error.clash c = e := by
            simpa [hcheck, bind, Except.bind, Except.mapError] using h
          cases hs

theorem stderr_reportOn (h : Pattern.parse source = .error e) :
    (reportOn o source).stderr =
      unlines ((o.log.select (logRecords source)).map Log.Record.text ++
        [errorLine source e]) := by
  simp only [reportOn, h]

theorem exists_stderr_of_span? (h : Pattern.parse source = .error e) {s : Span}
    (hs : e.span? = some s) : ∃ before rest, source.toList = before ++ rest ∧
      s.start = utf8Length before ∧
        (reportOn o source).stderr = unlines [toString (1 + before.count '\n') ++ ":" ++
          toString (1 + (lastLine before).length) ++ ": " ++ e.message] := by
  obtain ⟨piece, hpiece⟩ := (Pattern.isFoundIn_of_parse h).exists_covers hs
  obtain ⟨before, after, hsource, hstart, hpositions⟩ := hpiece.exists_positions
  refine ⟨before, piece ++ after, ?_, hstart, ?_⟩
  · rw [hsource, List.append_assoc]
  · have hplace : place source e = toString (1 + before.count '\n') ++ ":" ++
        toString (1 + (lastLine before).length) := by
      simp only [place, hs, Option.bind_some, hpositions]
      rfl
    rw [stderr_reportOn h, logRecords_eq_nil h hs, errorLine, hplace]
    rfl

theorem reportOn_places (h : Pattern.parse source = .error e) :
    (reportOn o source).Places source e where
  unknown_iff := by
    rw [← (Pattern.isFoundIn_of_parse h).span?_eq_none_iff]
    constructor
    · rintro ⟨log, hlog⟩
      refine Option.eq_none_iff_forall_ne_some.mpr fun s hs => ?_
      obtain ⟨before, rest, -, -, hstderr⟩ := exists_stderr_of_span? (o := o) h hs
      exact unlines_ne_unknown _ _ _ _ (hstderr.symm.trans hlog)
    · intro hs
      have hline : errorLine source e = "unknown position: " ++ e.message := by
        rw [errorLine, place, hs]
        rfl
      exact ⟨_, hline ▸ stderr_reportOn h⟩
  known s hs := exists_stderr_of_span? h hs

end Reports

/-- Each parser locates its errors in the source unless they are about values, and the
formatter prints their lines and columns. -/
theorem report_places_errors :
    PlacesErrors Pattern.parse ∧ PlacesErrors Statement.parse ∧ PlacesErrors Relation.parse ∧
    ∀ (o : Options) (bytes : ByteArray) (source : String) (e : Error),
      String.fromUTF8? bytes = some source → Pattern.parse source = .error e →
        (report o (.ok bytes)).Places source e := by
  refine ⟨.of_isFoundIn Pattern.isFoundIn_of_parse, .of_isFoundIn Statement.isFoundIn_of_parse,
    .of_isFoundIn Relation.isFoundIn_of_parse, ?_⟩
  intro o bytes source e hbytes herror
  rw [report_eq_reportOn hbytes]
  exact reportOn_places herror

/-- A stray character of two bytes behind a line with another one, and two types of one
variable. -/
theorem report_places_errors_wide :
    let o : Options := ⟨.stdin, false, false, .ofText Arguments.defaultLogFilter⟩
    Span.Covers ⟨8, 10⟩ "# é\n$x é".toList ['é'] ∧
    (report o (.ok "# é\n$x é".toUTF8)).stderr =
      "2:4: Lexical error at 8..10: Unexpected token é\n" ∧
    ∃ log : List String, (report o (.ok "$x isa a isa b;".toUTF8)).stderr = unlines (log ++
      ["unknown position: Statement `$x isa a` has conflicting properties: `isa a` and `isa b`"]) := by
  intro o
  obtain ⟨hparse, -, -, hreport⟩ := report_places_errors
  have hstray : Pattern.parse "# é\n$x é" = .error (.strayCharacter ⟨'é', 8, 10⟩) := by
    decide +kernel
  have hconflict : Pattern.parse "$x isa a isa b;" =
      .error (.conflict ⟨⟨.visible "x", [.isa (.ofLabel "a")]⟩, .isa (.ofLabel "a"),
        .isa (.ofLabel "b")⟩) := by
    decide +kernel
  refine ⟨?covers, ?known, ?unknown⟩
  case covers =>
    obtain ⟨text, hcovers, hmessage⟩ := hparse.character hstray
    obtain rfl : "é" = text :=
      (String.append_right_inj _).mp ((Error.message_strayCharacter _).symm.trans hmessage)
    exact hcovers
  case known =>
    obtain ⟨before, rest, hsource, hstart, hstderr⟩ :=
      (hreport o _ _ _ (fromUTF8?_toUTF8 _) hstray).known _ rfl
    have hsplit : "# é\n$x ".toList ++ ['é'] = before ++ rest := hsource
    obtain ⟨rfl, -⟩ := append_inj_of_utf8Length_eq hsplit hstart
    rw [hstderr]
    decide +kernel
  case unknown =>
    exact (hreport o _ _ _ (fromUTF8?_toUTF8 _) hconflict).unknown_iff.mpr (.inl ⟨_, rfl⟩)

end GraphPattern.Formatter
