import GraphPattern.Proofs.Automaton.Recognition

/-!
The stages of a parser. All three parsers lex the source, read a form off the tokens, take
its value and validate that value. They differ in the automaton, in the value of a form, in
the error of an automaton that has stopped, and in the validation. Here they are brought
into one shape, in which outcomes are characterized stage by stage.
-/

namespace GraphPattern

variable {σ α β : Type}

/-- Reads a form off the tokens and takes its value. -/
def Automaton.readWith (m : Automaton σ α) (value : α → Except Error β)
    (failure : List Located → Stop σ → Error) (ts : List Located) : Except Error β :=
  match m.run ts with
  | .ok a => value a
  | .error stop => .error (failure ts stop)

/-- The outcome of an automaton that has stopped in the state `s` in front of `rest`. -/
def Automaton.outcome (m : Automaton σ α) (value : α → Except Error β)
    (failure : Stop σ → Error) (s : σ) : List Located → Except Error β
  | [] =>
    match m.result? s with
    | some a => value a
    | none => .error (failure ⟨s, []⟩)
  | t :: rest => .error (failure ⟨s, t :: rest⟩)

theorem Automaton.readWith_eq_outcome (m : Automaton σ α) (value : α → Except Error β)
    (failure : List Located → Stop σ → Error) (ts : List Located) :
    m.readWith value failure ts =
      m.outcome value (failure ts) (m.advance m.start ts).1 (m.advance m.start ts).2 := by
  rw [readWith, run]
  cases m.advance m.start ts with
  | mk s rest =>
      cases rest with
      | nil => cases hresult : m.result? s <;> simp [outcome, hresult]
      | cons t rest => rfl

/-- Lexes a source, reads a value off the tokens and validates it. -/
def parseWith (read : List Located → Except Error β) (check : β → Except Clash Unit)
    (source : String) : Except Error β :=
  match Located.ofSource source with
  | .error e => .error (.strayCharacter e)
  | .ok ts =>
    match read ts with
    | .error e => .error e
    | .ok b =>
      match check b with
      | .error c => .error (.clash c)
      | .ok () => .ok b

theorem mapError_eq_ok_iff {ε : Type} {x : Except ε β} {f : ε → Error} {b : β} :
    x.mapError f = .ok b ↔ x = .ok b := by
  cases x <;> simp [Except.mapError]

theorem mapError_eq_error_iff {ε : Type} {x : Except ε β} {f : ε → Error} {e : Error} :
    x.mapError f = .error e ↔ ∃ c, x = .error c ∧ f c = e := by
  cases x <;> simp [Except.mapError]

/-! ### The parsers -/

theorem Statement.ofTokens_eq :
    Statement.ofTokens = Surface.statementReader.readWith
      (fun f => f.meaning.mapError .conflict) Surface.statementReader.unexpected := by
  funext ts
  rw [ofTokens, Automaton.readWith]
  cases Surface.statementReader.run ts <;> rfl

theorem Relation.ofTokens_eq :
    Relation.ofTokens = Surface.relationReader.readWith
      (fun as => .ok ⟨as.map Surface.RolePlayer.meaning⟩) Surface.relationReader.unexpected := by
  funext ts
  rw [ofTokens, Automaton.readWith]
  cases Surface.relationReader.run ts <;> rfl

theorem bind_check_eq {read : List Located → Except Error β} {check : β → Except Clash Unit}
    (source : String) :
    (do
      let b ← tokensOf source >>= read
      (check b).mapError Error.clash
      pure b) = parseWith read check source := by
  rw [tokensOf, parseWith]
  cases Located.ofSource source with
  | error e => rfl
  | ok ts =>
      simp only [Except.mapError, bind, Except.bind]
      cases read ts with
      | error e => rfl
      | ok b => cases hc : check b <;> simp [hc, pure, Except.pure]

theorem Pattern.parse_eq : Pattern.parse = parseWith Pattern.ofTokens Pattern.validate :=
  funext bind_check_eq

theorem Statement.parse_eq :
    Statement.parse = parseWith Statement.ofTokens Statement.validate :=
  funext bind_check_eq

theorem Relation.parse_eq : Relation.parse = parseWith Relation.ofTokens fun _ => .ok () := by
  funext source
  rw [parse, tokensOf, parseWith]
  cases Located.ofSource source with
  | error e => rfl
  | ok ts =>
      change ofTokens ts = _
      cases hr : ofTokens ts <;> simp [hr]

/-! ### Outcomes -/

section Outcomes

variable {m : Automaton σ α} {Derives : α → List Token → Prop} {value : α → Except Error β}
  {failure : List Located → Stop σ → Error} {read : List Located → Except Error β}
  {check : β → Except Clash Unit} {source : String} {ts : List Located} {b : β} {e : Error}

theorem parseWith_eq_ok_iff :
    parseWith read check source = .ok b ↔
      ∃ ts, Located.ofSource source = .ok ts ∧ read ts = .ok b ∧ check b = .ok () := by
  rw [parseWith]
  cases Located.ofSource source with
  | error e => exact iff_of_false nofun nofun
  | ok ts =>
      simp only [Except.ok.injEq, exists_eq_left']
      cases read ts with
      | error e => exact iff_of_false nofun nofun
      | ok b' =>
          simp only [Except.ok.injEq]
          constructor
          · intro h
            cases hcheck : check b' with
            | error c => simp [hcheck] at h
            | ok u =>
                obtain rfl : b' = b := by simpa [hcheck] using h
                exact ⟨rfl, hcheck⟩
          · rintro ⟨rfl, hcheck⟩
            rw [hcheck]

/-- The error is that of the first stage that fails. -/
theorem parseWith_eq_error_iff :
    parseWith read check source = .error e ↔
      (∃ c, Located.ofSource source = .error c ∧ e = .strayCharacter c) ∨
        ∃ ts, Located.ofSource source = .ok ts ∧
          (read ts = .error e ∨ ∃ b c, read ts = .ok b ∧ check b = .error c ∧ e = .clash c) := by
  rw [parseWith]
  cases Located.ofSource source with
  | error c => simp [eq_comm]
  | ok ts =>
      simp only [reduceCtorEq, false_and, exists_false, false_or, Except.ok.injEq, exists_eq_left']
      cases read ts with
      | error e' => simp
      | ok b =>
          cases hcheck : check b with
          | error c => simp [hcheck, eq_comm]
          | ok u => simp [hcheck]

theorem parseWith_eq_error_iff_of_ofSource (hts : Located.ofSource source = .ok ts) :
    parseWith read check source = .error e ↔
      read ts = .error e ∨ ∃ b c, read ts = .ok b ∧ check b = .error c ∧ e = .clash c := by
  rw [parseWith_eq_error_iff, hts]
  simp

theorem Automaton.Recognizes.readWith_eq_ok_iff (h : m.Recognizes Derives) :
    m.readWith value failure ts = .ok b ↔
      ∃ a, Derives a (ts.map Located.token) ∧ value a = .ok b := by
  simp only [Automaton.readWith, ← h.run_eq_ok_iff]
  cases m.run ts with
  | ok a => simp
  | error stop => exact iff_of_false nofun nofun

theorem Automaton.Recognizes.readWith_eq_error_iff (h : m.Recognizes Derives) :
    m.readWith value failure ts = .error e ↔
      (∃ a, Derives a (ts.map Located.token) ∧ value a = .error e) ∨
        ∃ stop, m.run ts = .error stop ∧ failure ts stop = e := by
  simp only [Automaton.readWith, ← h.run_eq_ok_iff]
  cases m.run ts with
  | ok a => simp
  | error stop => simp

end Outcomes

end GraphPattern
