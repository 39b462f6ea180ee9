import GraphPattern.Proofs.Statement.Spread
import GraphPattern.Proofs.Surface.Form

/-!
Values with the tokens of a form. Statements nest without delimiters, so different
statements may have the same tokens. A form is flat, and its tokens leave no choice: if the
tokens of a value and those of a form begin alike, and the next token opens no further
property, then the value is the denotation of the form and the remaining tokens are equal.

A type that is a variable with properties of its own is an exception, because its tokens
cannot be told from those of further properties. *Plain* properties have no such type.
-/

namespace GraphPattern

/-- Whether a property may begin with the token. -/
def Token.opensProperty : Token → Bool
  | isaWord | typeWord | parenOpen => true
  | matchWord | var _ | label _ | parenClose | comma | colon | semicolon => false

theorem Property.exists_tokens_eq (p : Property) :
    ∃ k ks, p.tokens = k :: ks ∧ k.opensProperty = true := by
  cases p with
  | relation players => exact ⟨.parenOpen, _, rfl, rfl⟩
  | isa type => exact ⟨.isaWord, _, rfl, rfl⟩
  | type label => exact ⟨.typeWord, _, rfl, rfl⟩

/-- The shapes of the short form of a statement, by its first tokens. -/
inductive Statement.ShortTokens : Statement → List Token → Prop
  | bare (v : Variable) : ShortTokens (bare v) [.var v]
  | ofLabel (label : String) : ShortTokens (ofLabel label) [.label label]
  /-- An anonymous statement begins with its first property. -/
  | opened {s : Statement} {k : Token} (hk : k.opensProperty = true) (ks : List Token) :
      ShortTokens s (k :: ks)
  /-- A subject is followed by a property. -/
  | followed {s : Statement} {k : Token} (v : Variable) (hsubject : s.subject ≠ .anonymous)
      (hproperties : s.properties ≠ []) (hk : k.opensProperty = true) (ks : List Token) :
      ShortTokens s (.var v :: k :: ks)

theorem Statement.shortTokens_shape (s : Statement) : ShortTokens s s.shortTokens := by
  obtain ⟨v, ps⟩ := s
  rcases shortForm_cases v ps with ⟨label, rfl, rfl⟩ | ⟨-, htokens⟩
  · exact .ofLabel label
  · rw [shortTokens_eq, htokens]
    cases ps with
    | nil => cases v <;> exact .bare _
    | cons p ps =>
        obtain ⟨k, ks, hp, hk⟩ := p.exists_tokens_eq
        rw [List.map_cons, hp]
        cases v with
        | anonymous => exact .opened hk _
        | visible name => exact .followed (.visible name) (by simp) (List.cons_ne_nil p ps) hk _

namespace Surface

variable {x y : Token} {rest rest' : List Token}

/-! ### References and players -/

theorem TypeRef.eq_of_append_eq {s : GraphPattern.Statement} {r : TypeRef}
    (hy : y.opensProperty = false) (h : s.shortTokens ++ x :: rest = r.tokens ++ y :: rest') :
    s = r.meaning ∧ x = y ∧ rest = rest' := by
  have hshape := s.shortTokens_shape
  generalize s.shortTokens = ks at h hshape
  cases hshape with
  | bare v => cases r <;> simp_all [tokens, meaning]
  | ofLabel label => cases r <;> simp_all [tokens, meaning]
  | opened hk ks => cases r <;> simp_all [tokens, Token.opensProperty]
  | followed v _ _ hk ks => cases r <;> simp_all [tokens]

/-- A role player is determined in front of a comma or a closing parenthesis. -/
theorem RolePlayer.eq_of_append_eq {a : GraphPattern.RolePlayer} {b : RolePlayer}
    (hx : x = .comma ∨ x = .parenClose) (hy : y = .comma ∨ y = .parenClose)
    (h : a.tokens ++ x :: rest = b.tokens ++ y :: rest') :
    a = b.meaning ∧ x = y ∧ rest = rest' := by
  have hopens : y.opensProperty = false := by
    rcases hy with rfl | rfl <;> rfl
  have hx' : x ≠ .colon := by
    rcases hx with rfl | rfl <;> decide
  have hy' : y ≠ .colon := by
    rcases hy with rfl | rfl <;> decide
  cases a with
  | plain player =>
      cases b with
      | plain v =>
          obtain ⟨rfl, rest⟩ := TypeRef.eq_of_append_eq (r := .var v) hopens h
          exact ⟨rfl, rest⟩
      | tagged role v =>
          rw [tokens, List.append_assoc] at h
          obtain ⟨-, hcolon, -⟩ := TypeRef.eq_of_append_eq rfl h
          exact absurd hcolon hx'
  | tagged role player =>
      rw [GraphPattern.RolePlayer.tokens, List.append_assoc, List.cons_append] at h
      cases b with
      | plain v =>
          obtain ⟨-, hcolon, -⟩ := TypeRef.eq_of_append_eq (r := .var v) hopens h
          exact absurd hcolon.symm hy'
      | tagged role' v =>
          rw [tokens, List.append_assoc] at h
          obtain ⟨rfl, -, hplayer⟩ := TypeRef.eq_of_append_eq rfl h
          obtain ⟨rfl, rest⟩ := TypeRef.eq_of_append_eq (r := .var v) hopens hplayer
          exact ⟨rfl, rest⟩

theorem parenClose_cons_ne (b : RolePlayer) (bs : List RolePlayer) :
    .parenClose :: rest ≠ playersTokens (b :: bs) ++ rest' := by
  have hfirst (ks : List Token) : .parenClose :: rest ≠ b.tokens ++ ks := by
    rcases b with v | ⟨_ | _, v⟩ <;> simp [RolePlayer.tokens, TypeRef.tokens]
  cases bs with
  | nil =>
      rw [playersTokens_singleton]
      exact hfirst _
  | cons b' bs =>
      rw [playersTokens_cons (List.cons_ne_nil b' bs), List.append_assoc]
      exact hfirst _

/-- A row of players is determined in front of a closing parenthesis. -/
theorem players_eq_of_append_eq {as : List GraphPattern.RolePlayer} {bs : List RolePlayer}
    (hbs : bs ≠ [])
    (h : [Token.comma].intercalate (as.map GraphPattern.RolePlayer.tokens) ++ .parenClose :: rest =
      playersTokens bs ++ .parenClose :: rest') :
    as = bs.map RolePlayer.meaning ∧ rest = rest' := by
  have hcomma : Token.comma = .comma ∨ Token.comma = .parenClose := .inl rfl
  have hclose : Token.parenClose = .comma ∨ Token.parenClose = .parenClose := .inr rfl
  induction bs generalizing as with
  | nil => exact absurd rfl hbs
  | cons b bs ih =>
      rcases as with _ | ⟨a, _ | ⟨a', as⟩⟩
      case nil => exact absurd h (parenClose_cons_ne b bs)
      case cons.nil =>
        rw [List.map_singleton, List.intercalate_singleton] at h
        cases bs with
        | nil =>
            rw [playersTokens_singleton] at h
            obtain ⟨rfl, -, hrest⟩ := RolePlayer.eq_of_append_eq hclose hclose h
            exact ⟨rfl, hrest⟩
        | cons b' bs =>
            rw [playersTokens_cons (List.cons_ne_nil b' bs), List.append_assoc] at h
            obtain ⟨-, hends, -⟩ := RolePlayer.eq_of_append_eq hclose hcomma h
            cases hends
      case cons.cons =>
        rw [List.map_cons, List.map_cons, List.intercalate_cons_cons, List.append_assoc,
          List.append_assoc] at h
        cases bs with
        | nil =>
            rw [playersTokens_singleton] at h
            obtain ⟨-, hends, -⟩ := RolePlayer.eq_of_append_eq hcomma hclose h
            cases hends
        | cons b' bs =>
            rw [playersTokens_cons (List.cons_ne_nil b' bs), List.append_assoc] at h
            obtain ⟨rfl, -, hplayers⟩ := RolePlayer.eq_of_append_eq hcomma hcomma h
            obtain ⟨has, hrest⟩ : a' :: as = _ ∧ rest = rest' :=
              ih (List.cons_ne_nil b' bs) hplayers
            rw [List.map_cons, ← has]
            exact ⟨rfl, hrest⟩

/-! ### Properties -/

theorem Property.eq_of_append_eq {p : GraphPattern.Property} {q : Property} (hp : p.IsPlain)
    (hq : q.IsWritten) (h : p.tokens ++ rest = q.tokens ++ rest') :
    p = q.meaning ∧ rest = rest' := by
  cases p with
  | relation as =>
      cases q with
      | relation bs =>
          rw [GraphPattern.Property.tokens_relation, tokens] at h
          simp only [List.cons_append, List.append_assoc, List.cons.injEq, true_and,
            List.nil_append] at h
          obtain ⟨rfl, hrest⟩ := players_eq_of_append_eq hq h
          exact ⟨rfl, hrest⟩
      | isa r => cases (List.cons.inj h).1
      | type label => cases (List.cons.inj h).1
  | type label =>
      cases q with
      | relation bs => cases (List.cons.inj h).1
      | isa r => cases (List.cons.inj h).1
      | type label' => simp_all [GraphPattern.Property.tokens, tokens, meaning]
  | isa t =>
      cases q with
      | relation bs => cases (List.cons.inj h).1
      | type label => cases (List.cons.inj h).1
      | isa r =>
          simp only [GraphPattern.Property.tokens, tokens, List.cons_append, List.cons.injEq,
            true_and] at h
          have hshape := t.shortTokens_shape
          generalize t.shortTokens = ks at h hshape
          cases hshape with
          | bare v => cases r <;> simp_all [TypeRef.tokens, meaning, TypeRef.meaning]
          | ofLabel label => cases r <;> simp_all [TypeRef.tokens, meaning, TypeRef.meaning]
          | opened hk ks => cases r <;> simp_all [TypeRef.tokens, Token.opensProperty]
          | followed v hsubject hproperties _ _ =>
              exact absurd hp (not_or.mpr ⟨hproperties, hsubject⟩)

theorem propertyMeanings_eq_of_tokens_eq {ps : List GraphPattern.Property} {qs : List Property}
    (hps : ∀ p ∈ ps, p.IsPlain) (hqs : ∀ q ∈ qs, q.IsWritten)
    (h : ps.flatMap GraphPattern.Property.tokens = qs.flatMap Property.tokens) :
    ps = qs.map Property.meaning := by
  induction qs generalizing ps with
  | nil =>
      cases ps with
      | nil => rfl
      | cons p ps =>
          obtain ⟨k, ks, hp, -⟩ := p.exists_tokens_eq
          simp [hp] at h
  | cons q qs ih =>
      cases ps with
      | nil =>
          obtain ⟨k, ks, hq, -⟩ := q.meaning.exists_tokens_eq
          rw [q.tokens_meaning] at hq
          simp [hq] at h
      | cons p ps =>
          rw [List.forall_mem_cons] at hps hqs
          rw [List.flatMap_cons, List.flatMap_cons] at h
          obtain ⟨rfl, hrest⟩ := Property.eq_of_append_eq hps.1 hqs.1 h
          rw [List.map_cons, ← ih hps.2 hqs.2 hrest]

/-! ### Statements -/

/-- A statement of plain properties with the tokens of a form has its subject, and its
properties are the meanings of those of the form. -/
theorem Statement.eq_of_tokens_eq {s : GraphPattern.Statement} {f : Statement}
    (hs : ∀ p ∈ s.properties, p.IsPlain) (hf : f.IsWritten) (h : s.tokens = f.tokens) :
    s = ⟨f.subject, f.propertyMeanings⟩ := by
  obtain ⟨v, ps⟩ := s
  obtain ⟨subject?, qs⟩ := f
  rw [GraphPattern.Statement.tokens_eq, tokens] at h
  simp only at h hs
  cases subject? with
  | some w =>
      split at h
      case isTrue hleft =>
        obtain ⟨p, ps, rfl⟩ := List.exists_cons_of_ne_nil hleft.2
        obtain ⟨k, ks, hp, hk⟩ := p.exists_tokens_eq
        rw [List.nil_append, List.flatMap_cons, hp] at h
        obtain rfl : k = .var w := (List.cons.inj h).1
        cases hk
      case isFalse =>
        obtain ⟨hv, hproperties⟩ := List.cons.inj h
        obtain rfl : v = w := Token.var.inj hv
        exact congrArg (GraphPattern.Statement.mk v)
          (propertyMeanings_eq_of_tokens_eq hs hf.properties hproperties)
  | none =>
      split at h
      case isTrue hleft =>
        obtain rfl : v = .anonymous := hleft.1
        exact congrArg (GraphPattern.Statement.mk .anonymous)
          (propertyMeanings_eq_of_tokens_eq hs hf.properties h)
      case isFalse =>
        obtain ⟨q, qs, rfl⟩ := List.exists_cons_of_ne_nil (hf.nonempty rfl)
        obtain ⟨k, ks, hq, hk⟩ := q.meaning.exists_tokens_eq
        rw [q.tokens_meaning] at hq
        simp only [List.flatMap_cons, hq] at h
        obtain rfl : .var v = k := (List.cons.inj h).1
        cases hk

end Surface

end GraphPattern
