import GraphPattern.Proofs.Statement.Spread

/-!
The tokens of nested statements. A node has the same tokens wherever it is printed: on its
own, in a property, or deep inside another statement, because what is printed behind a name
never continues it.

So it suffices to know the tokens of a single node. That they occur in the tokens of every
statement around it follows by the induction on children.
-/

namespace GraphPattern

/-! ### Nested nodes -/

theorem isInfix_flatMap {α β : Type} {a : α} {as : List α} (f : α → List β) (h : a ∈ as) :
    f a <:+: as.flatMap f := by
  rw [List.flatMap_def]
  exact List.infix_of_mem_flatten (List.mem_map_of_mem h)

theorem Property.tokens_isInfix_tokens {s : Statement} {p : Property} (h : p ∈ s.properties) :
    p.tokens <:+: s.tokens := by
  rw [s.tokens_eq]
  exact (isInfix_flatMap Property.tokens h).trans (List.suffix_append _ _).isInfix

namespace Statement

variable {s t c : Statement}

/-- The tokens of the short form are an infix of those of the full form. -/
theorem shortTokens_isInfix_tokens (s : Statement) : s.shortTokens <:+: s.tokens := by
  rcases shortForm_cases s.subject s.properties with ⟨label, hv, hps⟩ | ⟨-, htokens⟩
  · have hshort : s.shortTokens = [.label label] := by
      rw [shortTokens_eq, hv, hps]
      rfl
    have hfull : s.tokens = [.typeWord, .label label] := by
      rw [tokens, hv, hps]
      rfl
    rw [hshort, hfull]
    exact List.infix_cons List.infix_rfl
  · rw [shortTokens_eq, htokens]
    exact List.infix_rfl

/-- The short form of a statement with children is the full form. -/
theorem shortTokens_eq_tokens (h : c ∈ s.children) : s.shortTokens = s.tokens := by
  rcases shortForm_cases s.subject s.properties with ⟨label, -, hps⟩ | ⟨-, htokens⟩
  · rw [children, hps] at h
    cases h
  · rw [shortTokens_eq, htokens]
    rfl

theorem shortTokens_isInfix_of_mem_children (h : c ∈ s.children) :
    c.shortTokens <:+: s.shortTokens := by
  obtain ⟨p, hp, hc⟩ := List.mem_flatMap.mp h
  rw [shortTokens_eq_tokens h]
  exact (Property.shortTokens_isInfix hc).trans (Property.tokens_isInfix_tokens hp)

/-- The short form of a nested statement is an infix of the tokens of the statement. -/
theorem shortTokens_isInfix_of_mem (h : t ∈ s.innerStatements) :
    t.shortTokens <:+: s.shortTokens := by
  induction s using child_induction with
  | step s ih =>
      rw [innerStatements_eq, List.mem_cons] at h
      rcases h with rfl | h
      · exact List.infix_rfl
      · obtain ⟨c, hc, ht⟩ := List.mem_flatMap.mp h
        exact (ih c hc ht).trans (shortTokens_isInfix_of_mem_children hc)

end Statement

/-! ### Lexing printed values -/

/-- The tokens of a text, if it lexes. -/
def lexed (text : String) : Except StrayCharacter (List Token) :=
  (Located.ofSource text).map (List.map Located.token)

theorem Reads.lexed {cs : List Char} {ts : List Token} (h : Reads cs ts) :
    lexed (String.ofList cs) = .ok ts := by
  obtain ⟨ls, hls, rfl⟩ := h.ofSource
  rw [GraphPattern.lexed, hls]
  rfl

theorem Statement.lexed_shortText {s : Statement}
    (h : ∀ t ∈ s.innerStatements, t.HasWritableNames) : lexed s.shortText = .ok s.shortTokens :=
  (Reads.renders.shortForm (Statement.isWritable_shortTokens h)).lexed

theorem Relation.isWritable_tokens {r : Relation}
    (h : ∀ t ∈ r.statements.flatMap Statement.innerStatements, t.HasWritableNames) :
    ∀ k ∈ r.tokens, k.IsWritable := by
  refine Property.isWritable_tokens (fun c hc => ?_) fun label hlabel => ?_
  · exact Statement.isWritable_shortTokens fun t ht => h t (List.mem_flatMap_of_mem hc ht)
  · cases hlabel

theorem Pattern.isWritable_tokens {p : Pattern}
    (h : ∀ t ∈ p.innerStatements, t.HasWritableNames) : ∀ k ∈ p.tokens, k.IsWritable := by
  intro k hk
  obtain ⟨s, hs, hk⟩ := List.mem_flatMap.mp hk
  rcases List.mem_append.mp hk with hk | hk
  · exact Statement.isWritable_tokens (fun t ht => h t (List.mem_flatMap_of_mem hs ht)) k hk
  · obtain rfl := List.mem_singleton.mp hk
    trivial

/-- The texts of statements, relations and patterns lex to their tokens, and the tokens of
every nested statement form an infix of these, at whatever depth. The only condition is that
names and labels are writable. -/
theorem lexed_text :
    (∀ s : Statement, (∀ t ∈ s.innerStatements, t.HasWritableNames) →
      lexed s.text = .ok s.tokens ∧
        ∀ t ∈ s.innerStatements,
          lexed t.shortText = .ok t.shortTokens ∧ t.shortTokens <:+: s.tokens) ∧
    (∀ r : Relation,
      (∀ t ∈ r.statements.flatMap Statement.innerStatements, t.HasWritableNames) →
        lexed r.text = .ok r.tokens ∧
          ∀ t ∈ r.statements.flatMap Statement.innerStatements,
            lexed t.shortText = .ok t.shortTokens ∧ t.shortTokens <:+: r.tokens) ∧
    ∀ p : Pattern, (∀ t ∈ p.innerStatements, t.HasWritableNames) →
      lexed p.text = .ok p.tokens ∧
        ∀ t ∈ p.innerStatements,
          lexed t.shortText = .ok t.shortTokens ∧ t.shortTokens <:+: p.tokens := by
  have hshort {s t : Statement} (hs : ∀ t ∈ s.innerStatements, t.HasWritableNames)
      (ht : t ∈ s.innerStatements) : lexed t.shortText = .ok t.shortTokens :=
    Statement.lexed_shortText fun u hu => hs u (Statement.innerStatements_subset ht hu)
  have hnested {s t : Statement} (ht : t ∈ s.innerStatements) : t.shortTokens <:+: s.tokens :=
    (Statement.shortTokens_isInfix_of_mem ht).trans s.shortTokens_isInfix_tokens
  refine ⟨fun s hs => ⟨?statement, fun t ht => ⟨hshort hs ht, hnested ht⟩⟩,
    fun r hr => ⟨?relation, fun t ht => ?inRelation⟩,
    fun p hp => ⟨?pattern, fun t ht => ?inPattern⟩⟩
  case statement => exact (Statement.reads_chars (Statement.isWritable_tokens hs)).lexed
  case relation => exact (Relation.reads_chars (Relation.isWritable_tokens hr)).lexed
  case inRelation =>
    obtain ⟨c, hc, ht⟩ := List.mem_flatMap.mp ht
    refine ⟨hshort (fun u hu => hr u (List.mem_flatMap_of_mem hc hu)) ht, ?_⟩
    exact (Statement.shortTokens_isInfix_of_mem ht).trans (Property.shortTokens_isInfix hc)
  case pattern => exact (Pattern.reads_chars (Pattern.isWritable_tokens hp)).lexed
  case inPattern =>
    obtain ⟨s, hs, ht⟩ := List.mem_flatMap.mp ht
    have hclosed : s.tokens ++ [.semicolon] <:+: p.tokens :=
      isInfix_flatMap (fun s => s.tokens ++ [Token.semicolon]) hs
    refine ⟨hshort (fun u hu => hp u (List.mem_flatMap_of_mem hs hu)) ht, ?_⟩
    exact (hnested ht).trans ((List.prefix_append _ _).isInfix.trans hclosed)

/-- The type has properties of its own, among them a relation without players, and the role
of one player is a label. -/
theorem lexed_text_nested :
    lexed "$x isa $_1 () isa (a-: $- type b isa $_, $_) type c; $_;" =
      .ok [.var (.visible "x"), .isaWord, .var (.visible "_1"), .parenOpen, .parenClose,
        .isaWord, .parenOpen, .label "a-", .colon, .var (.visible "-"), .typeWord, .label "b",
        .isaWord, .var .anonymous, .comma, .var .anonymous, .parenClose, .typeWord, .label "c",
        .semicolon, .var .anonymous, .semicolon] := by
  let player : Statement := ⟨.visible "-", [.type "b", .isa .anonymous]⟩
  let relation : Statement :=
    ⟨.anonymous, [.relation [.tagged (.ofLabel "a-") player, .plain .anonymous]]⟩
  let type : Statement := ⟨.visible "_1", [.relation [], .isa relation]⟩
  let p : Pattern := ⟨[⟨.visible "x", [.isa type, .type "c"]⟩, .anonymous]⟩
  have hinner : ∀ t ∈ p.innerStatements, t.HasWritableNames := by decide +kernel
  have htext : p.text = "$x isa $_1 () isa (a-: $- type b isa $_, $_) type c; $_;" := by
    decide +kernel
  rw [← htext, (lexed_text.2.2 p hinner).1]
  rfl

end GraphPattern
