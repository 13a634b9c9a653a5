import ThetaSchema.Proofs.Grammar.Body

/-!
# What is read is derivable

Every reader of fields, cases, definitions and statements consumes tokens that derive what it returns.

Main results:

- `readStatement_sound`, `readBody_sound`: soundness for statements and module bodies.
-/

namespace ThetaSchema

variable {m : Metadata}

/-! ## Fields and cases -/

/-- The documentation in front of tokens and the tokens behind it make up the tokens. -/
theorem docOf_sound (tokens : List Token) :
    ∃ doc, tokens = doc ++ afterDoc tokens ∧ DerivesDoc doc (docOf tokens) := by
  cases tokens with
  | nil => exact ⟨[], rfl, .absent⟩
  | cons t rest =>
    by_cases h : t.kind = .documentation
    · exact ⟨[t], by simp [afterDoc, h], by simpa [docOf, h] using DerivesDoc.present h⟩
    · exact ⟨[], by simp [afterDoc, h], by simpa [docOf, h] using DerivesDoc.absent⟩

/-- What is read as a type is derived from the tokens that were consumed. -/
theorem readType_derives {tokens rest : List Token} {e : TypeExpr}
    (h : readType m tokens = .accepted e rest) :
    ∃ signature, tokens = signature ++ rest ∧ DerivesSignature m signature e.unlocated := by
  rcases readType_sound h with ⟨signature, same, derived⟩
  exact ⟨signature, same, readLoneType_iff.mpr derived⟩

/-- What is read as a declared name is an identifier that is not reserved. -/
theorem readDeclaredName_sound {what : Declared} {tokens rest : List Token} {name : QualifiedName}
    (h : readDeclaredName m what tokens = .accepted name rest) :
    ∃ t, tokens = t :: rest ∧ DeclaresName m t ∧ name = ⟨m.moduleName, t.text⟩ := by
  rcases Outcome.andThen_eq_accepted_iff.mp h with ⟨t, behind, isIdentifier, h⟩
  rcases expect_accepted isIdentifier with ⟨rfl, identifier⟩
  split at h
  · cases h
  · next free =>
    cases h
    exact ⟨t, rfl, ⟨identifier, by simpa using free⟩, rfl⟩

/-- What is read as a field is derived from the tokens that were consumed. -/
theorem readField_sound {tokens rest : List Token} {f : RecordField}
    (h : readField m tokens = .accepted f rest) :
    ∃ field, tokens = field ++ rest ∧ DerivesField m field f.unlocated := by
  unfold readField at h
  split at h
  · cases h
  · rcases Outcome.andThen_eq_accepted_iff.mp h with ⟨name, afterName, isName, h⟩
    rcases Outcome.andThen_eq_accepted_iff.mp h with ⟨colon, afterColon, isColon, h⟩
    rcases Outcome.map_eq_accepted_iff.mp h with ⟨e, accepted, rfl⟩
    rcases docOf_sound tokens with ⟨doc, same, documented⟩
    rcases expect_accepted isName with ⟨behindDoc, identifier⟩
    rcases expect_accepted isColon with ⟨rfl, colonKind⟩
    rcases readType_derives accepted with ⟨signature, rfl, derived⟩
    refine ⟨doc ++ name :: colon :: signature, ?_, .intro documented identifier colonKind derived⟩
    rw [same, behindDoc, List.append_assoc, List.cons_append, List.cons_append]

/-- What is read as the fields of a block is derived from the tokens up to the closing brace. -/
theorem readFields_sound {tokens rest : List Token} {fields : List RecordField}
    (h : readFields m tokens = .accepted fields rest) :
    ∃ inside closing, tokens = inside ++ closing :: rest ∧ closing.kind = .braceClose ∧
      DerivesList .comma (DerivesField m) inside (fields.map FieldOf.unlocated) := by
  fun_induction readFields m tokens generalizing fields with
  | case1 => cases h
  | case2 => cases h
  | case3 tokens f t others accepted isComma ih =>
    rcases Outcome.map_eq_accepted_iff.mp h with ⟨more, moreAccepted, rfl⟩
    rcases readField_sound accepted with ⟨field, rfl, one⟩
    rcases ih moreAccepted with ⟨inside, closing, rfl, isClosing, derived⟩
    exact ⟨field ++ t :: inside, closing, by simp, isClosing, .cons one isComma derived⟩
  | case4 tokens f t others accepted _ isClosing =>
    cases h
    rcases readField_sound accepted with ⟨field, rfl, one⟩
    exact ⟨field, t, rfl, isClosing, .single one⟩
  | case5 => cases h

/-- What is read as a block is derived together with its opening brace. -/
theorem readFieldBlock_sound {opening : Token} {tokens rest : List Token} {fields : List RecordField}
    (isOpening : opening.kind = .braceOpen) (h : readFieldBlock m tokens = .accepted fields rest) :
    ∃ block, opening :: tokens = block ++ rest ∧
      DerivesBlock m block (fields.map FieldOf.unlocated) := by
  unfold readFieldBlock at h
  split at h
  · next closes =>
    cases tokens with
    | nil => cases closes
    | cons closing behind =>
      cases h
      exact ⟨[opening, closing], rfl, .empty isOpening (by simpa using closes)⟩
  · rcases readFields_sound h with ⟨inside, closing, rfl, isClosing, derived⟩
    exact ⟨opening :: inside ++ [closing], by simp, .fields isOpening derived isClosing⟩

/-- What is read as a case is derived from the tokens that were consumed. -/
theorem readCase_sound {tokens rest : List Token} {c : VariantCase}
    (h : readCase m tokens = .accepted c rest) :
    ∃ case, tokens = case ++ rest ∧ DerivesCase m case c.unlocated := by
  unfold readCase at h
  split at h
  · cases h
  · rcases Outcome.andThen_eq_accepted_iff.mp h with ⟨name, afterName, declared, h⟩
    rcases docOf_sound tokens with ⟨doc, same, documented⟩
    rcases readDeclaredName_sound declared with ⟨t, behindDoc, declares, rfl⟩
    split at h
    · next opens =>
      rcases Outcome.map_eq_accepted_iff.mp h with ⟨fields, accepted, rfl⟩
      cases afterName with
      | nil => cases opens
      | cons opening behind =>
        rw [List.tail_cons] at accepted
        rcases readFieldBlock_sound (by simpa using opens) accepted with ⟨block, sameBlock, derived⟩
        refine ⟨doc ++ t :: block, ?_, .block documented declares derived⟩
        rw [same, behindDoc, sameBlock, List.append_assoc, List.cons_append]
    · cases h
      refine ⟨doc ++ [t], ?_, .bare documented declares⟩
      rw [same, behindDoc, List.append_assoc, List.singleton_append]

/-- What is read as cases is derived from the tokens that were consumed, with bars between the cases. -/
theorem readCases_sound {tokens rest : List Token} {cases : List VariantCase}
    (h : readCases m tokens = .accepted cases rest) :
    ∃ inside, tokens = inside ++ rest ∧
      DerivesList .pipe (DerivesCase m) inside (cases.map CaseOf.unlocated) := by
  fun_induction readCases m tokens generalizing cases with
  | case1 => cases h
  | case2 tokens c accepted =>
    cases h
    rcases readCase_sound accepted with ⟨case, rfl, one⟩
    exact ⟨case, rfl, .single one⟩
  | case3 tokens c t others accepted isBar ih =>
    rcases Outcome.map_eq_accepted_iff.mp h with ⟨more, moreAccepted, rfl⟩
    rcases readCase_sound accepted with ⟨case, rfl, one⟩
    rcases ih moreAccepted with ⟨inside, rfl, derived⟩
    exact ⟨case ++ t :: inside, by simp, .cons one isBar derived⟩
  | case4 tokens c t others accepted =>
    cases h
    rcases readCase_sound accepted with ⟨case, rfl, one⟩
    exact ⟨case, rfl, .single one⟩

/-- What is read as symbols is derived from the tokens that were consumed, with bars between them. -/
theorem readSymbols_sound {tokens rest : List Token} {symbols : List Text}
    (h : readSymbols tokens = .accepted symbols rest) :
    ∃ inside, tokens = inside ++ rest ∧ DerivesList .pipe DerivesSymbol inside symbols := by
  fun_induction readSymbols tokens generalizing symbols with
  | case1 => cases h
  | case2 t identifier =>
    cases h
    exact ⟨[t], rfl, .single (.intro identifier)⟩
  | case3 t identifier bar others isBar ih =>
    rcases Outcome.map_eq_accepted_iff.mp h with ⟨more, accepted, rfl⟩
    rcases ih accepted with ⟨inside, rfl, derived⟩
    exact ⟨t :: bar :: inside, rfl, .cons (.intro identifier) isBar derived⟩
  | case4 t identifier bar others =>
    cases h
    exact ⟨[t], rfl, .single (.intro identifier)⟩
  | case5 => cases h

/-! ## Bodies -/

/-- No bar is left behind the cases of a variant. -/
theorem readCases_rest {tokens rest : List Token} {cases : List VariantCase}
    (h : readCases m tokens = .accepted cases rest) : startsWith .pipe rest = false := by
  fun_induction readCases m tokens generalizing cases with
  | case1 => cases h
  | case2 =>
    cases h
    rfl
  | case3 tokens c t others accepted isBar ih =>
    rcases Outcome.map_eq_accepted_iff.mp h with ⟨more, moreAccepted, -⟩
    exact ih moreAccepted
  | case4 tokens c t others accepted notBar =>
    cases h
    simpa using notBar

/-- An accepted case in front of a block consumes the brace that opens the block. -/
theorem readCase_consumes_block {t : Token} {rest left : List Token} {c : VariantCase}
    (identifier : t.kind = .identifier) (opens : startsWith .braceOpen rest = true)
    (h : readCase m (t :: rest) = .accepted c left) : left.length < rest.length := by
  obtain ⟨opening, behind, rfl⟩ : ∃ opening behind, rest = opening :: behind := by
    cases rest with
    | nil => cases opens
    | cons opening behind => exact ⟨opening, behind, rfl⟩
  simp only [startsWith_cons, decide_eq_true_eq] at opens
  simp only [readCase, afterDoc, startsWith_cons, identifier, readDeclaredName, reduceCtorEq,
    decide_false, Bool.false_and, Bool.false_eq_true, ↓reduceIte] at h
  rcases Outcome.andThen_eq_accepted_iff.mp h with ⟨name, afterName, declared, h⟩
  rcases readDeclaredName_sound declared with ⟨t', same, -, -⟩
  rcases List.cons.inj same with ⟨-, rfl⟩
  simp only [startsWith_cons, opens, decide_true, ↓reduceIte, List.tail_cons] at h
  rcases Outcome.map_eq_accepted_iff.mp h with ⟨fields, accepted, -⟩
  have suffix := readFieldBlock_suffix m behind
  rw [accepted, Outcome.rest_accepted] at suffix
  exact Nat.lt_succ_of_le suffix.length_le

/-- A block starts with its opening brace. -/
theorem DerivesBlock.front {tokens : List Token} {fields : List RecordField}
    (h : DerivesBlock m tokens fields) :
    ∃ opening inside, tokens = opening :: inside ∧ opening.kind = .braceOpen := by
  cases h with
  | @empty opening closing isOpening isClosing => exact ⟨opening, [closing], rfl, isOpening⟩
  | @fields opening closing inside fields isOpening derived isClosing =>
    exact ⟨opening, inside ++ [closing], rfl, isOpening⟩

theorem DerivesCase.ne_nil {tokens : List Token} {c : VariantCase} (h : DerivesCase m tokens c) :
    tokens ≠ [] := by
  cases h <;> simp

/-- A case that is a single token is an identifier. -/
theorem DerivesCase.identifier_of_single {t : Token} {c : VariantCase} (h : DerivesCase m [t] c) :
    t.kind = .identifier := by
  generalize tokensEq : [t] = tokens at h
  cases h with
  | @bare doc name text documented declared =>
    have front : doc = [] ∧ [name] = [t] := by
      simpa using List.append_eq_singleton_iff.mp tokensEq.symm
    rw [← List.cons.inj front.2 |>.1]
    exact declared.identifier
  | @block doc block name text fields documented declared inside =>
    rcases inside.front with ⟨opening, rest, rfl, -⟩
    have lengths := congrArg List.length tokensEq
    simp only [List.length_append, List.length_cons, List.length_nil] at lengths
    omega

/-- Cases that are a single token are an identifier. -/
theorem identifier_of_single_case {t : Token} {cases : List VariantCase}
    (h : DerivesList .pipe (DerivesCase m) [t] cases) : t.kind = .identifier := by
  generalize tokensEq : [t] = tokens at h
  cases h with
  | single one =>
    subst tokensEq
    exact one.identifier_of_single
  | @cons tokens rest mark c cs one isMark more =>
    have lengths := congrArg List.length tokensEq
    have nonempty := List.length_pos_iff.mpr one.ne_nil
    simp only [List.length_append, List.length_cons, List.length_nil] at lengths
    omega

/-- Tokens that start like a variant and are read as one are more than a name. -/
theorem readCases_not_bare {tokens rest inside : List Token} {cases : List VariantCase}
    (opens : opensVariant tokens = true) (h : readCases m tokens = .accepted cases rest)
    (same : tokens = inside ++ rest)
    (derived : DerivesList .pipe (DerivesCase m) inside (cases.map CaseOf.unlocated)) (t : Token) :
    inside ≠ [t] := by
  rintro rfl
  rw [List.singleton_append] at same
  subst same
  have identifier := identifier_of_single_case derived
  have noBar := readCases_rest h
  have opensBlock : startsWith .braceOpen rest = true := by
    simpa [opensVariant, identifier, noBar] using opens
  -- The brace would belong to the first case, so less than `rest` could be left behind it.
  unfold readCases at h
  split at h
  · cases h
  · next c accepted =>
    cases h
    exact absurd (readCase_consumes_block identifier opensBlock accepted) (by simp)
  · next c next others accepted =>
    have shorter := readCase_consumes_block identifier opensBlock accepted
    split at h
    · rcases Outcome.map_eq_accepted_iff.mp h with ⟨more, moreAccepted, -⟩
      have suffix := (readCases_suffix m others).length_le
      rw [moreAccepted, Outcome.rest_accepted] at suffix
      rw [List.length_cons] at shorter
      omega
    · cases h
      exact absurd shorter (by simp)

/-- What is read as the body of a type is derived in the form that the look ahead chose. -/
theorem readTypeBody_sound {name : QualifiedName} {tokens rest : List Token} {e : TypeExpr}
    (h : readTypeBody m name tokens = .accepted e rest) :
    ∃ body, tokens = body ++ rest ∧ DerivesTypeBody m name body e.unlocated := by
  unfold readTypeBody at h
  split at h
  · next opens =>
    rcases Outcome.map_eq_accepted_iff.mp h with ⟨fields, accepted, rfl⟩
    cases tokens with
    | nil => cases opens
    | cons opening behind =>
      have isOpening : opening.kind = .braceOpen := by
        simp only [opensRecord, startsWith_cons, Bool.and_eq_true, decide_eq_true_eq] at opens
        exact opens.1
      rcases readFieldBlock_sound isOpening accepted with ⟨block, same, derived⟩
      refine ⟨block, same, ?_⟩
      rw [TypeExpr.unlocated, unlocatedFields_eq_map]
      exact .record derived
  · split at h
    · next opens =>
      rcases Outcome.map_eq_accepted_iff.mp h with ⟨cases, accepted, rfl⟩
      rcases readCases_sound accepted with ⟨inside, same, derived⟩
      refine ⟨inside, same, ?_⟩
      rw [TypeExpr.unlocated, unlocatedCases_eq_map]
      exact .variant derived (readCases_not_bare opens accepted same derived)
    · rcases Outcome.map_eq_accepted_iff.mp h with ⟨underlying, accepted, rfl⟩
      rcases readType_derives accepted with ⟨signature, same, derived⟩
      exact ⟨signature, same, .newtype derived⟩

/-! ## Definitions and statements -/

/-- A declaration is a name, an equals sign and what its body reader consumes. -/
theorem readDeclaration_sound {what : Declared} {body : QualifiedName → List Token → Outcome TypeExpr}
    {tokens rest : List Token} {d : QualifiedName × TypeExpr}
    (h : readDeclaration m what body tokens = .accepted d rest) :
    ∃ name equal left, tokens = name :: equal :: left ∧ DeclaresName m name ∧ equal.kind = .equal ∧
      d.1 = ⟨m.moduleName, name.text⟩ ∧ body ⟨m.moduleName, name.text⟩ left = .accepted d.2 rest := by
  rcases Outcome.andThen_eq_accepted_iff.mp h with ⟨qualified, afterName, declared, behindName⟩
  rcases readDeclaredName_sound declared with ⟨name, rfl, declares, rfl⟩
  rcases Outcome.andThen_eq_accepted_iff.mp behindName with ⟨equal, left, isEqual, behindEqual⟩
  rcases expect_accepted isEqual with ⟨rfl, equalKind⟩
  rcases Outcome.map_eq_accepted_iff.mp behindEqual with ⟨e, accepted, rfl⟩
  exact ⟨name, equal, left, rfl, declares, equalKind, rfl, accepted⟩

/-- What is read behind a keyword is derived together with it. -/
theorem readKeyword_sound {t : Token} {tokens rest : List Token} {d : QualifiedName × TypeExpr}
    (identifier : t.kind = .identifier) (h : readKeyword m t tokens = .accepted d rest) :
    ∃ definition, tokens = definition ++ rest ∧
      DerivesDefinition m (t :: definition) (d.1, d.2.unlocated) := by
  unfold readKeyword at h
  split at h
  · next keyword =>
    rcases readDeclaration_sound h with ⟨name, equal, left, rfl, declares, isEqual, named, accepted⟩
    rcases readTypeBody_sound accepted with ⟨body, rfl, derived⟩
    rw [named]
    exact ⟨name :: equal :: body, rfl, .type ⟨identifier, keyword⟩ declares isEqual derived⟩
  · split at h
    · next keyword =>
      rcases readDeclaration_sound h with ⟨name, equal, left, rfl, declares, isEqual, named, accepted⟩
      rcases readType_derives accepted with ⟨signature, rfl, derived⟩
      rw [named]
      exact ⟨name :: equal :: signature, rfl, .synonym ⟨identifier, keyword⟩ declares isEqual derived⟩
    · split at h
      · next enabled =>
        split at h
        · next keyword =>
          rcases readDeclaration_sound h with
            ⟨name, equal, left, rfl, declares, isEqual, named, accepted⟩
          rcases Outcome.map_eq_accepted_iff.mp accepted with ⟨symbols, symbolsAccepted, same⟩
          rcases readSymbols_sound symbolsAccepted with ⟨inside, rfl, derived⟩
          rw [named, ← same]
          exact ⟨name :: equal :: inside, rfl,
            .enumeration (of_decide_eq_true enabled) ⟨identifier, keyword⟩ declares isEqual derived⟩
        · cases h
      · split at h <;> cases h

/-- What is read as a definition is derived from the tokens that were consumed. -/
theorem readDefinition_sound {doc : Option Text} {tokens rest : List Token} {d : Definition}
    (h : readDefinition m doc tokens = .accepted d rest) :
    ∃ definition, tokens = definition ++ rest ∧
      DerivesDefinition m definition (d.name, d.type.unlocated) ∧ d.doc = doc := by
  unfold readDefinition at h
  split at h
  · cases h
  · next t behind =>
    split at h
    · next identifier =>
      rcases Outcome.map_eq_accepted_iff.mp h with ⟨⟨name, type⟩, accepted, rfl⟩
      rcases readKeyword_sound identifier accepted with ⟨definition, rfl, derived⟩
      exact ⟨t :: definition, rfl, derived, rfl⟩
    · cases h

/-- A token that starts with a word is a keyword, if the word is one. -/
theorem isKeyword_of_startsWithWord {word : Text} {t : Token} {rest : List Token}
    (h : startsWithWord word (t :: rest) = true) : IsKeyword word t := by
  simp only [startsWithWord, List.head?_cons, Option.any_some, Bool.and_eq_true, decide_eq_true_eq,
    beq_iff_eq] at h
  exact ⟨h.1, h.2⟩

/-- What the reader of statements consumes derives what it returns. -/
theorem readStatement_sound {tokens rest : List Token} {s : Statement}
    (h : readStatement m tokens = .accepted s rest) :
    ∃ statement, tokens = statement ++ rest ∧ DerivesStatement m statement s.unlocated := by
  unfold readStatement at h
  split at h
  · cases h
  · next attached =>
    rcases docOf_sound tokens with ⟨doc, same, documented⟩
    split at h
    · next keyword =>
      -- Documentation in front of an import is refused, so there is none here.
      have plain : startsWith .documentation tokens = false := by
        simpa [keyword] using attached
      have unchanged : afterDoc tokens = tokens := by simp [afterDoc, plain]
      rw [unchanged] at keyword h
      rcases Outcome.map_eq_accepted_iff.mp h with ⟨⟨first, others⟩, accepted, rfl⟩
      cases tokens with
      | nil => cases keyword
      | cons t behind =>
        rw [List.tail_cons] at accepted
        rcases readPath_sound accepted with ⟨path, rfl, derived⟩
        exact ⟨t :: path, rfl, .imports (isKeyword_of_startsWithWord keyword) derived⟩
    · rcases Outcome.map_eq_accepted_iff.mp h with ⟨d, accepted, rfl⟩
      rcases readDefinition_sound accepted with ⟨definition, behindDoc, derived, docEq⟩
      refine ⟨doc ++ definition, by rw [List.append_assoc, ← behindDoc, ← same], ?_⟩
      rw [Statement.unlocated, Definition.unlocated, docEq]
      exact .defines documented derived

/-- A body that is read derives the statements that are returned. -/
theorem readBody_sound {tokens rest : List Token} {statements : List Statement}
    (h : readBody m tokens = .accepted statements rest) :
    DerivesBody m tokens (statements.map Statement.unlocated) := by
  fun_induction readBody m tokens generalizing statements with
  | case1 =>
    cases h
    exact .nil
  | case2 => cases h
  | case3 t others s left accepted ih =>
    rcases Outcome.map_eq_accepted_iff.mp h with ⟨more, moreAccepted, rfl⟩
    rcases readStatement_sound accepted with ⟨statement, same, derived⟩
    rw [same]
    exact .cons derived (ih moreAccepted)

end ThetaSchema
