import ThetaSchema.Proofs.Grammar.BodySoundness

/-!
# What is derivable is read

Derivable tokens are read as what they derive.  Lookahead decides by at most three tokens; for every
alternative of the grammar these tokens are shown to lead to that alternative, whatever statement follows.

Main results:

- `readTypeBody_complete`: lookahead never commits to a wrong alternative.
- `readBody_complete`: a derivable body is read.
- `body_ok_iff_derives`: a body is read exactly when its tokens derive it, and they derive at most one.
-/

namespace ThetaSchema

variable {m : Metadata}

/-! ## What follows a statement -/

/-- Tokens that are empty or start like a statement. -/
def StartsStatement (rest : List Token) : Prop :=
  ∀ t ∈ rest.head?, t.kind = .identifier ∨ t.kind = .documentation

/-- A statement starts with no token of another kind. -/
theorem StartsStatement.startsWith {rest : List Token} (h : StartsStatement rest) {kind : TokenKind}
    (identifier : kind ≠ .identifier) (documentation : kind ≠ .documentation) :
    startsWith kind rest = false := by
  cases rest with
  | nil => rfl
  | cons t rest =>
    rw [startsWith_cons, decide_eq_false_iff_not]
    rintro rfl
    rcases h t rfl with same | same
    · exact identifier same
    · exact documentation same

theorem StartsStatement.endsType {rest : List Token} (h : StartsStatement rest) : EndsType rest :=
  ⟨h.startsWith (by decide) (by decide), h.startsWith (by decide) (by decide),
    h.startsWith (by decide) (by decide)⟩

theorem DerivesSignature.readType {tokens rest : List Token} {e : TypeExpr}
    (h : DerivesSignature m tokens e) (ends : EndsType rest) :
    ∃ e', readType m (tokens ++ rest) = .accepted e' rest ∧ e'.unlocated = e :=
  readType_complete (readLoneType_iff.mp h) ends

/-! ## Documentation and names -/

/-- In front of tokens that start with no documentation, optional documentation is told apart. -/
theorem DerivesDoc.split {doc : List Token} {text : Option Text} (h : DerivesDoc doc text)
    (tokens : List Token) (plain : startsWith .documentation tokens = false) :
    docOf (doc ++ tokens) = text ∧ afterDoc (doc ++ tokens) = tokens := by
  cases h with
  | absent =>
    refine ⟨?_, by simp [afterDoc, plain]⟩
    cases tokens with
    | nil => rfl
    | cons t rest =>
      simp only [startsWith_cons, decide_eq_false_iff_not] at plain
      simp [docOf, plain]
  | present documentation => exact ⟨by simp [docOf, documentation], by simp [afterDoc, documentation]⟩

/-- A name that may be declared is read. -/
theorem readDeclaredName_complete {t : Token} (h : DeclaresName m t) (what : Declared)
    (rest : List Token) :
    readDeclaredName m what (t :: rest) = .accepted ⟨m.moduleName, t.text⟩ rest := by
  simp [readDeclaredName, expect_cons h.identifier, h.free]

/-! ## Fields -/

theorem readField_complete {tokens rest : List Token} {f : RecordField} (h : DerivesField m tokens f)
    (ends : EndsType rest) :
    ∃ f', readField m (tokens ++ rest) = .accepted f' rest ∧ f'.unlocated = f := by
  cases h with
  | @intro doc type name colon text e documented identifier isColon typed =>
    rcases typed.readType ends with ⟨e', accepted, rfl⟩
    have split := documented.split (name :: colon :: (type ++ rest)) (by simp [identifier])
    refine ⟨⟨name.location, name.text, text, e'⟩, ?_, rfl⟩
    rw [List.append_assoc, List.cons_append, List.cons_append]
    simp [readField, split, identifier, expect_cons identifier, expect_cons isColon, accepted]

/-- A field starts with documentation, or with a name and a colon, so it does not close a block. -/
theorem DerivesField.front {tokens : List Token} {f : RecordField} (h : DerivesField m tokens f)
    (more : List Token) :
    startsWith .braceClose (tokens ++ more) = false ∧
      (startsWith .documentation (tokens ++ more) ||
        (startsWith .identifier (tokens ++ more) && startsWith .colon (tokens ++ more).tail)) = true := by
  cases h with
  | intro documented identifier isColon typed =>
    cases documented with
    | absent => simp [identifier, isColon]
    | present documentation => simp [documentation]

/-- Fields are read up to and with the brace that closes them. -/
theorem readFields_complete {tokens : List Token} {fields : List RecordField}
    (h : DerivesList .comma (DerivesField m) tokens fields) {closing : Token}
    (isClosing : closing.kind = .braceClose) (rest : List Token) :
    ∃ fields', readFields m (tokens ++ closing :: rest) = .accepted fields' rest ∧
      fields'.map FieldOf.unlocated = fields := by
  induction h with
  | @single tokens f one =>
    have ends : EndsType (closing :: rest) :=
      .cons isClosing (by decide) (by decide) (by decide) rest
    rcases readField_complete one ends with ⟨f', accepted, rfl⟩
    refine ⟨[f'], ?_, rfl⟩
    rw [readFields]
    split <;> simp_all
  | @cons tokens others t f fs one isMark more ih =>
    have ends : EndsType (t :: (others ++ closing :: rest)) :=
      .cons isMark (by decide) (by decide) (by decide) _
    rcases readField_complete one ends with ⟨f', accepted, rfl⟩
    rcases ih with ⟨fs', moreAccepted, rfl⟩
    refine ⟨f' :: fs', ?_, rfl⟩
    rw [List.append_assoc, List.cons_append, readFields]
    split <;> simp_all

theorem DerivesList.front {α : Type} {mark : TokenKind} {item : List Token → α → Prop}
    {tokens : List Token} {as : List α} (h : DerivesList mark item tokens as) :
    ∃ a first rest, item first a ∧ tokens = first ++ rest := by
  cases h with
  | single one => exact ⟨_, _, [], one, by rw [List.append_nil]⟩
  | cons one isMark more => exact ⟨_, _, _, one, rfl⟩

/-- A block of fields starts like a record, and is read behind its opening brace. -/
theorem readFieldBlock_complete {tokens : List Token} {fields : List RecordField}
    (h : DerivesBlock m tokens fields) (rest : List Token) :
    opensRecord (tokens ++ rest) = true ∧
      ∃ fields', readFieldBlock m (tokens ++ rest).tail = .accepted fields' rest ∧
        fields'.map FieldOf.unlocated = fields := by
  cases h with
  | empty isOpening isClosing =>
    exact ⟨by simp [opensRecord, isOpening, isClosing], [], by simp [readFieldBlock, isClosing], rfl⟩
  | @fields opening closing tokens fields isOpening inside isClosing =>
    rcases readFields_complete inside isClosing rest with ⟨fields', accepted, same⟩
    rcases inside.front with ⟨f, first, others, one, rfl⟩
    have front := one.front (others ++ closing :: rest)
    have tail : (opening :: (first ++ others) ++ [closing] ++ rest).tail =
        first ++ (others ++ closing :: rest) := by simp
    rw [List.append_assoc] at accepted
    refine ⟨?_, fields', ?_, same⟩
    · rw [opensRecord, tail, Bool.or_assoc, front.2]
      simp [isOpening]
    · rw [readFieldBlock, tail, front.1]
      exact accepted

/-! ## Cases -/

theorem readCase_complete {tokens rest : List Token} {c : VariantCase} (h : DerivesCase m tokens c)
    (noBlock : startsWith .braceOpen rest = false) :
    ∃ c', readCase m (tokens ++ rest) = .accepted c' rest ∧ c'.unlocated = c := by
  cases h with
  | @bare doc name text documented declared =>
    have split := documented.split (name :: rest) (by simp [declared.identifier])
    refine ⟨⟨name.location, ⟨m.moduleName, name.text⟩, text, []⟩, ?_, rfl⟩
    rw [List.append_assoc, List.singleton_append]
    simp [readCase, split, declared.identifier, readDeclaredName_complete declared, noBlock, locationOf]
  | @block doc block name text fields documented declared inside =>
    have split := documented.split (name :: (block ++ rest)) (by simp [declared.identifier])
    rcases readFieldBlock_complete inside rest with ⟨opens, fields', accepted, rfl⟩
    have opensBlock : startsWith .braceOpen (block ++ rest) = true := (Bool.and_eq_true_iff.mp opens).1
    refine ⟨⟨name.location, ⟨m.moduleName, name.text⟩, text, fields'⟩, ?_, rfl⟩
    rw [List.append_assoc, List.cons_append]
    simp [readCase, split, declared.identifier, readDeclaredName_complete declared, opensBlock, accepted,
      locationOf]

/-- Cases are read up to a token that continues none of them. -/
theorem readCases_complete {tokens rest : List Token} {cases : List VariantCase}
    (h : DerivesList .pipe (DerivesCase m) tokens cases) (noBlock : startsWith .braceOpen rest = false)
    (noBar : startsWith .pipe rest = false) :
    ∃ cases', readCases m (tokens ++ rest) = .accepted cases' rest ∧
      cases'.map CaseOf.unlocated = cases := by
  induction h with
  | @single tokens c one =>
    rcases readCase_complete one noBlock with ⟨c', accepted, rfl⟩
    refine ⟨[c'], ?_, rfl⟩
    rw [readCases]
    split
    · simp_all
    · simp_all
    · next c t others accepted' =>
      rw [accepted] at accepted'
      cases accepted'
      simp only [startsWith_cons, decide_eq_false_iff_not] at noBar
      simp [noBar]
  | @cons tokens others t c cs one isMark more ih =>
    have plain : startsWith .braceOpen (t :: (others ++ rest)) = false := by simp [isMark]
    rcases readCase_complete one plain with ⟨c', accepted, rfl⟩
    rcases ih with ⟨cs', moreAccepted, rfl⟩
    refine ⟨c' :: cs', ?_, rfl⟩
    rw [List.append_assoc, List.cons_append, readCases]
    split <;> simp_all

/-- Symbols are read up to a token that is no bar. -/
theorem readSymbols_complete {tokens rest : List Token} {symbols : List Text}
    (h : DerivesList .pipe DerivesSymbol tokens symbols) (noBar : startsWith .pipe rest = false) :
    readSymbols (tokens ++ rest) = .accepted symbols rest := by
  induction h with
  | single one =>
    cases one with
    | intro identifier =>
      cases rest with
      | nil => simp [readSymbols, identifier]
      | cons t rest =>
        simp only [startsWith_cons, decide_eq_false_iff_not] at noBar
        simp [readSymbols, identifier, noBar]
  | cons one isMark more ih =>
    cases one with
    | intro identifier => simp [readSymbols, identifier, isMark, ih]

/-! ## Lookahead -/

/-- A case starts with documentation or with an identifier. -/
theorem DerivesCase.front {tokens : List Token} {c : VariantCase} (h : DerivesCase m tokens c) :
    ∃ t rest, tokens = t :: rest ∧ (t.kind = .documentation ∨
      t.kind = .identifier ∧ (rest = [] ∨ startsWith .braceOpen rest = true)) := by
  cases h with
  | bare documented declared =>
    cases documented with
    | absent => exact ⟨_, _, rfl, .inr ⟨declared.identifier, .inl rfl⟩⟩
    | present documentation => exact ⟨_, _, rfl, .inl documentation⟩
  | block documented declared inside =>
    rcases inside.front with ⟨opening, rest, rfl, isOpening⟩
    cases documented with
    | absent => exact ⟨_, _, rfl, .inr ⟨declared.identifier, .inr (by simp [isOpening])⟩⟩
    | present documentation => exact ⟨_, _, rfl, .inl documentation⟩

/-- Cases that are more than a name start like a variant and not like a record. -/
theorem opensVariant_of_cases {tokens : List Token} {cases : List VariantCase}
    (h : DerivesList .pipe (DerivesCase m) tokens cases) (notBare : ∀ t, tokens ≠ [t])
    (rest : List Token) :
    opensRecord (tokens ++ rest) = false ∧ opensVariant (tokens ++ rest) = true := by
  cases h with
  | single one =>
    rcases one.front with ⟨t, behind, rfl, documentation | ⟨identifier, rfl | opens⟩⟩
    · simp [opensRecord, opensVariant, documentation]
    · exact absurd rfl (notBare t)
    · cases behind with
      | nil => cases opens
      | cons opening behind =>
        rw [startsWith_cons, decide_eq_true_eq] at opens
        simp [opensRecord, opensVariant, identifier, opens]
  | cons one isMark more =>
    rcases one.front with ⟨t, behind, rfl, documentation | ⟨identifier, rfl | opens⟩⟩
    · simp [opensRecord, opensVariant, documentation]
    · simp [opensRecord, opensVariant, identifier, isMark]
    · cases behind with
      | nil => cases opens
      | cons opening behind =>
        rw [startsWith_cons, decide_eq_true_eq] at opens
        simp [opensRecord, opensVariant, identifier, opens]

/-- A type expression starts with a bracket, a brace or an identifier; behind an identifier it ends or
goes on with a dot, a parenthesis or a question mark. -/
theorem DerivesType.front {level : TypeLevel} {tokens : List Token} {e : TypeExpr}
    (h : DerivesType m level tokens e) :
    ∃ t rest, tokens = t :: rest ∧ (t.kind = .bracketOpen ∨ t.kind = .braceOpen ∨ t.kind = .identifier ∧
      ∀ next ∈ rest.head?, next.kind = .dot ∨ next.kind = .parenOpen ∨ next.kind = .question) := by
  induction h with
  | primitive identifier keyword => exact ⟨_, _, rfl, .inr (.inr ⟨identifier, by simp⟩)⟩
  | fixed identifier keyword enabled isOpening =>
    exact ⟨_, _, rfl, .inr (.inr ⟨identifier, by simp [isOpening]⟩)⟩
  | array isOpening element isClosing => exact ⟨_, _, rfl, .inl isOpening⟩
  | map isOpening value isClosing => exact ⟨_, _, rfl, .inr (.inl isOpening)⟩
  | reference path free =>
    cases path with
    | single identifier => exact ⟨_, _, rfl, .inr (.inr ⟨identifier, by simp⟩)⟩
    | cons identifier isDot => exact ⟨_, _, rfl, .inr (.inr ⟨identifier, by simp [isDot]⟩)⟩
  | plain atom ih => exact ih
  | optional atom isMark ih =>
    rcases ih with ⟨t, rest, rfl, bracket | brace | ⟨identifier, next⟩⟩
    · exact ⟨_, _, rfl, .inl bracket⟩
    · exact ⟨_, _, rfl, .inr (.inl brace)⟩
    · refine ⟨_, _, rfl, .inr (.inr ⟨identifier, ?_⟩)⟩
      cases rest with
      | nil => simp [isMark]
      | cons second rest => simpa using next

/-- What is inside the braces of a map does not start like the fields of a record. -/
theorem opensRecord_of_type {level : TypeLevel} {tokens : List Token} {e : TypeExpr}
    (h : DerivesType m level tokens e) (rest : List Token) : opensRecord (tokens ++ rest) = false := by
  induction h generalizing rest with
  | primitive identifier keyword => simp [opensRecord, identifier]
  | fixed identifier => simp [opensRecord, identifier]
  | array isOpening element isClosing => simp [opensRecord, isOpening]
  | @map opening closing tokens e isOpening value isClosing =>
    rcases value.front with ⟨t, inside, rfl, bracket | brace | ⟨identifier, next⟩⟩
    · simp [opensRecord, bracket]
    · simp [opensRecord, brace]
    · cases inside with
      | nil => simp [opensRecord, identifier, isClosing]
      | cons second inside =>
        have notColon : second.kind ≠ .colon := by
          intro colon
          simp [colon] at next
        simp [opensRecord, identifier, notColon]
  | reference path free =>
    cases path with
    | single identifier => simp [opensRecord, identifier]
    | cons identifier => simp [opensRecord, identifier]
  | plain atom ih => exact ih rest
  | optional atom isMark ih =>
    rw [List.append_assoc]
    exact ih _

/-- A type expression does not start like a variant, unless a brace or a bar follows it. -/
theorem opensVariant_of_type {level : TypeLevel} {tokens rest : List Token} {e : TypeExpr}
    (h : DerivesType m level tokens e) (noBlock : startsWith .braceOpen rest = false)
    (noBar : startsWith .pipe rest = false) : opensVariant (tokens ++ rest) = false := by
  rcases h.front with ⟨t, inside, rfl, bracket | brace | ⟨identifier, next⟩⟩
  · simp [opensVariant, bracket]
  · simp [opensVariant, brace]
  · cases inside with
    | nil => simp [opensVariant, identifier, noBlock, noBar]
    | cons second inside =>
      have notBlock : second.kind ≠ .braceOpen := by
        intro brace
        simp [brace] at next
      have notBar : second.kind ≠ .pipe := by
        intro pipe
        simp [pipe] at next
      simp [opensVariant, identifier, notBlock, notBar]

/-- Lookahead leads every derivable body to the alternative that derives it. -/
theorem readTypeBody_complete {name : QualifiedName} {tokens rest : List Token} {e : TypeExpr}
    (h : DerivesTypeBody m name tokens e) (follows : StartsStatement rest) :
    ∃ e', readTypeBody m name (tokens ++ rest) = .accepted e' rest ∧ e'.unlocated = e := by
  have noBlock : startsWith .braceOpen rest = false := follows.startsWith (by decide) (by decide)
  have noBar : startsWith .pipe rest = false := follows.startsWith (by decide) (by decide)
  cases h with
  | record block =>
    rcases readFieldBlock_complete block rest with ⟨opens, fields', accepted, rfl⟩
    refine ⟨.record (locationOf (tokens ++ rest)) name fields', ?_, ?_⟩
    · rw [readTypeBody, opens, accepted]
      rfl
    · rw [TypeExpr.unlocated, unlocatedFields_eq_map]
  | variant inside notBare =>
    rcases opensVariant_of_cases inside notBare rest with ⟨noRecord, opens⟩
    rcases readCases_complete inside noBlock noBar with ⟨cases', accepted, rfl⟩
    refine ⟨.variant (locationOf (tokens ++ rest)) name cases', ?_, ?_⟩
    · rw [readTypeBody, noRecord, opens, accepted]
      rfl
    · rw [TypeExpr.unlocated, unlocatedCases_eq_map]
  | newtype signature =>
    have derived := readLoneType_iff.mp signature
    rcases signature.readType follows.endsType with ⟨e', accepted, rfl⟩
    refine ⟨.newtype e'.location name e', ?_, rfl⟩
    rw [readTypeBody, opensRecord_of_type derived, opensVariant_of_type derived noBlock noBar, accepted]
    rfl

/-! ## Definitions and statements -/

/-- A name, an equals sign and a body make a declaration. -/
theorem readDeclaration_complete {name equal : Token} {tokens rest : List Token} {e : TypeExpr}
    (body : QualifiedName → List Token → Outcome TypeExpr) (declares : DeclaresName m name)
    (isEqual : equal.kind = .equal)
    (accepted : body ⟨m.moduleName, name.text⟩ tokens = .accepted e rest) (what : Declared) :
    readDeclaration m what body (name :: equal :: tokens) =
      .accepted (⟨m.moduleName, name.text⟩, e) rest := by
  simp [readDeclaration, readDeclaredName_complete declares, expect_cons isEqual, accepted]

theorem readDefinition_complete {tokens rest : List Token} {name : QualifiedName} {e : TypeExpr}
    (h : DerivesDefinition m tokens (name, e)) (follows : StartsStatement rest) (doc : Option Text) :
    ∃ d, readDefinition m doc (tokens ++ rest) = .accepted d rest ∧
      d.unlocated = ⟨{}, name, doc, e⟩ := by
  cases h with
  | @type keyword t equal tokens e isKeyword declared isEqual body =>
    rcases readTypeBody_complete body follows with ⟨e', accepted, rfl⟩
    have declaration := readDeclaration_complete _ declared isEqual accepted .type
    refine ⟨⟨keyword.location, ⟨m.moduleName, t.text⟩, doc, e'⟩, ?_, rfl⟩
    simp [readDefinition, isKeyword.identifier, readKeyword, isKeyword.text, declaration]
  | @synonym keyword t equal tokens e isKeyword declared isEqual body =>
    rcases body.readType follows.endsType with ⟨e', accepted, rfl⟩
    have declaration := readDeclaration_complete (fun _ => readType m) declared isEqual accepted
      .synonym
    have notType : ("alias" : Text) ≠ "type" := by decide
    refine ⟨⟨keyword.location, ⟨m.moduleName, t.text⟩, doc, e'⟩, ?_, rfl⟩
    simp [readDefinition, isKeyword.identifier, readKeyword, isKeyword.text, notType, declaration]
  | @enumeration keyword t equal tokens symbols enabled isKeyword declared isEqual body =>
    have accepted := readSymbols_complete body (follows.startsWith (by decide) (by decide))
    have notType : ("enum" : Text) ≠ "type" := by decide
    have notAlias : ("enum" : Text) ≠ "alias" := by decide
    have isEnabled : Feature.enumeration.enabledAt m.language = true := decide_eq_true enabled
    have bodyAccepted : readEnumBody ⟨m.moduleName, t.text⟩ (tokens ++ rest) = .accepted
        (.enumeration (locationOf (tokens ++ rest)) ⟨m.moduleName, t.text⟩ symbols) rest := by
      rw [readEnumBody, accepted, Outcome.map_accepted]
    have declaration := readDeclaration_complete _ declared isEqual bodyAccepted .enumeration
    refine ⟨⟨keyword.location, ⟨m.moduleName, t.text⟩, doc,
      .enumeration (locationOf (tokens ++ rest)) ⟨m.moduleName, t.text⟩ symbols⟩, ?_, rfl⟩
    simp [readDefinition, isKeyword.identifier, readKeyword, isKeyword.text, notType, notAlias, isEnabled,
      Feature.keyword, declaration]

/-- A definition starts with a keyword that is not the one of imports. -/
theorem DerivesDefinition.front {tokens : List Token} {d : QualifiedName × TypeExpr}
    (h : DerivesDefinition m tokens d) :
    ∃ t rest, tokens = t :: rest ∧ t.kind = .identifier ∧ t.text ≠ importKeyword := by
  cases h with
  | type isKeyword | synonym isKeyword | enumeration enabled isKeyword =>
    exact ⟨_, _, rfl, isKeyword.identifier, by rw [isKeyword.text]; decide⟩

/-- A statement starts with an identifier or with documentation. -/
theorem DerivesStatement.front {tokens : List Token} {s : Statement} (h : DerivesStatement m tokens s) :
    ∃ t rest, tokens = t :: rest ∧ (t.kind = .identifier ∨ t.kind = .documentation) := by
  cases h with
  | imports isKeyword => exact ⟨_, _, rfl, .inl isKeyword.identifier⟩
  | defines documented definition =>
    rcases definition.front with ⟨t, rest, rfl, identifier, -⟩
    cases documented with
    | absent => exact ⟨_, _, rfl, .inl identifier⟩
    | present documentation => exact ⟨_, _, rfl, .inr documentation⟩

theorem readStatement_complete {tokens rest : List Token} {s : Statement}
    (h : DerivesStatement m tokens s) (follows : StartsStatement rest) :
    ∃ s', readStatement m (tokens ++ rest) = .accepted s' rest ∧ s'.unlocated = s := by
  cases h with
  | @imports keyword tokens parts isKeyword path =>
    rcases readPath_complete path follows.endsType.dot with ⟨first, others, rfl, accepted⟩
    refine ⟨.imports keyword.location (dotted (first :: others)), ?_, rfl⟩
    have word : startsWithWord importKeyword (keyword :: (tokens ++ rest)) = true := by
      simp [startsWithWord, isKeyword.identifier, isKeyword.text, importKeyword]
    simp [readStatement, afterDoc, isKeyword.identifier, word, readImport, accepted, locationOf]
  | @defines doc tokens text name e documented definition =>
    rcases readDefinition_complete definition follows text with ⟨d, accepted, same⟩
    rcases definition.front with ⟨t, behind, rfl, identifier, notImport⟩
    have split := documented.split (t :: behind ++ rest) (by simp [identifier])
    have word : startsWithWord importKeyword (t :: behind ++ rest) = false := by
      simp [startsWithWord, identifier, notImport]
    refine ⟨.defines d, ?_, by rw [Statement.unlocated, same]⟩
    rw [List.append_assoc]
    simp only [readStatement, split, word, accepted]
    simp [endsDocumentation, identifier]

/-- A derivable body starts like a statement, if it is not empty. -/
theorem DerivesBody.startsStatement {tokens : List Token} {statements : List Statement}
    (h : DerivesBody m tokens statements) : StartsStatement tokens := by
  cases h with
  | nil => simp [StartsStatement]
  | cons one more =>
    rcases one.front with ⟨t, rest, rfl, kind⟩
    simpa [StartsStatement] using kind

/-- A derivable body is read as the statements that it derives. -/
theorem readBody_complete {tokens : List Token} {statements : List Statement}
    (h : DerivesBody m tokens statements) :
    ∃ statements', readBody m tokens = .accepted statements' [] ∧
      statements'.map Statement.unlocated = statements := by
  induction h with
  | nil => exact ⟨[], by rw [readBody], rfl⟩
  | @cons tokens rest s statements one more ih =>
    rcases readStatement_complete one more.startsStatement with ⟨s', accepted, rfl⟩
    rcases ih with ⟨statements', moreAccepted, rfl⟩
    rcases one.front with ⟨t, behind, rfl, -⟩
    refine ⟨s' :: statements', ?_, rfl⟩
    rw [List.cons_append, readBody]
    rw [List.cons_append] at accepted
    split <;> simp_all

/-! ## Exactness -/

/-- Reading a body accepts exactly the tokens that derive one, and returns what they derive. -/
theorem readBody_iff {tokens : List Token} {statements : List Statement} :
    (∃ read, readBody m tokens = .accepted read [] ∧ read.map Statement.unlocated = statements) ↔
      DerivesBody m tokens statements := by
  constructor
  · rintro ⟨read, accepted, rfl⟩
    exact readBody_sound accepted
  · exact readBody_complete

/-- Tokens derive at most one body. -/
theorem DerivesBody.unique {tokens : List Token} {s₁ s₂ : List Statement} (h₁ : DerivesBody m tokens s₁)
    (h₂ : DerivesBody m tokens s₂) : s₁ = s₂ := by
  rcases readBody_complete h₁ with ⟨r₁, accepted₁, rfl⟩
  rcases readBody_complete h₂ with ⟨r₂, accepted₂, rfl⟩
  rw [accepted₁] at accepted₂
  cases accepted₂
  rfl

/-- A session that starts on tokens has all of them left. -/
theorem Session.remaining_start (stream : TokenStream) : (Session.start stream).remaining = stream.tokens :=
  List.drop_zero

/-- A session that starts on tokens succeeds with their body exactly when the body is read from them. -/
theorem Session.body_start_ok_iff {stream : TokenStream} {statements : List Statement} :
    ((Session.start stream).body m).2 = .ok statements ↔
      readBody m stream.tokens = .accepted statements [] := by
  simp only [Session.body, Session.run, Session.remaining_start]
  cases accepted : readBody m stream.tokens with
  | accepted read rest =>
    rw [readBody_accepted accepted]
    simp [Outcome.judge, Logged.succeed]
  | rejected f rest => simp [Outcome.judge]

/-- A session that starts on tokens fails with the error of their rejection. -/
theorem Session.body_start_error {stream : TokenStream} {f : Failure} {rest : List Token}
    (rejected : readBody m stream.tokens = .rejected f rest) :
    ((Session.start stream).body m).2 = .error (f.error stream.stop) := by
  simp only [Session.body, Session.run, Session.remaining_start, rejected, Outcome.judge]
  rfl

/-- For every text and every metadata, reading a body succeeds with statements, up to their locations,
exactly when the tokens of the text derive them; and no tokens derive more than one list of statements. -/
theorem body_ok_iff_derives (m : Metadata) (file text : Text) :
    (∀ statements : List Statement,
      (∃ read, ((Session.start (TokenStream.ofText file text)).body m).2 = .ok read ∧
          read.map Statement.unlocated = statements) ↔
        DerivesBody m (TokenStream.ofText file text).tokens statements) ∧
    ∀ (tokens : List Token) (s₁ s₂ : List Statement), DerivesBody m tokens s₁ → DerivesBody m tokens s₂ →
      s₁ = s₂ := by
  constructor
  · intro statements
    simp only [Session.body_start_ok_iff]
    exact readBody_iff
  · intro tokens s₁ s₂ h₁ h₂
    exact h₁.unique h₂

end ThetaSchema
