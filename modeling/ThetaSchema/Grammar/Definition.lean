import ThetaSchema.Grammar.TypeExpr

/-!
# The grammar of definitions

A definition introduces a record, a variant, a newtype, an alias or an enumeration.  Records, variants
and newtypes share one keyword, and at most three tokens behind the equals sign decide between them.

Main definitions:

- `readField`, `readFieldBlock`: fields and blocks of fields.
- `readCase`, `readCases`: the cases of a variant.
- `readTypeBody`: what stands behind the equals sign of a record, a variant or a newtype.
- `readDefinition`: a definition behind its documentation.

Main results:

- `readDefinition_suffix`: what is left is a part of the input.
- `readDefinition_accepted`: an accepted definition consumes at least one token.
-/

namespace ThetaSchema

/-- The location of the next token. -/
def locationOf (tokens : List Token) : Location :=
  tokens.head?.elim {} Token.location

/-- Reads the name of what is being declared, which belongs to the module. -/
def readDeclaredName (m : Metadata) (what : Declared) (tokens : List Token) : Outcome QualifiedName :=
  (expect .identifier (.declaredName what) tokens).andThen fun t rest =>
    if isReservedWord m.language t.text then
      .rejected ⟨tokens, .reservedWord t.text m.language what⟩ rest
    else .accepted ⟨m.moduleName, t.text⟩ rest

/-- A declared name is taken from the front of the input, also when it is reserved. -/
theorem readDeclaredName_suffix (m : Metadata) (what : Declared) (tokens : List Token) :
    (readDeclaredName m what tokens).rest <:+ tokens := by
  refine Outcome.andThen_suffix (expect_suffix _ _ _) fun t rest _ => ?_
  split <;> exact List.suffix_rfl

/-! ## Fields -/

/-- Reads a field: its documentation, its name, a colon and its type. -/
def readField (m : Metadata) (tokens : List Token) : Outcome RecordField :=
  if startsWith .documentation tokens && !startsWith .identifier (afterDoc tokens) then
    .rejected ⟨tokens, .strayDocumentation .field⟩ (afterDoc tokens)
  else
    (expect .identifier .fieldName (afterDoc tokens)).andThen fun name rest =>
      (expect .colon (.colonAfterField name.text) rest).andThen fun _ rest =>
        (readType m rest).map fun type => ⟨name.location, name.text, docOf tokens, type⟩

/-- A field is read from the front of the input, with its documentation. -/
theorem readField_suffix (m : Metadata) (tokens : List Token) : (readField m tokens).rest <:+ tokens := by
  unfold readField
  have doc := afterDoc_suffix tokens
  split
  · exact doc
  · refine Outcome.andThen_suffix ((expect_suffix _ _ _).trans doc) fun name rest _ => ?_
    refine Outcome.andThen_suffix (expect_suffix _ _ _) fun _ rest _ => ?_
    rw [Outcome.rest_map]
    exact readType_suffix m rest

/-- Reads fields with commas between them, up to and with the closing brace. -/
def readFields (m : Metadata) (tokens : List Token) : Outcome (List RecordField) :=
  match _h : readField m tokens with
  | .rejected f rest => .rejected f rest
  | .accepted _ [] => reject .fieldEnd []
  | .accepted field (t :: rest) =>
    if t.kind = .comma then (readFields m rest).map (field :: ·)
    else if t.kind = .braceClose then .accepted [field] rest
    else reject .fieldEnd (t :: rest)
termination_by tokens.length
decreasing_by
  have := (readField_suffix m tokens).length_le
  rw [_h] at this
  exact this

/-- Reads a block of fields behind its opening brace. -/
def readFieldBlock (m : Metadata) (tokens : List Token) : Outcome (List RecordField) :=
  if startsWith .braceClose tokens then .accepted [] tokens.tail else readFields m tokens

/-- Fields are read from the front of the input, however many there are. -/
theorem readFields_suffix (m : Metadata) (tokens : List Token) : (readFields m tokens).rest <:+ tokens := by
  fun_induction readFields m tokens with
  | case1 tokens f rest h => exact (congrArg Outcome.rest h) ▸ readField_suffix m tokens
  | case2 tokens field h => exact List.nil_suffix
  | case3 tokens field t rest h _ ih =>
    have left := readField_suffix m tokens
    rw [h] at left
    rw [Outcome.rest_map]
    exact ih.trans ((List.suffix_cons _ _).trans left)
  | case4 tokens field t rest h =>
    have left := readField_suffix m tokens
    rw [h] at left
    exact (List.suffix_cons _ _).trans left
  | case5 tokens field t rest h => exact (congrArg Outcome.rest h) ▸ readField_suffix m tokens

/-- A block of fields is read from the front of the input. -/
theorem readFieldBlock_suffix (m : Metadata) (tokens : List Token) :
    (readFieldBlock m tokens).rest <:+ tokens := by
  unfold readFieldBlock
  split
  · exact List.tail_suffix _
  · exact readFields_suffix m tokens

/-! ## Cases -/

/-- Reads a case: its documentation, its name and its block of fields, if there is one. -/
def readCase (m : Metadata) (tokens : List Token) : Outcome VariantCase :=
  if startsWith .documentation tokens && !startsWith .identifier (afterDoc tokens) then
    .rejected ⟨tokens, .strayDocumentation .variantCase⟩ (afterDoc tokens)
  else
    (readDeclaredName m .variantCase (afterDoc tokens)).andThen fun name rest =>
      if startsWith .braceOpen rest then
        (readFieldBlock m rest.tail).map fun fields =>
          ⟨locationOf (afterDoc tokens), name, docOf tokens, fields⟩
      else .accepted ⟨locationOf (afterDoc tokens), name, docOf tokens, []⟩ rest

/-- A case is read from the front of the input, with its documentation and its fields. -/
theorem readCase_suffix (m : Metadata) (tokens : List Token) : (readCase m tokens).rest <:+ tokens := by
  unfold readCase
  have doc := afterDoc_suffix tokens
  split
  · exact doc
  · refine Outcome.andThen_suffix ((readDeclaredName_suffix _ _ _).trans doc) fun name rest _ => ?_
    split
    · rw [Outcome.rest_map]
      exact (readFieldBlock_suffix _ _).trans (List.tail_suffix _)
    · exact List.suffix_rfl

/-- Reads cases with bars between them. -/
def readCases (m : Metadata) (tokens : List Token) : Outcome (List VariantCase) :=
  match _h : readCase m tokens with
  | .rejected f rest => .rejected f rest
  | .accepted case [] => .accepted [case] []
  | .accepted case (t :: rest) =>
    if t.kind = .pipe then (readCases m rest).map (case :: ·) else .accepted [case] (t :: rest)
termination_by tokens.length
decreasing_by
  have := (readCase_suffix m tokens).length_le
  rw [_h] at this
  exact this

/-- Cases are read from the front of the input, however many there are. -/
theorem readCases_suffix (m : Metadata) (tokens : List Token) : (readCases m tokens).rest <:+ tokens := by
  fun_induction readCases m tokens with
  | case1 tokens f rest h => exact (congrArg Outcome.rest h) ▸ readCase_suffix m tokens
  | case2 tokens case h => exact List.nil_suffix
  | case3 tokens case t rest h _ ih =>
    have left := readCase_suffix m tokens
    rw [h] at left
    rw [Outcome.rest_map]
    exact ih.trans ((List.suffix_cons _ _).trans left)
  | case4 tokens case t rest h => exact (congrArg Outcome.rest h) ▸ readCase_suffix m tokens

/-- Reads the symbols of an enumeration, with bars between them. -/
def readSymbols : List Token → Outcome (List Text)
  | [] => reject .enumSymbol []
  | t :: rest =>
    if t.kind = .identifier then
      match rest with
      | [] => .accepted [t.text] []
      | bar :: others =>
        if bar.kind = .pipe then (readSymbols others).map (t.text :: ·)
        else .accepted [t.text] (bar :: others)
    else reject .enumSymbol (t :: rest)

/-- Symbols are read from the front of the input, however many there are. -/
theorem readSymbols_suffix (tokens : List Token) : (readSymbols tokens).rest <:+ tokens := by
  fun_induction readSymbols tokens with
  | case1 => exact List.suffix_rfl
  | case2 => exact List.nil_suffix
  | case3 t _ bar others _ ih =>
    rw [Outcome.rest_map]
    exact ih.trans ((List.suffix_cons _ _).trans (List.suffix_cons _ _))
  | case4 => exact List.suffix_cons _ _
  | case5 => exact List.suffix_rfl

/-! ## Bodies -/

/-- Whether the tokens start like a record: a brace, and behind it the closing brace, documentation, or
a name with a colon. -/
def opensRecord (tokens : List Token) : Bool :=
  startsWith .braceOpen tokens &&
    (startsWith .braceClose tokens.tail || startsWith .documentation tokens.tail ||
      (startsWith .identifier tokens.tail && startsWith .colon tokens.tail.tail))

/-- Whether the tokens start like a variant: documentation, or a name with a brace or a bar. -/
def opensVariant (tokens : List Token) : Bool :=
  startsWith .documentation tokens ||
    (startsWith .identifier tokens && (startsWith .braceOpen tokens.tail || startsWith .pipe tokens.tail))

/-- Reads what stands behind the equals sign of a record, a variant or a newtype. -/
def readTypeBody (m : Metadata) (name : QualifiedName) (tokens : List Token) : Outcome TypeExpr :=
  if opensRecord tokens then
    (readFieldBlock m tokens.tail).map (.record (locationOf tokens) name)
  else if opensVariant tokens then
    (readCases m tokens).map (.variant (locationOf tokens) name)
  else
    (readType m tokens).map fun underlying => .newtype underlying.location name underlying

/-- Reads what stands behind the equals sign of an enumeration. -/
def readEnumBody (name : QualifiedName) (tokens : List Token) : Outcome TypeExpr :=
  (readSymbols tokens).map (.enumeration (locationOf tokens) name)

/-- Each of the three forms of a body of a type is read from the front of the input. -/
theorem readTypeBody_suffix (m : Metadata) (name : QualifiedName) (tokens : List Token) :
    (readTypeBody m name tokens).rest <:+ tokens := by
  unfold readTypeBody
  repeat' split
  all_goals rw [Outcome.rest_map]
  · exact (readFieldBlock_suffix _ _).trans (List.tail_suffix _)
  · exact readCases_suffix _ _
  · exact readType_suffix _ _

/-- The symbols of an enumeration are read from the front of the input. -/
theorem readEnumBody_suffix (name : QualifiedName) (tokens : List Token) :
    (readEnumBody name tokens).rest <:+ tokens := by
  unfold readEnumBody
  rw [Outcome.rest_map]
  exact readSymbols_suffix tokens

/-! ## Definitions -/

/-- Reads the name, the equals sign and the body of a declaration behind its keyword. -/
def readDeclaration (m : Metadata) (what : Declared) (body : QualifiedName → List Token → Outcome TypeExpr)
    (tokens : List Token) : Outcome (QualifiedName × TypeExpr) :=
  (readDeclaredName m what tokens).andThen fun name rest =>
    (expect .equal (.equalAfterName what) rest).andThen fun _ rest =>
      (body name rest).map (name, ·)

/-- A declaration is read from the front of the input, if its body is. -/
theorem readDeclaration_suffix (m : Metadata) (what : Declared)
    {body : QualifiedName → List Token → Outcome TypeExpr}
    (h : ∀ name rest, (body name rest).rest <:+ rest) (tokens : List Token) :
    (readDeclaration m what body tokens).rest <:+ tokens := by
  refine Outcome.andThen_suffix (readDeclaredName_suffix _ _ _) fun name rest _ => ?_
  refine Outcome.andThen_suffix (expect_suffix _ _ _) fun _ rest _ => ?_
  rw [Outcome.rest_map]
  exact h name rest

/-- Reads the declaration that a keyword starts.  Below the first version with enumerations, no word that
starts like their keyword can start a definition, and the complaint is about the version. -/
def readKeyword (m : Metadata) (t : Token) (rest : List Token) : Outcome (QualifiedName × TypeExpr) :=
  if t.text = "type" then readDeclaration m .type (readTypeBody m) rest
  else if t.text = "alias" then readDeclaration m .synonym (fun _ => readType m) rest
  else if Feature.enumeration.enabledAt m.language then
    if t.text = Feature.enumeration.keyword then readDeclaration m .enumeration readEnumBody rest
    else reject .definition (t :: rest)
  else if Feature.enumeration.keyword.isPrefixOf t.text then
    .rejected ⟨t :: rest, .unavailable (.ofFeature .enumeration m.language)⟩ (t :: rest)
  else reject .definition (t :: rest)

/-- Reads a definition behind its documentation. -/
def readDefinition (m : Metadata) (doc : Option Text) : List Token → Outcome Definition
  | [] => reject .definition []
  | t :: rest =>
    if t.kind = .identifier then
      (readKeyword m t rest).map fun (name, type) => ⟨t.location, name, doc, type⟩
    else reject .definition (t :: rest)

/-- An accepted declaration leaves a part of what follows its keyword. -/
theorem readKeyword_accepted {m : Metadata} {t : Token} {rest left : List Token}
    {d : QualifiedName × TypeExpr} (h : readKeyword m t rest = .accepted d left) : left <:+ rest := by
  have typeCase := readDeclaration_suffix m .type (readTypeBody_suffix m) rest
  have synonymCase := readDeclaration_suffix m .synonym (fun _ => readType_suffix m) rest
  have enumCase := readDeclaration_suffix m .enumeration readEnumBody_suffix rest
  unfold readKeyword at h
  split at h
  · rw [h] at typeCase
    exact typeCase
  · split at h
    · rw [h] at synonymCase
      exact synonymCase
    · split at h
      · split at h
        · rw [h] at enumCase
          exact enumCase
        · cases h
      · split at h <;> cases h

/-- Whatever becomes of a declaration, what is left is a part of the input. -/
theorem readKeyword_suffix (m : Metadata) (t : Token) (rest : List Token) :
    (readKeyword m t rest).rest <:+ t :: rest := by
  have tail : ∀ {left : List Token}, left <:+ rest → left <:+ t :: rest :=
    fun h => h.trans (List.suffix_cons _ _)
  unfold readKeyword
  repeat' split
  · exact tail (readDeclaration_suffix m .type (readTypeBody_suffix m) rest)
  · exact tail (readDeclaration_suffix m .synonym (fun _ => readType_suffix m) rest)
  · exact tail (readDeclaration_suffix m .enumeration readEnumBody_suffix rest)
  · exact List.suffix_rfl
  · exact List.suffix_rfl
  · exact List.suffix_rfl

/-- A definition is read from the front of the input, whichever keyword starts it. -/
theorem readDefinition_suffix (m : Metadata) (doc : Option Text) (tokens : List Token) :
    (readDefinition m doc tokens).rest <:+ tokens := by
  unfold readDefinition
  split
  · exact List.suffix_rfl
  · split
    · rw [Outcome.rest_map]
      exact readKeyword_suffix m _ _
    · exact List.suffix_rfl

/-- An accepted definition consumes at least one token. -/
theorem readDefinition_accepted {m : Metadata} {doc : Option Text} {tokens left : List Token}
    {d : Definition} (h : readDefinition m doc tokens = .accepted d left) : left.length < tokens.length := by
  unfold readDefinition at h
  split at h
  · cases h
  · split at h
    · obtain ⟨_, accepted, -⟩ := Outcome.map_eq_accepted_iff.mp h
      exact Nat.lt_succ_of_le (readKeyword_accepted accepted).length_le
    · cases h

end ThetaSchema
