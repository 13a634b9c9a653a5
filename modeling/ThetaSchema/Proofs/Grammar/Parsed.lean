import ThetaSchema.Proofs.Grammar.BodyCompleteness
import ThetaSchema.Proofs.Schema.Names
import ThetaSchema.Proofs.Schema.WellFormed

/-!
# What is read is well-formed

Tokens that were cut from a text are lexical: identifier tokens hold identifiers, and documentation tokens
hold normal texts.  Trees that lexical tokens derive are well-formed, so every module that was read from a
text is.

Main results:

- `DerivesBody.wellFormed`: lexical tokens derive well-formed statements.
- `SchemaModule.parse_ok_iff`: the three steps of reading a module.
- `SchemaModule.parse_wellFormed`: a module that was read is well-formed.
-/

namespace ThetaSchema

/-! ## Lexical tokens -/

/-- A token whose text is of its kind. -/
structure Token.Lexical (t : Token) : Prop where
  identifier : t.kind = .identifier → isIdentifier t.text = true
  documentation : t.kind = .documentation → Documentation.IsNormal t.text

/-- The tokens of a text are lexical. -/
theorem Token.lexical_of_mem_scan {file : Text} {p : Position} {t : Text} {token : Token}
    (h : token ∈ Token.scan file p t) : token.Lexical := by
  rcases Token.mem_scan h with ⟨b, rest, read⟩
  constructor
  · intro kind
    rw [kind] at read
    exact Lexeme.isIdentifier_of_read read
  · intro kind
    rw [kind] at read
    exact Lexeme.isNormal_of_read read

/-! ## Keywords -/

/-- A keyword belongs to a primitive type that the language version has. -/
theorem Primitive.enabledAt_of_ofKeyword? {language : Version} {t : Text} {kind : Primitive}
    (h : Primitive.ofKeyword? language t = some kind) : kind.enabledAt language = true := by
  have found := List.find?_some h
  rw [Bool.and_eq_true] at found
  exact found.1

/-! ## Types -/

variable {m : Metadata}

/-- Every part of a path is an identifier. -/
theorem DerivesPath.identifiers {tokens : List Token} {parts : List Text} (h : DerivesPath tokens parts)
    (lexical : ∀ t ∈ tokens, t.Lexical) : ∀ w ∈ parts, isIdentifier w = true := by
  induction h with
  | @single t identifier =>
    intro w mem
    rw [List.mem_singleton.mp mem]
    exact (lexical t List.mem_cons_self).identifier identifier
  | @cons t dot next rest parts identifier isDot before behind more ih =>
    intro w mem
    rcases List.mem_cons.mp mem with rfl | later
    · exact (lexical t List.mem_cons_self).identifier identifier
    · refine ih (fun u inside => lexical u ?_) w later
      exact List.mem_cons_of_mem t (List.mem_cons_of_mem dot inside)

theorem DerivesPath.ne_nil {tokens : List Token} {parts : List Text} (h : DerivesPath tokens parts) :
    parts ≠ [] := by
  cases h <;> simp

/-- An atom stands wherever a signature stands. -/
theorem TypeExpr.Fits.signature {e : TypeExpr} (h : e.Fits m .atom) : e.Fits m .signature := by
  cases e with
  | optional l element => cases h
  | absent | primitive | fixed | array | map | reference | record | variant | enumeration | newtype => exact h

/-- A type that is derived at a level fits the level. -/
theorem DerivesType.fits {level : TypeLevel} {tokens : List Token} {e : TypeExpr}
    (h : DerivesType m level tokens e) (lexical : ∀ t ∈ tokens, t.Lexical) : e.Fits m level := by
  induction h with
  | primitive identifier keyword => exact Primitive.enabledAt_of_ofKeyword? keyword
  | fixed identifier keyword enabled => exact enabled
  | array isOpening element isClosing ih | map isOpening element isClosing ih =>
    exact ih fun t mem => lexical t (by simp [mem])
  | reference path free => exact ⟨_, _, path.identifiers lexical, free, rfl⟩
  | plain atom ih => exact (ih lexical).signature
  | optional atom isMark ih => exact ih fun t mem => lexical t (List.mem_append_left _ mem)

/-! ## Definitions -/

/-- The documentation in front of an item is normal. -/
theorem DerivesDoc.normal {tokens : List Token} {doc : Option Text} (h : DerivesDoc tokens doc)
    (lexical : ∀ t ∈ tokens, t.Lexical) : ∀ d ∈ doc, Documentation.IsNormal d := by
  cases h with
  | absent => simp
  | @present t documentation =>
    intro d same
    cases same
    exact (lexical t List.mem_cons_self).documentation documentation

/-- What holds of every item that lexical tokens derive holds of every item of a list. -/
theorem DerivesList.forall {α : Type} {mark : TokenKind} {item : List Token → α → Prop} {P : α → Prop}
    {tokens : List Token} {as : List α} (h : DerivesList mark item tokens as)
    (each : ∀ ts a, item ts a → (∀ t ∈ ts, t.Lexical) → P a) (lexical : ∀ t ∈ tokens, t.Lexical) :
    ∀ a ∈ as, P a := by
  induction h with
  | single one =>
    intro a mem
    rw [List.mem_singleton.mp mem]
    exact each _ _ one lexical
  | cons one isMark more ih =>
    intro a mem
    rcases List.mem_cons.mp mem with rfl | later
    · exact each _ _ one fun t inside => lexical t (List.mem_append_left _ inside)
    · exact ih (fun t inside => lexical t (by simp [inside])) a later

theorem DerivesList.ne_nil {α : Type} {mark : TokenKind} {item : List Token → α → Prop}
    {tokens : List Token} {as : List α} (h : DerivesList mark item tokens as) : as ≠ [] := by
  cases h <;> simp

theorem DerivesSignature.fits {tokens : List Token} {e : TypeExpr} (h : DerivesSignature m tokens e)
    (lexical : ∀ t ∈ tokens, t.Lexical) : e.Fits m .signature :=
  (readLoneType_iff.mp h).fits lexical

/-- A field that is derived is well-formed. -/
theorem DerivesField.wellFormed {tokens : List Token} {f : RecordField} (h : DerivesField m tokens f)
    (lexical : ∀ t ∈ tokens, t.Lexical) : f.WellFormed m := by
  cases h with
  | intro documented identifier isColon typed =>
    exact ⟨(lexical _ (by simp)).identifier identifier,
      documented.normal fun t mem => lexical t (by simp [mem]),
      typed.fits fun t mem => lexical t (by simp [mem])⟩

/-- The fields of a block that is derived are well-formed. -/
theorem DerivesBlock.wellFormed {tokens : List Token} {fields : List RecordField}
    (h : DerivesBlock m tokens fields) (lexical : ∀ t ∈ tokens, t.Lexical) :
    ∀ f ∈ fields, f.WellFormed m := by
  cases h with
  | empty => simp
  | fields isOpening inside isClosing =>
    exact inside.forall (fun _ _ field => field.wellFormed) fun t mem => lexical t (by simp [mem])

/-- A name that is declared is one of the module. -/
theorem DeclaresName.declaredIn {t : Token} (h : DeclaresName m t) (lexical : t.Lexical) :
    QualifiedName.DeclaredIn m ⟨m.moduleName, t.text⟩ :=
  ⟨rfl, lexical.identifier h.identifier, h.free⟩

/-- A case that is derived is well-formed. -/
theorem DerivesCase.wellFormed {tokens : List Token} {c : VariantCase} (h : DerivesCase m tokens c)
    (lexical : ∀ t ∈ tokens, t.Lexical) : c.WellFormed m := by
  cases h with
  | bare documented declared =>
    exact ⟨declared.declaredIn (lexical _ (by simp)),
      documented.normal fun t mem => lexical t (by simp [mem]), by simp⟩
  | block documented declared inside =>
    exact ⟨declared.declaredIn (lexical _ (by simp)),
      documented.normal fun t mem => lexical t (by simp [mem]),
      inside.wellFormed fun t mem => lexical t (by simp [mem])⟩

/-- The body of a type that is derived is well-formed. -/
theorem DerivesTypeBody.wellFormed {name : QualifiedName} {tokens : List Token} {e : TypeExpr}
    (h : DerivesTypeBody m name tokens e) (lexical : ∀ t ∈ tokens, t.Lexical) : e.WellFormed m name := by
  cases h with
  | record block => exact ⟨rfl, block.wellFormed lexical⟩
  | variant inside notBare =>
    exact ⟨rfl, inside.ne_nil, inside.forall (fun _ _ c => c.wellFormed) lexical⟩
  | newtype signature => exact ⟨rfl, signature.fits lexical⟩

/-- A signature may be given a name. -/
theorem TypeExpr.Fits.wellFormed {e : TypeExpr} (h : e.Fits m .signature) (name : QualifiedName) :
    e.WellFormed m name := by
  cases e with
  | record | variant | enumeration | newtype => cases h
  | absent | primitive | fixed | array | map | optional | reference => exact h

/-- A definition that is derived is well-formed. -/
theorem DerivesDefinition.wellFormed {tokens : List Token} {name : QualifiedName} {e : TypeExpr}
    (h : DerivesDefinition m tokens (name, e)) (lexical : ∀ t ∈ tokens, t.Lexical) :
    name.DeclaredIn m ∧ e.WellFormed m name := by
  cases h with
  | type isKeyword declared isEqual body =>
    exact ⟨declared.declaredIn (lexical _ (by simp)), body.wellFormed fun t mem => lexical t (by simp [mem])⟩
  | synonym isKeyword declared isEqual body =>
    have fits := body.fits fun t mem => lexical t (by simp [mem])
    exact ⟨declared.declaredIn (lexical _ (by simp)), fits.wellFormed _⟩
  | enumeration enabled isKeyword declared isEqual body =>
    have symbols := body.forall (P := fun s => isIdentifier s = true) (by
      rintro _ _ ⟨identifier⟩ lexical
      exact (lexical _ (by simp)).identifier identifier) fun t mem => lexical t (by simp [mem])
    exact ⟨declared.declaredIn (lexical _ (by simp)), rfl, body.ne_nil, symbols, decide_eq_true enabled⟩

/-! ## Modules -/

/-- A statement that is derived is well-formed. -/
theorem DerivesStatement.wellFormed {tokens : List Token} {s : Statement}
    (h : DerivesStatement m tokens s) (lexical : ∀ t ∈ tokens, t.Lexical) : s.WellFormed m := by
  cases h with
  | imports isKeyword path =>
    exact isModuleName_dotted path.ne_nil (path.identifiers fun t mem => lexical t (by simp [mem]))
  | defines documented definition =>
    rcases definition.wellFormed fun t mem => lexical t (by simp [mem]) with ⟨declared, type⟩
    exact ⟨declared, documented.normal fun t mem => lexical t (by simp [mem]), type⟩

/-- Lexical tokens derive well-formed statements. -/
theorem DerivesBody.wellFormed {tokens : List Token} {statements : List Statement}
    (h : DerivesBody m tokens statements) (lexical : ∀ t ∈ tokens, t.Lexical) :
    ∀ s ∈ statements, s.WellFormed m := by
  induction h with
  | nil => simp
  | cons one more ih =>
    intro s mem
    rcases List.mem_cons.mp mem with rfl | later
    · exact one.wellFormed fun t inside => lexical t (List.mem_append_left _ inside)
    · exact ih (fun t inside => lexical t (List.mem_append_right _ inside)) s later

namespace SchemaModule

/-- A module is read when its header is read, names supported versions, and is followed by a body. -/
theorem parse_ok_iff {moduleName file text : Text} {x : SchemaModule} :
    (SchemaModule.parse moduleName file text).outcome = .ok x ↔
      ∃ metadata tokens statements,
        readHeader none moduleName (Token.scan file {} text) = .accepted metadata tokens ∧
          metadata.checkSupported = .ok () ∧ readBody metadata tokens = .accepted statements [] ∧
            x = ⟨file, metadata, statements⟩ := by
  unfold SchemaModule.parse
  rw [← TokenStream.tokens_ofText]
  dsimp only
  cases header : readHeader none moduleName (TokenStream.ofText file text).tokens with
  | rejected f rest => simp [Outcome.judge]
  | accepted metadata rest =>
    unfold SchemaModule.parseBody
    cases supported : metadata.checkSupported with
    | error e => simp [Logged.fail, supported]
    | ok checked =>
      cases body : readBody metadata rest with
      | rejected f left => simp [Outcome.judge, supported, body, and_assoc]
      | accepted statements left =>
        rw [readBody_accepted body] at body
        simp [Outcome.judge, Logged.succeed, supported, body, and_assoc, @eq_comm _ x]

/-- A module that is read is read without a report. -/
theorem parse_eq_of_accepted {moduleName file text : Text} {metadata : Metadata} {tokens : List Token}
    {statements : List Statement}
    (header : readHeader none moduleName (Token.scan file {} text) = .accepted metadata tokens)
    (supported : metadata.checkSupported = .ok ())
    (body : readBody metadata tokens = .accepted statements []) :
    SchemaModule.parse moduleName file text = ⟨[], .ok ⟨file, metadata, statements⟩⟩ := by
  rw [← TokenStream.tokens_ofText] at header
  simp only [SchemaModule.parse, header, SchemaModule.parseBody, supported, body]
  rfl

/-- The metadata that a header is read to has the name that the module is given. -/
theorem moduleName_of_readHeader {before : Option Token} {moduleName : Text} {tokens rest : List Token}
    {metadata : Metadata} (h : readHeader before moduleName tokens = .accepted metadata rest) :
    metadata.moduleName = moduleName := by
  rcases Outcome.andThen_eq_accepted_iff.mp h with ⟨draft, mid, -, closed⟩
  unfold closeHeader at closed
  split at closed
  · cases closed
  · split at closed
    · cases closed
    · split at closed <;> cases closed
      rfl

/-- A module that was read is well-formed, and has the name and file that it was given. -/
theorem parse_wellFormed {moduleName file text : Text} {x : SchemaModule}
    (h : (SchemaModule.parse moduleName file text).outcome = .ok x) :
    x.WellFormed ∧ x.name = moduleName ∧ x.file = file ∧ x.metadata.checkSupported = .ok () := by
  rcases parse_ok_iff.mp h with ⟨metadata, tokens, statements, header, supported, body, rfl⟩
  have lexical : ∀ t ∈ tokens, t.Lexical := by
    intro t mem
    have left := readHeader_suffix none moduleName (Token.scan file {} text)
    rw [header] at left
    exact Token.lexical_of_mem_scan (left.subset mem)
  refine ⟨?_, moduleName_of_readHeader header, rfl, supported⟩
  intro s mem
  have derived := (readBody_sound body).wellFormed lexical s.unlocated (List.mem_map_of_mem mem)
  exact (Statement.wellFormed_unlocated s).mp derived

end SchemaModule

end ThetaSchema
