import ThetaSchema.Proofs.Grammar.Parsed
import ThetaSchema.Proofs.Schema.Parts

/-!
# Documentation is kept

Every documentation token of a body belongs to exactly one definition, field or case of what is read, and
they come in the same order.  Documentation that nothing can carry is refused, so none is dropped.

Main definitions:

- `docTexts`: the texts of the documentation tokens of a list.

Main results:

- `DerivesBody.docTexts_eq`: derivable tokens carry the documentation of the statements they derive.
- `body_docs_eq_docTexts`: so does every body that is read from a text.
-/

namespace ThetaSchema

/-! ## Documentation tokens -/

/-- The texts of the documentation tokens of a list. -/
def docTexts (tokens : List Token) : List Text :=
  (tokens.filter (·.kind = .documentation)).map Token.text

@[simp]
theorem docTexts_nil : docTexts [] = [] := rfl

/-- Documentation tokens count, in their order. -/
@[simp]
theorem docTexts_cons (t : Token) (ts : List Token) :
    docTexts (t :: ts) = if t.kind = .documentation then t.text :: docTexts ts else docTexts ts := by
  by_cases documentation : t.kind = .documentation
  · simp [docTexts, documentation]
  · simp [docTexts, documentation]

@[simp]
theorem docTexts_append (ts us : List Token) : docTexts (ts ++ us) = docTexts ts ++ docTexts us := by
  rw [docTexts, List.filter_append, List.map_append]
  rfl

/-! ## Types -/

variable {m : Metadata}

/-- There is no documentation inside of a path. -/
theorem DerivesPath.docTexts_eq_nil {tokens : List Token} {parts : List Text}
    (h : DerivesPath tokens parts) : docTexts tokens = [] := by
  induction h with
  | single identifier => simp [identifier]
  | cons identifier isDot before behind more ih =>
    rw [docTexts_cons, docTexts_cons, ih]
    simp [identifier, isDot]

/-- No documentation stands in a type expression. -/
theorem DerivesType.docTexts_eq_nil {level : TypeLevel} {tokens : List Token} {e : TypeExpr}
    (h : DerivesType m level tokens e) : docTexts tokens = [] := by
  induction h with
  | primitive identifier keyword => simp [identifier]
  | fixed identifier keyword enabled isOpening touches isSize value isClosing =>
    simp [identifier, isOpening, isSize, isClosing]
  | array isOpening element isClosing ih => simp [isOpening, isClosing, ih]
  | map isOpening value isClosing ih => simp [isOpening, isClosing, ih]
  | reference path free => exact path.docTexts_eq_nil
  | plain atom ih => exact ih
  | optional atom isMark ih => simp [isMark, ih]

/-- A type expression carries no documentation. -/
theorem DerivesType.docs_eq_nil {level : TypeLevel} {tokens : List Token} {e : TypeExpr}
    (h : DerivesType m level tokens e) : e.docs = [] := by
  induction h with
  | plain atom ih => exact ih
  | primitive | fixed | array | map | reference | optional => rfl

/-- There is no documentation inside of a signature. -/
theorem DerivesSignature.docTexts_eq_nil {tokens : List Token} {e : TypeExpr}
    (h : DerivesSignature m tokens e) : docTexts tokens = [] :=
  (readLoneType_iff.mp h).docTexts_eq_nil

/-! ## Fields and cases -/

/-- The documentation in front of an item is its own. -/
theorem DerivesDoc.docTexts_eq {tokens : List Token} {doc : Option Text} (h : DerivesDoc tokens doc) :
    docTexts tokens = doc.toList := by
  cases h with
  | absent => rfl
  | present documentation => simp [documentation]

/-- Where the documentation tokens of each item are the documentation of the item, those of a list are the
documentation of its items. -/
theorem DerivesList.docTexts_eq {α : Type} {mark : TokenKind} {item : List Token → α → Prop}
    {docs : α → List Text} {tokens : List Token} {as : List α} (h : DerivesList mark item tokens as)
    (each : ∀ ts a, item ts a → docTexts ts = docs a) (other : mark ≠ .documentation) :
    docTexts tokens = as.flatMap docs := by
  induction h with
  | single one => rw [each _ _ one, List.flatMap_singleton]
  | cons one isMark more ih =>
    rw [docTexts_append, docTexts_cons, isMark, if_neg other, each _ _ one, ih, List.flatMap_cons]

/-- A field has the documentation of its tokens and no other. -/
theorem DerivesField.docTexts_eq {tokens : List Token} {f : RecordField} (h : DerivesField m tokens f) :
    docTexts tokens = f.docs := by
  cases h with
  | intro documented identifier isColon typed =>
    rw [docTexts_append, documented.docTexts_eq]
    simp [identifier, isColon, typed.docTexts_eq_nil, FieldOf.docs]

/-- The fields of a block have the documentation of its tokens, in their order. -/
theorem DerivesBlock.docTexts_eq {tokens : List Token} {fields : List RecordField}
    (h : DerivesBlock m tokens fields) : docTexts tokens = fields.flatMap FieldOf.docs := by
  cases h with
  | empty isOpening isClosing => simp [isOpening, isClosing]
  | fields isOpening inside isClosing =>
    have each := inside.docTexts_eq (fun _ _ field => field.docTexts_eq) (by decide)
    simp [isOpening, isClosing, each]

/-- A case has its own documentation and then that of its fields. -/
theorem DerivesCase.docTexts_eq {tokens : List Token} {c : VariantCase} (h : DerivesCase m tokens c) :
    docTexts tokens = c.docs := by
  cases h with
  | bare documented declared =>
    rw [docTexts_append, documented.docTexts_eq]
    simp [declared.identifier, CaseOf.docs]
  | block documented declared inside =>
    rw [docTexts_append, documented.docTexts_eq]
    simp [declared.identifier, inside.docTexts_eq, CaseOf.docs]

/-- A symbol has no documentation. -/
theorem DerivesSymbol.docTexts_eq_nil {tokens : List Token} {symbol : Text}
    (h : DerivesSymbol tokens symbol) : docTexts tokens = [] := by
  cases h with
  | intro identifier => simp [identifier]

/-! ## Definitions and statements -/

/-- The documentation in the body of a type is that of its fields and cases. -/
theorem DerivesTypeBody.docTexts_eq {name : QualifiedName} {tokens : List Token} {e : TypeExpr}
    (h : DerivesTypeBody m name tokens e) : docTexts tokens = e.docs := by
  cases h with
  | record block => exact block.docTexts_eq
  | variant inside notBare => exact inside.docTexts_eq (fun _ _ c => c.docTexts_eq) (by decide)
  | newtype signature => exact signature.docTexts_eq_nil

/-- A definition adds none to the documentation of its body. -/
theorem DerivesDefinition.docTexts_eq {tokens : List Token} {name : QualifiedName} {e : TypeExpr}
    (h : DerivesDefinition m tokens (name, e)) : docTexts tokens = e.docs := by
  cases h with
  | type isKeyword declared isEqual body =>
    simp [isKeyword.identifier, declared.identifier, isEqual, body.docTexts_eq]
  | synonym isKeyword declared isEqual body =>
    simp [isKeyword.identifier, declared.identifier, isEqual, body.docTexts_eq_nil,
      (readLoneType_iff.mp body).docs_eq_nil]
  | enumeration enabled isKeyword declared isEqual body =>
    have symbols := @DerivesList.docTexts_eq _ _ _ (fun _ => []) _ _ body
      (fun _ _ symbol => symbol.docTexts_eq_nil) (by decide)
    simp [isKeyword.identifier, declared.identifier, isEqual, symbols, TypeExpr.docs]

/-- A statement has the documentation in front of it and then that of its definition. -/
theorem DerivesStatement.docTexts_eq {tokens : List Token} {s : Statement}
    (h : DerivesStatement m tokens s) : docTexts tokens = s.docs := by
  cases h with
  | imports isKeyword path => simp [isKeyword.identifier, path.docTexts_eq_nil, Statement.docs]
  | defines documented definition =>
    rw [docTexts_append, documented.docTexts_eq, definition.docTexts_eq]
    rfl

/-- The documentation tokens of a body are the documentation of the statements that the body derives. -/
theorem DerivesBody.docTexts_eq {tokens : List Token} {statements : List Statement}
    (h : DerivesBody m tokens statements) : docTexts tokens = statements.flatMap Statement.docs := by
  induction h with
  | nil => rfl
  | cons one more ih => rw [docTexts_append, one.docTexts_eq, ih, List.flatMap_cons]

/-! ## Documentation that stands elsewhere -/

/-- A type expression of some level carries no documentation. -/
theorem TypeExpr.Fits.docs_eq_nil {level : TypeLevel} {e : TypeExpr} (h : e.Fits m level) : e.docs = [] := by
  cases e with
  | record | variant => cases level <;> cases h
  | absent | primitive | fixed | array | map | optional | reference | enumeration | newtype => rfl

/-- What stands inside a well-formed type carries no documentation of its own. -/
theorem TypeExpr.WellFormed.docs_inside {name : QualifiedName} {e u : TypeExpr} (h : e.WellFormed m name)
    (part : u.Inside e) : u = e ∨ u.docs = [] := by
  rcases h.inside part with whole | ⟨level, fits⟩
  · exact .inl whole
  · exact .inr fits.docs_eq_nil

/-! ## Bodies of texts -/

/-- The definitions of a body that is read from a text are well-formed. -/
theorem Session.wellFormed_of_body {file text : Text} {statements : List Statement}
    (read : ((Session.start (TokenStream.ofText file text)).body m).2 = .ok statements) :
    ∀ s ∈ statements, s.WellFormed m := by
  intro s mem
  have lexical : ∀ t ∈ (TokenStream.ofText file text).tokens, t.Lexical := by
    intro t inside
    rw [TokenStream.tokens_ofText] at inside
    exact Token.lexical_of_mem_scan inside
  have derived := readBody_sound (Session.body_start_ok_iff.mp read)
  exact (Statement.wellFormed_unlocated s).mp (derived.wellFormed lexical _ (List.mem_map_of_mem mem))

/-- The documentation tokens of a text, in source order, are the documentation of the definitions, fields
and cases of the body that is read from it; and no other part of a type carries documentation. -/
theorem body_docs_eq_docTexts {file text : Text} {statements : List Statement}
    (read : ((Session.start (TokenStream.ofText file text)).body m).2 = .ok statements) :
    statements.flatMap Statement.docs = docTexts (TokenStream.ofText file text).tokens ∧
      ∀ d ∈ statements.filterMap Statement.definition?, ∀ u : TypeExpr, u.Inside d.type →
        u = d.type ∨ u.docs = [] := by
  constructor
  · have derived := readBody_sound (Session.body_start_ok_iff.mp read)
    rw [derived.docTexts_eq, List.flatMap_map]
    simp only [Statement.docs_unlocated]
  · intro d mem u part
    rcases List.mem_filterMap.mp mem with ⟨s, inside, makes⟩
    have wellFormed := Session.wellFormed_of_body read s inside
    cases s with
    | imports l moduleName => cases makes
    | defines d' =>
      cases makes
      exact wellFormed.type.docs_inside part

/-- Definitions, fields, cases and fields of cases with documentation, in both forms of comments. -/
def documentedSource : Text :=
  "/// first\n/// line\ntype R = \x7b /** x */ x : Int,\n /// y\n y : \x7b [R] \x7d \x7d\nimport a.b\n" ++
    "/** V */ type V = /// A\n A \x7b /// f\n f : Int, g : R? \x7d | B | /** C */ C"

/-- The documentation of a small body. -/
theorem body_docs_eq_docTexts_documented :
    ∃ statements, ((Session.start (TokenStream.ofText "a.theta" documentedSource)).body
        ⟨⟨1, 1, 0⟩, ⟨1, 0, 0⟩, "a"⟩).2 = .ok statements ∧
      docTexts (TokenStream.ofText "a.theta" documentedSource).tokens =
        ["first\nline", "x", "y", "V", "A", "f", "C"].map Text.ofString ∧
      statements.flatMap Statement.docs = docTexts (TokenStream.ofText "a.theta" documentedSource).tokens ∧
        ∀ d ∈ statements.filterMap Statement.definition?, ∀ u : TypeExpr, u.Inside d.type →
          u = d.type ∨ u.docs = [] := by
  have readable : ((Session.start (TokenStream.ofText "a.theta" documentedSource)).body
      ⟨⟨1, 1, 0⟩, ⟨1, 0, 0⟩, "a"⟩).2.toOption.any (fun _ => true) = true := by
    decide +kernel
  rcases exists_ok_of_any readable with ⟨statements, read, -⟩
  rcases body_docs_eq_docTexts read with ⟨kept, elsewhere⟩
  exact ⟨statements, read, by decide +kernel, kept, elsewhere⟩

end ThetaSchema
