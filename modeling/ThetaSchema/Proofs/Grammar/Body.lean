import ThetaSchema.Grammar.Session
import ThetaSchema.Proofs.Grammar.Types

/-!
# Derivations of module bodies

The grammar of fields, cases, definitions and statements as rules on token lists.  A signature is
whatever is accepted as a whole type expression; everything else is spelled out here, without lookahead
and without any order among the alternatives.  Trees are derived without locations.

Main definitions:

- `DerivesList`: items with a separator between neighbours.
- `DerivesTypeBody`: records, variants and newtypes.
- `DerivesStatement`, `DerivesBody`: statements and module bodies.
-/

namespace ThetaSchema

/-! ## Parts that the rules share -/

/-- Nothing, or a single documentation token. -/
inductive DerivesDoc : List Token → Option Text → Prop where
  | absent : DerivesDoc [] none
  | present {t : Token} (documentation : t.kind = .documentation) : DerivesDoc [t] (some t.text)

/-- Items with a separator between neighbours, at least one of them. -/
inductive DerivesList {α : Type} (mark : TokenKind) (item : List Token → α → Prop) :
    List Token → List α → Prop where
  | single {tokens : List Token} {a : α} (one : item tokens a) : DerivesList mark item tokens [a]
  | cons {tokens rest : List Token} {t : Token} {a : α} {as : List α} (one : item tokens a)
      (isMark : t.kind = mark) (more : DerivesList mark item rest as) :
      DerivesList mark item (tokens ++ t :: rest) (a :: as)

/-- The tokens of a signature: those that are accepted as a whole type expression. -/
def DerivesSignature (m : Metadata) (tokens : List Token) (e : TypeExpr) : Prop :=
  ∃ e', readLoneType m tokens = .accepted e' [] ∧ e'.unlocated = e

/-- An identifier that is not reserved, so that it may name a definition or a case. -/
structure DeclaresName (m : Metadata) (t : Token) : Prop where
  identifier : t.kind = .identifier
  free : isReservedWord m.language t.text = false

/-- An identifier with the text of a keyword. -/
structure IsKeyword (word : Text) (t : Token) : Prop where
  identifier : t.kind = .identifier
  text : t.text = word

/-! ## Fields and cases -/

/-- A field: its documentation, its name, a colon and its signature. -/
inductive DerivesField (m : Metadata) : List Token → RecordField → Prop where
  | intro {doc type : List Token} {name colon : Token} {text : Option Text} {e : TypeExpr}
      (documented : DerivesDoc doc text) (identifier : name.kind = .identifier)
      (isColon : colon.kind = .colon) (typed : DerivesSignature m type e) :
      DerivesField m (doc ++ name :: colon :: type) ⟨{}, name.text, text, e⟩

/-- Fields with commas between them, inside braces. -/
inductive DerivesBlock (m : Metadata) : List Token → List RecordField → Prop where
  | empty {opening closing : Token} (isOpening : opening.kind = .braceOpen)
      (isClosing : closing.kind = .braceClose) : DerivesBlock m [opening, closing] []
  | fields {opening closing : Token} {tokens : List Token} {fields : List RecordField}
      (isOpening : opening.kind = .braceOpen)
      (inside : DerivesList .comma (DerivesField m) tokens fields)
      (isClosing : closing.kind = .braceClose) :
      DerivesBlock m (opening :: tokens ++ [closing]) fields

/-- A case: its documentation, its name and its block of fields, if there is one. -/
inductive DerivesCase (m : Metadata) : List Token → VariantCase → Prop where
  | bare {doc : List Token} {name : Token} {text : Option Text} (documented : DerivesDoc doc text)
      (declared : DeclaresName m name) :
      DerivesCase m (doc ++ [name]) ⟨{}, ⟨m.moduleName, name.text⟩, text, []⟩
  | block {doc block : List Token} {name : Token} {text : Option Text} {fields : List RecordField}
      (documented : DerivesDoc doc text) (declared : DeclaresName m name)
      (inside : DerivesBlock m block fields) :
      DerivesCase m (doc ++ name :: block) ⟨{}, ⟨m.moduleName, name.text⟩, text, fields⟩

/-- A symbol of an enumeration, which may be any identifier. -/
inductive DerivesSymbol : List Token → Text → Prop where
  | intro {t : Token} (identifier : t.kind = .identifier) : DerivesSymbol [t] t.text

/-! ## Definitions -/

/-- What stands behind the equals sign of a record, a variant or a newtype.  A single case that is nothing
but a name is no variant: its token is a signature, so it makes a newtype. -/
inductive DerivesTypeBody (m : Metadata) (name : QualifiedName) : List Token → TypeExpr → Prop where
  | record {tokens : List Token} {fields : List RecordField} (block : DerivesBlock m tokens fields) :
      DerivesTypeBody m name tokens (.record {} name fields)
  | variant {tokens : List Token} {cases : List VariantCase}
      (inside : DerivesList .pipe (DerivesCase m) tokens cases) (notBare : ∀ t, tokens ≠ [t]) :
      DerivesTypeBody m name tokens (.variant {} name cases)
  | newtype {tokens : List Token} {e : TypeExpr} (signature : DerivesSignature m tokens e) :
      DerivesTypeBody m name tokens (.newtype {} name e)

/-- A definition behind its documentation; enumerations exist from language version 1.1.0 on. -/
inductive DerivesDefinition (m : Metadata) : List Token → QualifiedName × TypeExpr → Prop where
  | type {keyword name equal : Token} {tokens : List Token} {e : TypeExpr}
      (isKeyword : IsKeyword "type" keyword) (declared : DeclaresName m name)
      (isEqual : equal.kind = .equal) (body : DerivesTypeBody m ⟨m.moduleName, name.text⟩ tokens e) :
      DerivesDefinition m (keyword :: name :: equal :: tokens) (⟨m.moduleName, name.text⟩, e)
  | synonym {keyword name equal : Token} {tokens : List Token} {e : TypeExpr}
      (isKeyword : IsKeyword "alias" keyword) (declared : DeclaresName m name)
      (isEqual : equal.kind = .equal) (body : DerivesSignature m tokens e) :
      DerivesDefinition m (keyword :: name :: equal :: tokens) (⟨m.moduleName, name.text⟩, e)
  | enumeration {keyword name equal : Token} {tokens : List Token} {symbols : List Text}
      (enabled : (⟨1, 1, 0⟩ : Version) ≤ m.language) (isKeyword : IsKeyword "enum" keyword)
      (declared : DeclaresName m name) (isEqual : equal.kind = .equal)
      (body : DerivesList .pipe DerivesSymbol tokens symbols) :
      DerivesDefinition m (keyword :: name :: equal :: tokens)
        (⟨m.moduleName, name.text⟩, .enumeration {} ⟨m.moduleName, name.text⟩ symbols)

/-! ## Statements -/

/-- A statement: an import of a path, or a definition with its documentation in front. -/
inductive DerivesStatement (m : Metadata) : List Token → Statement → Prop where
  | imports {keyword : Token} {tokens : List Token} {parts : List Text}
      (isKeyword : IsKeyword "import" keyword) (path : DerivesPath tokens parts) :
      DerivesStatement m (keyword :: tokens) (.imports {} (dotted parts))
  | defines {doc tokens : List Token} {text : Option Text} {name : QualifiedName} {e : TypeExpr}
      (documented : DerivesDoc doc text) (definition : DerivesDefinition m tokens (name, e)) :
      DerivesStatement m (doc ++ tokens) (.defines ⟨{}, name, text, e⟩)

/-- A module body: statements one after the other. -/
inductive DerivesBody (m : Metadata) : List Token → List Statement → Prop where
  | nil : DerivesBody m [] []
  | cons {tokens rest : List Token} {s : Statement} {statements : List Statement}
      (one : DerivesStatement m tokens s) (more : DerivesBody m rest statements) :
      DerivesBody m (tokens ++ rest) (s :: statements)

end ThetaSchema
