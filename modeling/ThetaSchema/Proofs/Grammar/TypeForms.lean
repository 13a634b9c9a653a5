import ThetaSchema.Proofs.Grammar.Body
import ThetaSchema.Proofs.Grammar.BodyCompleteness
import ThetaSchema.Proofs.Schema.WellFormed
import ThetaSchema.Proofs.Text.Numerals

/-!
# The forms of type expressions

The grammar of type expressions with everything in it spelled out: the keywords of the primitive types and
the language version each of them needs, the reserved words, the numerals that give a size, and the name
that a path refers to.  Nothing here asks what a reader would do, so the grammar can be compared with the
readers.

Main definitions:

- `Primitive.Spelled`, `Reserved`: the keywords of a language version.
- `FormsType`: the tokens of an atom or of a signature.

Main results:

- `derivesType_iff_forms`: the rules of type expressions derive exactly what the grammar forms.
- `type_ok_iff_forms`: a text is read as a type expression exactly when its tokens form one.
-/

namespace ThetaSchema

/-! ## Keywords -/

/-- The keywords of the primitive types; universally unique identifiers exist from language version 1.1.0
on. -/
inductive Primitive.Spelled (language : Version) : Text → Primitive → Prop where
  | bool : Spelled language "Bool" .bool
  | bytes : Spelled language "Bytes" .bytes
  | int : Spelled language "Int" .int
  | long : Spelled language "Long" .long
  | float : Spelled language "Float" .float
  | double : Spelled language "Double" .double
  | string : Spelled language "String" .string
  | date : Spelled language "Date" .date
  | datetime : Spelled language "Datetime" .datetime
  | uuid (enabled : (⟨1, 1, 0⟩ : Version) ≤ language) : Spelled language "UUID" .uuid

/-- The words that name no type of a schema: the keywords of the primitive types and, where they exist, that
of the fixed types. -/
inductive Reserved (language : Version) : Text → Prop where
  | primitive {t : Text} {kind : Primitive} (spelled : Primitive.Spelled language t kind) :
      Reserved language t
  | fixed (enabled : (⟨1, 1, 0⟩ : Version) ≤ language) : Reserved language "Fixed"

/-- Every construct that came later came with language version 1.1.0. -/
theorem Feature.enabledAt_iff (f : Feature) {language : Version} :
    f.enabledAt language = true ↔ (⟨1, 1, 0⟩ : Version) ≤ language := by
  cases f <;> exact decide_eq_true_iff

/-- The table of keywords lists exactly the words that are spelled as primitive types. -/
theorem Primitive.ofKeyword?_eq_some_iff_spelled {language : Version} {t : Text} {kind : Primitive} :
    ofKeyword? language t = some kind ↔ Spelled language t kind := by
  rw [ofKeyword?_eq_some_iff]
  constructor
  · rintro ⟨enabled, rfl⟩
    cases kind with
    | bool => exact .bool
    | bytes => exact .bytes
    | int => exact .int
    | long => exact .long
    | float => exact .float
    | double => exact .double
    | string => exact .string
    | date => exact .date
    | datetime => exact .datetime
    | uuid => exact .uuid (Feature.uuid.enabledAt_iff.mp enabled)
  · intro spelled
    cases spelled with
    | uuid enabled => exact ⟨Feature.uuid.enabledAt_iff.mpr enabled, rfl⟩
    | _ => exact ⟨rfl, rfl⟩

/-- The check of a word decides whether it is reserved. -/
theorem isReservedWord_iff_reserved {language : Version} {t : Text} :
    isReservedWord language t = true ↔ Reserved language t := by
  rw [isReservedWord, Bool.or_eq_true, Option.isSome_iff_exists, Bool.and_eq_true, beq_iff_eq]
  simp only [Primitive.ofKeyword?_eq_some_iff_spelled]
  constructor
  · rintro (⟨kind, spelled⟩ | ⟨enabled, rfl⟩)
    · exact .primitive spelled
    · exact .fixed (Feature.fixed.enabledAt_iff.mp enabled)
  · rintro (spelled | enabled)
    · exact .inl ⟨_, spelled⟩
    · exact .inr ⟨Feature.fixed.enabledAt_iff.mpr enabled, rfl⟩

/-- The check of a word decides whether it is free. -/
theorem isReservedWord_eq_false_iff_not_reserved {language : Version} {t : Text} :
    isReservedWord language t = false ↔ ¬ Reserved language t := by
  rw [← isReservedWord_iff_reserved, Bool.not_eq_true]

/-! ## The grammar -/

/-- The tokens of a type expression of a level and the tree they form, without locations.  A single
identifier refers to the module itself; a longer path is split at its last dot.  The size of a fixed type is
any number of 64 bits. -/
inductive FormsType (m : Metadata) : TypeLevel → List Token → TypeExpr → Prop where
  | primitive {t : Token} {kind : Primitive} (identifier : t.kind = .identifier)
      (spelled : Primitive.Spelled m.language t.text kind) : FormsType m .atom [t] (.primitive {} kind)
  | fixed {t opening size closing : Token} {n : Nat} (enabled : (⟨1, 1, 0⟩ : Version) ≤ m.language)
      (isKeyword : IsKeyword "Fixed" t) (isOpening : opening.kind = .parenOpen)
      (touches : t.adjacentTo opening = true) (isSize : size.kind = .integer)
      (value : Decimal.Denotes size.text n) (fits : n < UInt64.size)
      (isClosing : closing.kind = .parenClose) :
      FormsType m .atom [t, opening, size, closing] (.fixed {} n.toUInt64)
  | array {opening closing : Token} {tokens : List Token} {e : TypeExpr}
      (isOpening : opening.kind = .bracketOpen) (element : FormsType m .signature tokens e)
      (isClosing : closing.kind = .bracketClose) :
      FormsType m .atom (opening :: tokens ++ [closing]) (.array {} e)
  | map {opening closing : Token} {tokens : List Token} {e : TypeExpr}
      (isOpening : opening.kind = .braceOpen) (value : FormsType m .signature tokens e)
      (isClosing : closing.kind = .braceClose) :
      FormsType m .atom (opening :: tokens ++ [closing]) (.map {} e)
  | ownReference {t : Token} (identifier : t.kind = .identifier) (free : ¬ Reserved m.language t.text) :
      FormsType m .atom [t] (.reference {} ⟨m.moduleName, t.text⟩)
  | qualifiedReference {tokens : List Token} {first last : Text} {inner : List Text}
      (path : DerivesPath tokens (first :: inner ++ [last])) (free : ¬ Reserved m.language first) :
      FormsType m .atom tokens (.reference {} ⟨dotted (first :: inner), last⟩)
  | plain {tokens : List Token} {e : TypeExpr} (atom : FormsType m .atom tokens e) :
      FormsType m .signature tokens e
  | optional {tokens : List Token} {mark : Token} {e : TypeExpr} (atom : FormsType m .atom tokens e)
      (isMark : mark.kind = .question) : FormsType m .signature (tokens ++ [mark]) (.optional {} e)

variable {m : Metadata} {level : TypeLevel} {tokens : List Token} {e : TypeExpr}

/-- A path that starts with a free identifier forms the reference that it denotes. -/
theorem DerivesPath.forms {first : Text} {others : List Text} (path : DerivesPath tokens (first :: others))
    (free : ¬ Reserved m.language first) :
    FormsType m .atom tokens (.reference {} (.ofPath m.moduleName first others)) := by
  rcases List.eq_nil_or_concat others with rfl | ⟨inner, last, rfl⟩
  · cases path with
    | single identifier => exact .ownReference identifier free
    | cons _ _ _ _ more => cases more
  · rw [List.concat_eq_append] at path ⊢
    rw [QualifiedName.ofPath_append_singleton]
    exact .qualifiedReference path free

/-- What the grammar of tokens derives has one of the forms. -/
theorem DerivesType.forms (h : DerivesType m level tokens e) : FormsType m level tokens e := by
  induction h with
  | primitive identifier keyword =>
    exact .primitive identifier (Primitive.ofKeyword?_eq_some_iff_spelled.mp keyword)
  | fixed identifier keyword enabled isOpening touches isSize value isClosing =>
    rcases Decimal.read?_eq_some_iff_denotes.mp value with ⟨denotes, below⟩
    exact .fixed (Feature.fixed.enabledAt_iff.mp enabled) ⟨identifier, keyword⟩ isOpening touches isSize
      denotes below isClosing
  | array isOpening _ isClosing ih => exact .array isOpening ih isClosing
  | map isOpening _ isClosing ih => exact .map isOpening ih isClosing
  | reference path free => exact path.forms (isReservedWord_eq_false_iff_not_reserved.mp free)
  | plain _ ih => exact .plain ih
  | optional _ isMark ih => exact .optional ih isMark

/-- What has one of the forms is derived by the grammar of tokens. -/
theorem FormsType.derives (h : FormsType m level tokens e) : DerivesType m level tokens e := by
  induction h with
  | primitive identifier spelled =>
    exact .primitive identifier (Primitive.ofKeyword?_eq_some_iff_spelled.mpr spelled)
  | fixed enabled isKeyword isOpening touches isSize value fits isClosing =>
    have bounded : Decimal.read? UInt64.size _ = some _ :=
      Decimal.read?_eq_some_iff_denotes.mpr ⟨value, fits⟩
    exact .fixed isKeyword.identifier isKeyword.text (Feature.fixed.enabledAt_iff.mpr enabled) isOpening
      touches isSize bounded isClosing
  | array isOpening _ isClosing ih => exact .array isOpening ih isClosing
  | map isOpening _ isClosing ih => exact .map isOpening ih isClosing
  | ownReference identifier free =>
    exact .reference (.single identifier) (isReservedWord_eq_false_iff_not_reserved.mpr free)
  | @qualifiedReference tokens first last inner path free =>
    rw [← QualifiedName.ofPath_append_singleton m.moduleName]
    exact .reference path (isReservedWord_eq_false_iff_not_reserved.mpr free)
  | plain _ ih => exact .plain ih
  | optional _ isMark ih => exact .optional ih isMark

/-- The rules of type expressions derive exactly what the grammar forms. -/
theorem derivesType_iff_forms : DerivesType m level tokens e ↔ FormsType m level tokens e :=
  ⟨DerivesType.forms, FormsType.derives⟩

/-! ## Whole type expressions -/

/-- A whole type expression that is accepted leaves nothing. -/
theorem readLoneType_rest {read : TypeExpr} {rest : List Token}
    (h : readLoneType m tokens = .accepted read rest) : rest = [] := by
  rcases Outcome.andThen_eq_accepted_iff.mp h with ⟨_, _, -, finished⟩
  exact (finish_eq_accepted_iff.mp finished).2.2

/-- A verdict succeeds with exactly what is accepted. -/
theorem Outcome.judge_ok_iff {α : Type} {stop : Token} {result : Outcome α} {a : α} :
    (result.judge stop).outcome = .ok a ↔ ∃ rest, result = .accepted a rest := by
  cases result <;> simp [judge, Logged.succeed]

/-- A whole type expression is read without regard to locations exactly when its tokens form it. -/
theorem readLoneType_ok_iff_forms {stop : Token} :
    (∃ read, ((readLoneType m tokens).judge stop).outcome = .ok read ∧ read.unlocated = e) ↔
      FormsType m .signature tokens e := by
  rw [← derivesType_iff_forms, ← readLoneType_iff]
  simp only [Outcome.judge_ok_iff]
  constructor
  · rintro ⟨read, ⟨rest, accepted⟩, same⟩
    rw [readLoneType_rest accepted] at accepted
    exact ⟨read, accepted, same⟩
  · rintro ⟨read, accepted, same⟩
    exact ⟨read, ⟨[], accepted⟩, same⟩

/-- For every text and every metadata, reading a type expression succeeds with a tree, up to its locations,
exactly when the tokens of the text form the tree; a session that starts on the text and the function that
reads a lone text agree in that. -/
theorem type_ok_iff_forms (m : Metadata) (file text : Text) (e : TypeExpr) :
    ((∃ read, ((Session.start (TokenStream.ofText file text)).type m).2 = .ok read ∧ read.unlocated = e) ↔
      FormsType m .signature (TokenStream.ofText file text).tokens e) ∧
    ((∃ read, (TypeExpr.parse m text).outcome = .ok read ∧ read.unlocated = e) ↔
      FormsType m .signature (TokenStream.ofText inputLabel text).tokens e) := by
  constructor
  · simp only [Session.type, Session.run, Session.remaining_start]
    exact readLoneType_ok_iff_forms
  · exact readLoneType_ok_iff_forms

end ThetaSchema
