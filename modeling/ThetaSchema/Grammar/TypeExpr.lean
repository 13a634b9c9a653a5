import ThetaSchema.Grammar.Outcome
import ThetaSchema.Schema.Basic

/-!
# The grammar of type expressions

A type expression is an atom with an optional question mark.  Atoms are arrays, maps, primitive types,
fixed types and references; a reference is a path of identifiers whose dots touch their neighbours.

Main definitions:

- `readPath`: dotted paths.
- `readAtom`, `readType`: type expressions, at the language version and module of some metadata.

Main results:

- `readPath_suffix`, `readType_suffix`: what is left is a part of the input.
-/

namespace ThetaSchema

/-! ## Paths -/

/-- Reads the part of a path behind its identifier `last`: dots and identifiers that touch. -/
def readPathTail (last : Token) : List Token → Outcome (List Text)
  | [] => .accepted [] []
  | dot :: rest =>
    if dot.kind = .dot ∧ last.adjacentTo dot then
      match rest with
      | [] => reject .identifierAfterDot []
      | next :: others =>
        if next.kind = .identifier ∧ dot.adjacentTo next then
          (readPathTail next others).map (next.text :: ·)
        else reject .identifierAfterDot (next :: others)
    else .accepted [] (dot :: rest)

/-- Reads a path, as its first identifier and the others. -/
def readPath (tokens : List Token) : Outcome (Text × List Text) :=
  (expect .identifier .identifier tokens).andThen fun first rest =>
    (readPathTail first rest).map (first.text, ·)

/-- The further names of a path are taken from the front of the input. -/
theorem readPathTail_suffix (last : Token) (tokens : List Token) :
    (readPathTail last tokens).rest <:+ tokens := by
  fun_induction readPathTail last tokens with
  | case1 => exact List.suffix_rfl
  | case2 => exact List.suffix_cons _ _
  | case3 last dot _ next others _ ih =>
    rw [Outcome.rest_map]
    exact ih.trans ((List.suffix_cons _ _).trans (List.suffix_cons _ _))
  | case4 => exact List.suffix_cons _ _
  | case5 => exact List.suffix_rfl

/-- A path is read from the front of the input. -/
theorem readPath_suffix (tokens : List Token) : (readPath tokens).rest <:+ tokens := by
  refine Outcome.andThen_suffix (expect_suffix _ _ _) fun first rest _ => ?_
  rw [Outcome.rest_map]
  exact readPathTail_suffix first rest

/-! ## Atoms that start with an identifier -/

/-- Whether an opening parenthesis touches a token. -/
def sizeFollows (t : Token) (rest : List Token) : Bool :=
  rest.head?.any fun next => next.kind = .parenOpen && t.adjacentTo next

/-- Reads the size of a fixed type and the closing parenthesis. -/
def readSize (location : Location) (tokens : List Token) : Outcome TypeExpr :=
  (expect .integer .fixedSize tokens).andThen fun size rest =>
    match Decimal.read? UInt64.size size.text with
    | none => .rejected ⟨tokens, .sizeOutOfRange size.text⟩ rest
    | some n => (expect .parenClose .fixedEnd rest).map fun _ => .fixed location n.toUInt64

/-- Reads a reference that starts with the identifier `first`. -/
def readReference (m : Metadata) (first : Token) (rest : List Token) : Outcome TypeExpr :=
  (readPathTail first rest).map fun others =>
    .reference first.location (.ofPath m.moduleName first.text others)

/-- Reads an atom that starts with the identifier `t`: a fixed type, a primitive type or a reference.
Below the first version with fixed types their keyword is an identifier like any other, but not with a
size. -/
def readNamed (m : Metadata) (t : Token) (rest : List Token) : Outcome TypeExpr :=
  if t.text = Feature.fixed.keyword then
    if Feature.fixed.enabledAt m.language then
      if sizeFollows t rest then readSize t.location rest.tail
      else .rejected ⟨t :: rest, .missingSize⟩ (t :: rest)
    else if sizeFollows t rest then
      .rejected ⟨t :: rest, .unavailable (.ofFeature .fixed m.language)⟩ (t :: rest)
    else readReference m t rest
  else
    match Primitive.ofKeyword? m.language t.text with
    | some kind => .accepted (.primitive t.location kind) rest
    | none => readReference m t rest

/-- A size in parentheses is read from the front of the input. -/
theorem readSize_suffix (location : Location) (tokens : List Token) :
    (readSize location tokens).rest <:+ tokens := by
  refine Outcome.andThen_suffix (expect_suffix _ _ _) fun size rest _ => ?_
  split
  · exact List.suffix_rfl
  · rw [Outcome.rest_map]
    exact expect_suffix _ _ _

/-- A reference takes no more than its path. -/
theorem readReference_suffix (m : Metadata) (first : Token) (rest : List Token) :
    (readReference m first rest).rest <:+ rest := by
  unfold readReference
  rw [Outcome.rest_map]
  exact readPathTail_suffix first rest

/-- Whatever becomes of an atom that starts with an identifier, what is left is a part of the input. -/
theorem readNamed_rest_suffix (m : Metadata) (t : Token) (rest : List Token) :
    (readNamed m t rest).rest <:+ t :: rest := by
  have tail : ∀ {left : List Token}, left <:+ rest → left <:+ t :: rest :=
    fun h => h.trans (List.suffix_cons _ _)
  unfold readNamed
  repeat' split
  · exact tail ((readSize_suffix _ _).trans (List.tail_suffix _))
  · exact List.suffix_rfl
  · exact List.suffix_rfl
  · exact tail (readReference_suffix _ _ _)
  · exact tail List.suffix_rfl
  · exact tail (readReference_suffix _ _ _)

/-! ## Type expressions -/

/-- Reads the question mark behind an atom, if there is one. -/
def readOptionalMark (e : TypeExpr) (tokens : List Token) : Outcome TypeExpr :=
  match tokens with
  | [] => .accepted e []
  | t :: rest => if t.kind = .question then .accepted (.optional e.location e) rest else .accepted e (t :: rest)

/-- Reads an atom. -/
def readAtom (m : Metadata) : List Token → Outcome TypeExpr
  | [] => reject .type []
  | t :: rest =>
    match t.kind with
    | .bracketOpen =>
      ((readAtom m rest).andThen readOptionalMark).andThen fun element left =>
        (expect .bracketClose .arrayEnd left).map fun _ => .array t.location element
    | .braceOpen =>
      ((readAtom m rest).andThen readOptionalMark).andThen fun value left =>
        (expect .braceClose .mapEnd left).map fun _ => .map t.location value
    | .identifier => readNamed m t rest
    | _ => reject .type (t :: rest)

/-- Reads a type expression. -/
def readType (m : Metadata) (tokens : List Token) : Outcome TypeExpr :=
  (readAtom m tokens).andThen readOptionalMark

/-- A question mark is taken from the front of the input, if there is one. -/
theorem readOptionalMark_suffix (e : TypeExpr) (tokens : List Token) :
    (readOptionalMark e tokens).rest <:+ tokens := by
  unfold readOptionalMark
  split
  · exact List.suffix_rfl
  · split
    · exact List.suffix_cons _ _
    · exact List.suffix_rfl

/-- An atom is read from the front of the input, however deep it is. -/
theorem readAtom_suffix (m : Metadata) (tokens : List Token) : (readAtom m tokens).rest <:+ tokens := by
  induction tokens with
  | nil => exact List.suffix_rfl
  | cons t rest ih =>
    have inner := Outcome.andThen_suffix ih fun e left _ => readOptionalMark_suffix e left
    unfold readAtom
    split
    · refine Outcome.andThen_suffix (inner.trans (List.suffix_cons _ _)) fun e left _ => ?_
      rw [Outcome.rest_map]
      exact expect_suffix _ _ _
    · refine Outcome.andThen_suffix (inner.trans (List.suffix_cons _ _)) fun e left _ => ?_
      rw [Outcome.rest_map]
      exact expect_suffix _ _ _
    · exact readNamed_rest_suffix m t rest
    · exact List.suffix_rfl

theorem readType_suffix (m : Metadata) (tokens : List Token) : (readType m tokens).rest <:+ tokens :=
  Outcome.andThen_suffix (readAtom_suffix m tokens) fun e left _ => readOptionalMark_suffix e left

end ThetaSchema
