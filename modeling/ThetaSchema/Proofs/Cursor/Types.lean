import ThetaSchema.Proofs.Cursor.Reading

/-!
# Types read with a cursor

Paths and type expressions as a cursor reads them.  Paths loop over the dots that touch, and the element of
an array or a map is a type expression again; the number of tokens that are left goes down with each turn
and each nesting, which is why both come to an end.

Main definitions:

- `Reading.path`: dotted paths.
- `Reading.atom`, `Reading.type`: type expressions.

Main results:

- `Meets.path`, `Meets.type`: a cursor reads what the readers of tokens read.
-/

namespace ThetaSchema

namespace Reading

/-! ## Paths -/

/-- Whether the cursor stands on a token of a kind that touches a given one. -/
def isTouching (kind : TokenKind) (before : Token) : Reading Bool :=
  isNextAnd kind do return before.adjacentTo (← current)

/-- Whether the cursor stands on a token of a kind that touches the one behind the cursor. -/
def isAttached (kind : TokenKind) : Reading Bool :=
  isNextAnd kind do return (← previous).adjacentTo (← current)

/-- Reads the part of a path behind the identifier that the cursor has passed. -/
def pathTail : Reading (List Text) :=
  loop fun again => do
    if ← isAttached .dot then
      let dot ← advance
      if ← isTouching .identifier dot then
        let part ← advance
        let others ← again
        return part.text :: others
      else unexpected .identifierAfterDot
    else return []

/-- Reads a path, as its first identifier and the others. -/
def path : Reading (Text × List Text) := do
  let first ← expect .identifier .identifier
  let others ← pathTail
  return (first.text, others)

/-! ## Types -/

/-- Reads a fixed type, from its keyword on. -/
def fixedSize : Reading TypeExpr := do
  let keyword ← advance
  let _ ← advance
  let size ← expect .integer .fixedSize
  match Decimal.read? UInt64.size size.text with
  | none => blame size (.sizeOutOfRange size.text)
  | some n =>
    let _ ← expect .parenClose .fixedEnd
    return .fixed keyword.location n.toUInt64

/-- Reads a primitive type or a reference that starts with the identifier `first`, on which the cursor
stands. -/
def plainName (m : Metadata) (first : Token) : Reading TypeExpr := do
  match Primitive.ofKeyword? m.language first.text with
  | some kind =>
    let _ ← advance
    return .primitive first.location kind
  | none =>
    let (part, others) ← path
    return .reference first.location (.ofPath m.moduleName part others)

/-- Reads an atom that starts with the identifier `first`, on which the cursor stands. -/
def named (m : Metadata) (first : Token) : Reading TypeExpr := do
  if first.text = Feature.fixed.keyword then
    let next ← peek 1
    let sizeNext := next.kind = .parenOpen && first.adjacentTo next
    if Feature.fixed.enabledAt m.language then
      if sizeNext then fixedSize else blame first .missingSize
    else if sizeNext then blame first (.unavailable (.ofFeature .fixed m.language))
    else plainName m first
  else plainName m first

/-- Reads the question mark behind a type, if there is one. -/
def optionalMark (e : TypeExpr) : Reading TypeExpr := do
  if ← isNext .question then
    let _ ← advance
    return .optional e.location e
  else return e

/-- Reads an atom.  The element of an array or a map is an atom again, with a mark or without. -/
def atom (m : Metadata) : Reading TypeExpr :=
  loop fun again => do
    let first ← current
    if ← accept .bracketOpen then
      let element ← again >>= optionalMark
      let _ ← expect .bracketClose .arrayEnd
      return .array first.location element
    else if ← accept .braceOpen then
      let value ← again >>= optionalMark
      let _ ← expect .braceClose .mapEnd
      return .map first.location value
    else if ← isNext .identifier then named m first
    else unexpected .type

/-- Reads a type expression. -/
def type (m : Metadata) : Reading TypeExpr :=
  atom m >>= optionalMark

end Reading

namespace Meets

variable {ts rest : List Token}

/-! ## Paths -/

/-- A look at the next token tells whether it touches a given one. -/
theorem isTouching {kind : TokenKind} (proper : kind ≠ .endOfInput) (before : Token) :
    Meets ts rest (Reading.isTouching kind before)
      (.accepted (rest.head?.any fun t => t.kind = kind && before.adjacentTo t) rest) := by
  refine isNextAnd proper fun t left whole => ?_
  subst whole
  exact current.andThen (pure _)

/-- A look at the next token and a look back tell whether the two touch. -/
theorem isAttached {kind : TokenKind} (proper : kind ≠ .endOfInput) {last : Token}
    (behind : last :: rest <:+ (TokenStream.ofTokens ts).tokens) :
    Meets ts rest (Reading.isAttached kind)
      (.accepted (rest.head?.any fun t => t.kind = kind && last.adjacentTo t) rest) := by
  refine isNextAnd proper fun t left whole => ?_
  subst whole
  exact (previous behind).andThen (current.andThen (pure _))

/-- The loop over the dots of a path. -/
theorem pathTail {last : Token} (behind : last :: rest <:+ (TokenStream.ofTokens ts).tokens) :
    Meets ts rest Reading.pathTail (readPathTail last rest) := by
  -- A turn belongs to the identifier that was passed last.
  refine loopWith (Q := fun _ rest o => ∃ last, last :: rest <:+ (TokenStream.ofTokens ts).tokens ∧
    o = readPathTail last rest) ?_ ⟨last, behind, rfl⟩
  rintro again - rest _ ⟨last, behind, rfl⟩ later
  refine (isAttached (by decide) behind).andThen ?_
  cases rest with
  | nil => exact pure []
  | cons dot rest =>
    have inside := (List.suffix_cons last _).trans behind
    rw [readPathTail.eq_def]
    dsimp only
    by_cases attached : dot.kind = .dot ∧ last.adjacentTo dot = true
    · rw [if_pos attached, if_pos (by simpa using attached)]
      refine advance.andThen ((isTouching (by decide) dot).andThen ?_)
      cases rest with
      | nil => exact unexpected .identifierAfterDot
      | cons next others =>
        dsimp only
        by_cases touches : next.kind = .identifier ∧ dot.adjacentTo next = true
        · rw [if_pos touches, if_pos (by simpa using touches)]
          refine advance.andThen ?_
          have turn := later () others _ ⟨next, (List.suffix_cons dot _).trans inside, rfl⟩
            (by simp only [List.length_cons]; omega)
          exact turn.map (next.text :: ·)
        · rw [if_neg touches, if_neg (by simpa using touches)]
          exact unexpected .identifierAfterDot
    · rw [if_neg attached, if_neg (by simpa using attached)]
      exact pure []

/-- A path is read as its reader reads it. -/
theorem path : Meets ts rest Reading.path (readPath rest) := by
  refine of_part fun part => (expect (by decide) _).bind fun first left accepted => ?_
  have whole := (expect_accepted accepted).1
  exact (pathTail (whole ▸ part)).map (first.text, ·)

/-! ## Types -/

/-- A fixed type whose parenthesis touches its keyword. -/
theorem fixedSize {keyword opening : Token} :
    Meets ts (keyword :: opening :: rest) Reading.fixedSize (readSize keyword.location rest) := by
  refine advance.andThen (advance.andThen ?_)
  refine (expect (by decide) _).bind fun size left accepted => ?_
  have whole := (expect_accepted accepted).1
  cases Decimal.read? UInt64.size size.text with
  | none =>
    subst whole
    exact blame (size :: left) _
  | some n => exact (expect (by decide) .fixedEnd).map fun _ => TypeExpr.fixed keyword.location n.toUInt64

/-- An identifier that starts no fixed type is a primitive type or a reference. -/
theorem plainName (m : Metadata) {first : Token} (isIdentifier : first.kind = .identifier) :
    Meets ts (first :: rest) (Reading.plainName m first) (match Primitive.ofKeyword? m.language first.text with
      | some kind => .accepted (.primitive first.location kind) rest
      | none => readReference m first rest) := by
  unfold Reading.plainName
  cases Primitive.ofKeyword? m.language first.text with
  | some kind => exact advance.andThen (pure _)
  | none =>
    have whole : readReference m first rest = (readPath (first :: rest)).map fun parts =>
        .reference first.location (.ofPath m.moduleName parts.1 parts.2) := by
      rw [readReference, readPath, expect_cons isIdentifier, Outcome.andThen_accepted]
      cases readPathTail first rest <;> rfl
    rw [whole]
    exact path.map _

/-- An identifier is read as its reader reads it, at any version of the language. -/
theorem named (m : Metadata) {first : Token} (isIdentifier : first.kind = .identifier) :
    Meets ts (first :: rest) (Reading.named m first) (readNamed m first rest) := by
  have plain : Meets ts (first :: rest) _ _ := plainName m isIdentifier
  unfold Reading.named readNamed
  by_cases keyword : first.text = Feature.fixed.keyword
  · rw [keyword, ofKeyword?_fixed] at plain
    rw [if_pos keyword, if_pos keyword]
    refine peek_cons.andThen ?_
    have size : (decide ((Token.front ts rest).kind = .parenOpen) && first.adjacentTo (Token.front ts rest)) =
        sizeFollows first rest := by
      cases rest with
      | nil => simp [Token.front, sizeFollows, TokenStream.kind_stop]
      | cons next others => rfl
    dsimp only
    rw [size]
    by_cases enabled : Feature.fixed.enabledAt m.language = true
    · rw [if_pos enabled, if_pos enabled]
      by_cases sized : sizeFollows first rest = true
      · rw [if_pos sized, if_pos sized]
        cases rest with
        | nil => cases sized
        | cons opening others => exact fixedSize
      · rw [if_neg sized, if_neg sized]
        exact blame (first :: rest) _
    · rw [if_neg enabled, if_neg enabled]
      by_cases sized : sizeFollows first rest = true
      · rw [if_pos sized, if_pos sized]
        exact blame (first :: rest) _
      · rw [if_neg sized, if_neg sized]
        exact plain
  · rw [if_neg keyword, if_neg keyword]
    exact plain

/-- A question mark is taken where there is one. -/
theorem optionalMark (e : TypeExpr) : Meets ts rest (Reading.optionalMark e) (readOptionalMark e rest) := by
  refine (isNext (by decide)).andThen ?_
  cases rest with
  | nil => exact pure e
  | cons t others =>
    rw [startsWith_cons, readOptionalMark]
    by_cases isMark : t.kind = .question
    · rw [if_pos (decide_eq_true isMark), if_pos isMark]
      exact advance.andThen (pure _)
    · rw [if_neg (by simpa using isMark), if_neg isMark]
      exact pure e

/-- The atom that a token starts, by the kind of the token. -/
theorem readAtom_cons (m : Metadata) (t : Token) (rest : List Token) :
    readAtom m (t :: rest) =
      if t.kind = .bracketOpen then
        ((readAtom m rest).andThen readOptionalMark).andThen fun element left =>
          (ThetaSchema.expect .bracketClose .arrayEnd left).map fun _ => .array t.location element
      else if t.kind = .braceOpen then
        ((readAtom m rest).andThen readOptionalMark).andThen fun value left =>
          (ThetaSchema.expect .braceClose .mapEnd left).map fun _ => .map t.location value
      else if t.kind = .identifier then readNamed m t rest
      else reject .type (t :: rest) := by
  rw [readAtom.eq_def]
  dsimp only
  split <;> simp_all

/-- The loop over nested atoms. -/
theorem atom (m : Metadata) : Meets ts rest (Reading.atom m) (readAtom m rest) := by
  refine loop (o := readAtom m) fun again rest later => ?_
  refine current.andThen ?_
  cases rest with
  | nil =>
    refine (accept_of_other (by decide) rfl).andThen ((accept_of_other (by decide) rfl).andThen ?_)
    exact (isNext (by decide)).andThen (unexpected .type)
  | cons first rest =>
    have element : Meets ts rest (again >>= Reading.optionalMark)
        ((readAtom m rest).andThen readOptionalMark) :=
      (later rest (Nat.lt_succ_self _)).bind fun e _ _ => optionalMark e
    rw [readAtom_cons]
    by_cases bracket : first.kind = .bracketOpen
    · rw [if_pos bracket]
      refine (accept_of_kind (by decide) bracket).andThen (element.bind fun e left _ => ?_)
      exact (expect (by decide) .arrayEnd).map fun _ => TypeExpr.array first.location e
    rw [if_neg bracket]
    refine (accept_of_other (by decide) (by simpa using bracket)).andThen ?_
    by_cases brace : first.kind = .braceOpen
    · rw [if_pos brace]
      refine (accept_of_kind (by decide) brace).andThen (element.bind fun e left _ => ?_)
      exact (expect (by decide) .mapEnd).map fun _ => TypeExpr.map first.location e
    rw [if_neg brace]
    refine (accept_of_other (by decide) (by simpa using brace)).andThen ((isNext (by decide)).andThen ?_)
    rw [startsWith_cons]
    by_cases isIdentifier : first.kind = .identifier
    · rw [if_pos isIdentifier, if_pos (decide_eq_true isIdentifier)]
      exact named m isIdentifier
    · rw [if_neg isIdentifier, if_neg (by simpa using isIdentifier)]
      exact unexpected .type

/-- A type is read as its reader reads it. -/
theorem type (m : Metadata) : Meets ts rest (Reading.type m) (readType m rest) :=
  (atom m).bind fun e _ _ => optionalMark e

end Meets

end ThetaSchema
