import ThetaSchema.Proofs.Cursor.Types
import ThetaSchema.Proofs.Grammar.Sequences

/-!
# Definitions read with a cursor

Fields, cases and enumerations as a cursor reads them, and the definitions around them.  Blocks of fields,
cases and symbols are loops that pass at least one token in each turn.  What stands behind the equals sign
is decided by looking up to two tokens ahead.

Main definitions:

- `Reading.fieldBlock`, `Reading.case`, `Reading.symbol`: the parts of records, variants and enumerations.
- `Reading.barred`: items with bars between them.
- `Reading.definition`: a definition behind its documentation.

Main results:

- `Meets.fields`, `Meets.barred`: the loops read the lists that the readers of tokens read.
- `Meets.definition`: a cursor reads the definitions that the readers of tokens read.
-/

namespace ThetaSchema

namespace Reading

/-- Reads the name of what is being declared. -/
def declaredName (m : Metadata) (what : Declared) : Reading QualifiedName := do
  let t ← expect .identifier (.declaredName what)
  if isReservedWord m.language t.text then blame t (.reservedWord t.text m.language what)
  else return ⟨m.moduleName, t.text⟩

/-! ## Fields and cases -/

/-- Reads a field. -/
def field (m : Metadata) : Reading RecordField := do
  let docToken ← current
  let doc ← documentation
  if ← isNext .identifier then
    let name ← advance
    let _ ← expect .colon (.colonAfterField name.text)
    let fieldType ← type m
    return ⟨name.location, name.text, doc, fieldType⟩
  else if doc.isSome then blame docToken (.strayDocumentation .field)
  else unexpected .fieldName

/-- Reads fields up to and with the closing brace. -/
def fields (m : Metadata) : Reading (List RecordField) :=
  loop fun again => do
    let first ← field m
    if ← accept .comma then
      let others ← again
      return first :: others
    else if ← accept .braceClose then return [first]
    else unexpected .fieldEnd

/-- Reads a block of fields, from its opening brace on. -/
def fieldBlock (m : Metadata) : Reading (List RecordField) := do
  let _ ← advance
  if ← accept .braceClose then return [] else fields m

/-- Reads a case behind its documentation. -/
def bareCase (m : Metadata) (doc : Option Text) : Reading VariantCase := do
  let first ← current
  let name ← declaredName m .variantCase
  if ← isNext .braceOpen then
    let block ← fieldBlock m
    return ⟨first.location, name, doc, block⟩
  else return ⟨first.location, name, doc, []⟩

/-- Reads a case. -/
def case (m : Metadata) : Reading VariantCase := do
  let docToken ← current
  let doc ← documentation
  if doc.isSome then
    if ← isNext .identifier then bareCase m doc
    else blame docToken (.strayDocumentation .variantCase)
  else bareCase m doc

/-- Reads items with bars between them. -/
def barred (item : Reading α) : Reading (List α) :=
  loop fun again => do
    let first ← item
    if ← accept .pipe then
      let others ← again
      return first :: others
    else return [first]

/-- Reads the symbol of an enumeration. -/
def symbol : Reading Text := do
  return (← expect .identifier .enumSymbol).text

/-! ## Bodies -/

/-- Looks whether a record starts where the cursor stands. -/
def recordAhead : Reading Bool := do
  if ← isNext .braceOpen then
    let next ← peek 1
    if next.kind = .braceClose ∨ next.kind = .documentation then return true
    else if next.kind = .identifier then return (← peek 2).kind = .colon
    else return false
  else return false

/-- Looks whether a variant starts where the cursor stands. -/
def variantAhead : Reading Bool := do
  if ← isNext .documentation then return true
  else
    let next ← peek 1
    if ← isNext .identifier then return next.kind = .braceOpen || next.kind = .pipe else return false

/-- Reads what stands behind the equals sign of a record, a variant or a newtype. -/
def typeBody (m : Metadata) (name : QualifiedName) : Reading TypeExpr := do
  if ← recordAhead then
    let first ← current
    let block ← fieldBlock m
    return .record first.location name block
  else if ← variantAhead then
    let first ← current
    let cases ← barred (case m)
    return .variant first.location name cases
  else
    let underlying ← type m
    return .newtype underlying.location name underlying

/-- Reads what stands behind the equals sign of an enumeration. -/
def enumBody (name : QualifiedName) : Reading TypeExpr := do
  let first ← current
  let symbols ← barred symbol
  return .enumeration first.location name symbols

/-! ## Definitions -/

/-- Reads a declaration, from its keyword on. -/
def declaration (m : Metadata) (what : Declared) (body : QualifiedName → Reading TypeExpr) :
    Reading (QualifiedName × TypeExpr) := do
  let _ ← advance
  let name ← declaredName m what
  let _ ← expect .equal (.equalAfterName what)
  let type ← body name
  return (name, type)

/-- Reads the declaration that the identifier `keyword` starts, on which the cursor stands. -/
def keyword (m : Metadata) (keyword : Token) : Reading (QualifiedName × TypeExpr) := do
  if ← isWord "type" then declaration m .type (typeBody m)
  else if ← isWord "alias" then declaration m .synonym fun _ => type m
  else if ← isNext .identifier then
    if Feature.enumeration.enabledAt m.language then
      if keyword.text = Feature.enumeration.keyword then declaration m .enumeration enumBody
      else unexpected .definition
    else if Feature.enumeration.keyword.isPrefixOf keyword.text then
      blame keyword (.unavailable (.ofFeature .enumeration m.language))
    else unexpected .definition
  else unexpected .definition

/-- Reads a definition behind its documentation. -/
def definition (m : Metadata) (doc : Option Text) : Reading Definition := do
  let first ← current
  let (name, type) ← keyword m first
  return ⟨first.location, name, doc, type⟩

end Reading

namespace Meets

variable {ts rest : List Token}

/-- A declared name is read as its reader reads it, and blamed where it is reserved. -/
theorem declaredName (m : Metadata) (what : Declared) :
    Meets ts rest (Reading.declaredName m what) (readDeclaredName m what rest) := by
  refine (expect (by decide) _).bind fun t left accepted => ?_
  have whole := (expect_accepted accepted).1
  by_cases reserved : isReservedWord m.language t.text = true
  · rw [if_pos reserved, if_pos reserved]
    subst whole
    exact blame (t :: left) _
  · rw [if_neg reserved, if_neg reserved]
    exact pure _

/-! ## Fields and cases -/

/-- There is documentation in front of tokens where the first one is documentation. -/
theorem isSome_docOf (tokens : List Token) : (docOf tokens).isSome = startsWith .documentation tokens := by
  cases tokens with
  | nil => rfl
  | cons t others => by_cases isDoc : t.kind = .documentation <;> simp [docOf, isDoc]

/-- A field is read as the reader of fields reads it. -/
theorem field (m : Metadata) : Meets ts rest (Reading.field m) (readField m rest) := by
  refine current.andThen (documentation.andThen ((isNext (by decide)).andThen ?_))
  rw [readField, isSome_docOf]
  cases named : startsWith .identifier (afterDoc rest) with
  | true =>
    obtain ⟨name, left, whole, isIdentifier⟩ := exists_cons_of_startsWith named
    rw [whole, expect_cons isIdentifier, Bool.not_true, Bool.and_false]
    refine advance.andThen ((expect (by decide) _).bind fun _ left _ => ?_)
    exact (type m).map _
  | false =>
    cases documented : startsWith .documentation rest with
    | true => exact blame rest _
    | false =>
      rw [expect_of_startsWith_eq_false named]
      exact unexpected .fieldName

/-- The loop over the fields of a block. -/
theorem fields (m : Metadata) : Meets ts rest (Reading.fields m) (readFields m rest) := by
  refine loop (o := readFields m) fun again rest later => ?_
  rw [readFields_eq_andThen]
  refine (field m).bind fun first left accepted => ?_
  have part := (readField_suffix m rest).length_le
  rw [accepted] at part
  cases left with
  | nil =>
    refine (accept_of_other (by decide) rfl).andThen ((accept_of_other (by decide) rfl).andThen ?_)
    exact unexpected .fieldEnd
  | cons t others =>
    dsimp only
    by_cases comma : t.kind = .comma
    · rw [if_pos comma]
      exact (accept_of_kind (by decide) comma).andThen ((later others part).map (first :: ·))
    rw [if_neg comma]
    refine (accept_of_other (by decide) (by simpa using comma)).andThen ?_
    by_cases closes : t.kind = .braceClose
    · rw [if_pos closes]
      exact (accept_of_kind (by decide) closes).andThen (pure [first])
    · rw [if_neg closes]
      exact (accept_of_other (by decide) (by simpa using closes)).andThen (unexpected .fieldEnd)

/-- A block of fields is read as the reader of blocks reads it, with or without fields. -/
theorem fieldBlock (m : Metadata) {brace : Token} :
    Meets ts (brace :: rest) (Reading.fieldBlock m) (readFieldBlock m rest) := by
  refine advance.andThen ?_
  rw [readFieldBlock]
  cases closed : startsWith .braceClose rest with
  | true =>
    obtain ⟨closing, left, rfl, closes⟩ := exists_cons_of_startsWith closed
    exact (accept_of_kind (by decide) closes).andThen (pure [])
  | false => exact (accept_of_other (by decide) closed).andThen (fields m)

/-- A case without its documentation is read as the reader of cases goes on behind documentation. -/
theorem bareCase (m : Metadata) (doc : Option Text) :
    Meets ts rest (Reading.bareCase m doc) ((readDeclaredName m .variantCase rest).andThen fun name left =>
      if startsWith .braceOpen left then
        (readFieldBlock m left.tail).map fun block => ⟨locationOf rest, name, doc, block⟩
      else .accepted ⟨locationOf rest, name, doc, []⟩ left) := by
  refine current.andThen ((declaredName m _).bind fun name left accepted => ?_)
  obtain ⟨first, behind, whole, -⟩ := Outcome.andThen_eq_accepted_iff.mp accepted
  have place : (Token.front ts rest).location = locationOf rest := by
    rw [(expect_accepted whole).1]
    rfl
  rw [place]
  refine (isNext (by decide)).andThen ?_
  cases opened : startsWith .braceOpen left with
  | true =>
    obtain ⟨brace, others, rfl, -⟩ := exists_cons_of_startsWith opened
    exact (fieldBlock m).map _
  | false => exact pure _

/-- A case is read as the reader of cases reads it. -/
theorem case (m : Metadata) : Meets ts rest (Reading.case m) (readCase m rest) := by
  refine current.andThen (documentation.andThen ?_)
  rw [readCase, isSome_docOf]
  cases documented : startsWith .documentation rest with
  | false => exact bareCase m _
  | true =>
    refine (isNext (by decide)).andThen ?_
    cases named : startsWith .identifier (afterDoc rest) with
    | true => exact bareCase m _
    | false => exact blame rest _

/-- The loop over items with bars between them. -/
theorem barred {α : Type} {item : Reading α} {r : List Token → Outcome α}
    {readAll : List Token → Outcome (List α)} (each : ∀ rest, Meets ts rest item (r rest))
    (part : ∀ rest, (r rest).rest <:+ rest)
    (all : ∀ rest, readAll rest = (r rest).andThen fun a left =>
      match left with
      | [] => .accepted [a] []
      | t :: others => if t.kind = .pipe then (readAll others).map (a :: ·) else .accepted [a] (t :: others)) :
    Meets ts rest (Reading.barred item) (readAll rest) := by
  refine loop (o := readAll) fun again rest later => ?_
  rw [all]
  refine (each rest).bind fun a left accepted => ?_
  have fewer := (part rest).length_le
  rw [accepted] at fewer
  cases left with
  | nil => exact (accept_of_other (by decide) rfl).andThen (pure [a])
  | cons t others =>
    dsimp only
    by_cases bar : t.kind = .pipe
    · rw [if_pos bar]
      exact (accept_of_kind (by decide) bar).andThen ((later others fewer).map (a :: ·))
    · rw [if_neg bar]
      exact (accept_of_other (by decide) (by simpa using bar)).andThen (pure [a])

/-- The cases of a variant are read in a loop, one for each bar. -/
theorem cases (m : Metadata) : Meets ts rest (Reading.barred (Reading.case m)) (readCases m rest) :=
  barred (fun _ => case m) (readCase_suffix m) (readCases_eq_andThen m)

/-- The symbols of an enumeration are read in the same loop. -/
theorem symbols : Meets ts rest (Reading.barred Reading.symbol) (readSymbols rest) :=
  barred (r := fun tokens => (ThetaSchema.expect .identifier .enumSymbol tokens).map Token.text)
    (fun _ => (expect (by decide) _).map Token.text)
    (fun tokens => (Outcome.rest_map Token.text _).symm ▸ expect_suffix _ _ tokens) readSymbols_eq_andThen

/-! ## Bodies -/

/-- A record is seen two tokens ahead. -/
theorem recordAhead : Meets ts rest Reading.recordAhead (.accepted (opensRecord rest) rest) := by
  refine (isNext (by decide)).andThen ?_
  rw [opensRecord]
  cases opened : startsWith .braceOpen rest with
  | false => exact pure _
  | true =>
    obtain ⟨brace, left, rfl, -⟩ := exists_cons_of_startsWith opened
    refine peek_cons.andThen ?_
    rw [Bool.true_and, List.tail_cons]
    simp (disch := decide) only [Token.kind_front_iff]
    by_cases marked : startsWith .braceClose left = true ∨ startsWith .documentation left = true
    · rw [if_pos marked, Bool.or_eq_true_iff.mpr marked, Bool.true_or]
      exact pure true
    rw [if_neg marked, Bool.eq_false_iff.mpr (mt Bool.or_eq_true_iff.mp marked), Bool.false_or]
    cases named : startsWith .identifier left with
    | false => exact pure false
    | true =>
      obtain ⟨name, others, rfl, -⟩ := exists_cons_of_startsWith named
      have ahead : Meets ts (brace :: name :: others) (Reading.peek 2)
          (.accepted (Token.front ts others) (brace :: name :: others)) := peek (by simp)
      refine ahead.andThen ?_
      simp (disch := decide) only [Token.kind_front_iff, Bool.decide_eq_true]
      exact pure _

/-- A variant is seen one token ahead. -/
theorem variantAhead : Meets ts rest Reading.variantAhead (.accepted (opensVariant rest) rest) := by
  refine (isNext (by decide)).andThen ?_
  rw [opensVariant]
  cases documented : startsWith .documentation rest with
  | true => exact pure true
  | false =>
    obtain ⟨next, ahead⟩ := exists_peek ts rest 1
    cases rest with
    | nil => exact ahead.andThen ((isNext (by decide)).andThen (pure false))
    | cons t left =>
      refine peek_cons.andThen ((isNext (by decide)).andThen ?_)
      simp (disch := decide) only [Token.kind_front_iff, Bool.decide_eq_true]
      cases named : startsWith .identifier (t :: left) with
      | false => exact pure false
      | true => exact pure _

/-- The cursor looks ahead as far as the reader to tell records, variants and other types apart. -/
theorem typeBody (m : Metadata) (name : QualifiedName) :
    Meets ts rest (Reading.typeBody m name) (readTypeBody m name rest) := by
  refine recordAhead.andThen ?_
  rw [readTypeBody]
  cases record : opensRecord rest with
  | true =>
    obtain ⟨brace, left, rfl, -⟩ := exists_cons_of_startsWith (Bool.and_eq_true_iff.mp record).1
    exact current.andThen ((fieldBlock m).map _)
  | false =>
    refine variantAhead.andThen ?_
    cases variant : opensVariant rest with
    | true =>
      cases rest with
      | nil => cases variant
      | cons t left => exact current.andThen ((cases m).map _)
    | false => exact (type m).map _

/-- The body of an enumeration is read as its reader reads it. -/
theorem enumBody (name : QualifiedName) :
    Meets ts rest (Reading.enumBody name) (readEnumBody name rest) := by
  refine current.andThen (symbols.bind fun list left accepted => ?_)
  cases rest with
  | nil => cases accepted
  | cons t others => exact pure _

/-! ## Definitions -/

/-- A declaration is read as its reader reads it, if this is true of its body. -/
theorem declaration (m : Metadata) (what : Declared) {body : QualifiedName → Reading TypeExpr}
    {r : QualifiedName → List Token → Outcome TypeExpr}
    (each : ∀ name left, Meets ts left (body name) (r name left)) {t : Token} :
    Meets ts (t :: rest) (Reading.declaration m what body) (readDeclaration m what r rest) := by
  refine advance.andThen ((declaredName m what).bind fun name left _ => ?_)
  refine (expect (by decide) _).bind fun _ left _ => ?_
  exact (each name left).map _

/-- The keyword decides for the cursor as for the reader. -/
theorem keyword (m : Metadata) {t : Token} (isIdentifier : t.kind = .identifier) :
    Meets ts (t :: rest) (Reading.keyword m t) (readKeyword m t rest) := by
  have word (w : Text) : startsWithWord w (t :: rest) = true ↔ t.text = w := by
    simp [startsWithWord, isIdentifier]
  unfold Reading.keyword readKeyword
  refine (isWord _).andThen ?_
  by_cases isType : t.text = "type"
  · rw [if_pos ((word _).mpr isType), if_pos isType]
    exact declaration m .type fun name _ => typeBody m name
  rw [if_neg (mt (word _).mp isType), if_neg isType]
  refine (isWord _).andThen ?_
  by_cases isAlias : t.text = "alias"
  · rw [if_pos ((word _).mpr isAlias), if_pos isAlias]
    exact declaration m .synonym fun _ _ => type m
  rw [if_neg (mt (word _).mp isAlias), if_neg isAlias]
  refine (isNext (by decide)).andThen ?_
  rw [startsWith_cons, if_pos (decide_eq_true isIdentifier)]
  by_cases enabled : Feature.enumeration.enabledAt m.language = true
  · rw [if_pos enabled, if_pos enabled]
    by_cases isEnum : t.text = Feature.enumeration.keyword
    · rw [if_pos isEnum, if_pos isEnum]
      exact declaration m .enumeration fun name _ => enumBody name
    · rw [if_neg isEnum, if_neg isEnum]
      exact unexpected .definition
  · rw [if_neg enabled, if_neg enabled]
    by_cases starts : Feature.enumeration.keyword.isPrefixOf t.text = true
    · rw [if_pos starts, if_pos starts]
      exact blame (t :: rest) _
    · rw [if_neg starts, if_neg starts]
      exact unexpected .definition

/-- No declaration starts with anything else than an identifier. -/
theorem keyword_of_other (m : Metadata) (t : Token) (other : startsWith .identifier rest = false) :
    Meets ts rest (Reading.keyword m t) (reject .definition rest) := by
  have noWord (w : Text) : startsWithWord w rest = false := by
    cases rest with
    | nil => rfl
    | cons first left =>
      have ne : ¬ first.kind = .identifier := by simpa using other
      simp [startsWithWord, ne]
  refine (isWord _).andThen ?_
  rw [noWord]
  refine (isWord _).andThen ?_
  rw [noWord]
  refine (isNext (by decide)).andThen ?_
  rw [other]
  exact unexpected .definition

/-- A definition is read as its reader reads it, with the documentation in front. -/
theorem definition (m : Metadata) (doc : Option Text) :
    Meets ts rest (Reading.definition m doc) (readDefinition m doc rest) := by
  refine current.andThen ?_
  cases starts : startsWith .identifier rest with
  | true =>
    obtain ⟨t, left, rfl, isIdentifier⟩ := exists_cons_of_startsWith starts
    rw [readDefinition, if_pos isIdentifier]
    exact (keyword m isIdentifier).bind fun _ _ _ => pure _
  | false =>
    have refused : readDefinition m doc rest = reject .definition rest := by
      cases rest with
      | nil => rfl
      | cons t left => exact if_neg (by simpa using starts)
    rw [refused]
    exact (keyword_of_other m _ starts).rejected

end Meets

end ThetaSchema
