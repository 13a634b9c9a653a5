import ThetaSchema.Grammar.Definition

/-!
# The grammar of module bodies

The body of a module is a sequence of imports and definitions.  Documentation belongs to the definition
that follows it and may stand nowhere else.

Main definitions:

- `readStatement`, `readBody`: statements, and all of them up to the end of the input.
- `readLoneDefinition`, `readLoneType`: a definition or a type that makes up the whole input.

Main results:

- `readStatement_accepted`: an accepted statement consumes at least one token.
- `readBody_accepted`: an accepted body consumes its whole input.
-/

namespace ThetaSchema

/-- Whether the next token is an identifier with a given text. -/
def startsWithWord (word : Text) (tokens : List Token) : Bool :=
  tokens.head?.any fun t => t.kind = .identifier && t.text == word

/-- The keyword of imports. -/
def importKeyword : Text :=
  "import"

/-- Reads an import, from its keyword on. -/
def readImport (tokens : List Token) : Outcome Statement :=
  (readPath tokens.tail).map fun (first, others) => .imports (locationOf tokens) (dotted (first :: others))

/-- Whether nothing that documentation can belong to follows it: the input ends, or more documentation
follows. -/
def endsDocumentation (tokens : List Token) : Bool :=
  tokens.isEmpty || startsWith .documentation tokens

/-- Reads a statement. -/
def readStatement (m : Metadata) (tokens : List Token) : Outcome Statement :=
  if startsWith .documentation tokens &&
      (endsDocumentation (afterDoc tokens) || startsWithWord importKeyword (afterDoc tokens)) then
    .rejected ⟨tokens, .strayDocumentation .definition⟩ (afterDoc tokens)
  else if startsWithWord importKeyword (afterDoc tokens) then readImport (afterDoc tokens)
  else (readDefinition m (docOf tokens) (afterDoc tokens)).map .defines

/-- An import is read from the front of the input. -/
theorem readImport_suffix (tokens : List Token) : (readImport tokens).rest <:+ tokens := by
  unfold readImport
  rw [Outcome.rest_map]
  exact (readPath_suffix _).trans (List.tail_suffix _)

/-- A statement is read from the front of the input, with its documentation. -/
theorem readStatement_suffix (m : Metadata) (tokens : List Token) :
    (readStatement m tokens).rest <:+ tokens := by
  unfold readStatement
  have doc := afterDoc_suffix tokens
  repeat' split
  · exact doc
  · exact (readImport_suffix _).trans doc
  · rw [Outcome.rest_map]
    exact (readDefinition_suffix _ _ _).trans doc

/-- An accepted import consumes its keyword at least. -/
theorem readImport_accepted {tokens left : List Token} {s : Statement} (word : Text)
    (keyword : startsWithWord word tokens = true) (h : readImport tokens = .accepted s left) :
    left.length < tokens.length := by
  cases tokens with
  | nil => cases keyword
  | cons t rest =>
    have path := readPath_suffix rest
    obtain ⟨_, accepted, -⟩ := Outcome.map_eq_accepted_iff.mp h
    rw [List.tail_cons] at accepted
    rw [accepted] at path
    exact Nat.lt_succ_of_le path.length_le

/-- An accepted statement consumes at least one token. -/
theorem readStatement_accepted {m : Metadata} {tokens left : List Token} {s : Statement}
    (h : readStatement m tokens = .accepted s left) : left.length < tokens.length := by
  have doc := (afterDoc_suffix tokens).length_le
  unfold readStatement at h
  split at h
  · cases h
  · split at h
    · next keyword => exact Nat.lt_of_lt_of_le (readImport_accepted _ keyword h) doc
    · obtain ⟨_, accepted, -⟩ := Outcome.map_eq_accepted_iff.mp h
      exact Nat.lt_of_lt_of_le (readDefinition_accepted accepted) doc

/-- Reads statements up to the end of the input. -/
def readBody (m : Metadata) (tokens : List Token) : Outcome (List Statement) :=
  match tokens with
  | [] => .accepted [] []
  | t :: others =>
    match _h : readStatement m (t :: others) with
    | .rejected f rest => .rejected f rest
    | .accepted s rest => (readBody m rest).map (s :: ·)
termination_by tokens.length
decreasing_by exact readStatement_accepted _h

/-- An accepted body consumes its whole input. -/
theorem readBody_accepted {m : Metadata} {tokens left : List Token} {statements : List Statement}
    (h : readBody m tokens = .accepted statements left) : left = [] := by
  fun_induction readBody m tokens generalizing statements with
  | case1 => cases h; rfl
  | case2 => cases h
  | case3 t others s rest _ ih =>
    obtain ⟨_, accepted, -⟩ := Outcome.map_eq_accepted_iff.mp h
    exact ih accepted

/-! ## Definitions and types on their own -/

/-- Accepts a value if the input ends behind it. -/
def finish (a : α) (tokens : List Token) : Outcome α :=
  if tokens.isEmpty then .accepted a []
  else if startsWith .documentation tokens then
    .rejected ⟨tokens, .strayDocumentation .definition⟩ tokens
  else reject .endOfInput tokens

/-- Reads a definition that makes up the whole input. -/
def readLoneDefinition (m : Metadata) (tokens : List Token) : Outcome Definition :=
  if startsWith .documentation tokens && endsDocumentation (afterDoc tokens) then
    .rejected ⟨tokens, .strayDocumentation .definition⟩ (afterDoc tokens)
  else (readDefinition m (docOf tokens) (afterDoc tokens)).andThen finish

/-- Reads a type expression that makes up the whole input. -/
def readLoneType (m : Metadata) (tokens : List Token) : Outcome TypeExpr :=
  (readType m tokens).andThen finish

end ThetaSchema
