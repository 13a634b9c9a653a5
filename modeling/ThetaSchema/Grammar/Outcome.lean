import ThetaSchema.Grammar.Failure

/-!
# Outcomes of reading tokens

A reader takes the tokens from some point on and either accepts a part of them or rejects them.  In both
cases it says which tokens it has left, so what was read is always a front part of the input.

Main definitions:

- `Outcome`: acceptance or rejection, with the tokens that are left.
- `Outcome.andThen`: one reader after another.
- `expect`: the reader of one token of a given kind.

Main results:

- `Outcome.andThen_eq_accepted_iff`: a sequence of readers accepts exactly when each of them does.
- `Outcome.andThen_suffix`: a sequence of readers leaves a part of the input if each of them does.
-/

namespace ThetaSchema

/-- What a reader makes of the tokens it is given. -/
inductive Outcome (α : Type) where
  | accepted (value : α) (rest : List Token)
  | rejected (failure : Failure) (rest : List Token)
  deriving Repr

namespace Outcome

/-- The tokens that are left. -/
def rest : Outcome α → List Token
  | accepted _ rest => rest
  | rejected _ rest => rest

/-- Goes on with another reader after an acceptance. -/
def andThen (o : Outcome α) (next : α → List Token → Outcome β) : Outcome β :=
  match o with
  | accepted a rest => next a rest
  | rejected f rest => rejected f rest

/-- Changes the accepted value. -/
def map (g : α → β) (o : Outcome α) : Outcome β :=
  o.andThen fun a rest => accepted (g a) rest

@[simp]
theorem rest_accepted (a : α) (rest : List Token) : (accepted a rest).rest = rest := rfl

@[simp]
theorem rest_rejected (f : Failure) (rest : List Token) : (rejected f rest : Outcome α).rest = rest := rfl

/-- Behind an accepted value the next reader goes on. -/
@[simp]
theorem andThen_accepted (a : α) (rest : List Token) (next : α → List Token → Outcome β) :
    (accepted a rest).andThen next = next a rest := rfl

/-- Behind a rejection no other reader is asked. -/
@[simp]
theorem andThen_rejected (f : Failure) (rest : List Token) (next : α → List Token → Outcome β) :
    (rejected f rest : Outcome α).andThen next = rejected f rest := rfl

@[simp]
theorem map_accepted (g : α → β) (a : α) (rest : List Token) :
    (accepted a rest).map g = accepted (g a) rest := rfl

@[simp]
theorem map_rejected (g : α → β) (f : Failure) (rest : List Token) :
    (rejected f rest : Outcome α).map g = rejected f rest := rfl

/-- What is left does not depend on what becomes of the value. -/
@[simp]
theorem rest_map (g : α → β) (o : Outcome α) : (o.map g).rest = o.rest := by
  cases o <;> rfl

/-- A sequence of readers accepts exactly when each of them does. -/
theorem andThen_eq_accepted_iff {o : Outcome α} {next : α → List Token → Outcome β} {b : β}
    {rest : List Token} :
    o.andThen next = accepted b rest ↔ ∃ a mid, o = accepted a mid ∧ next a mid = accepted b rest := by
  cases o with
  | accepted a mid =>
    constructor
    · exact fun h => ⟨a, mid, rfl, h⟩
    · rintro ⟨_, _, ⟨⟩, h⟩
      exact h
  | rejected f mid => simp

/-- Changing the value does not change what is accepted. -/
theorem map_eq_accepted_iff {o : Outcome α} {g : α → β} {b : β} {rest : List Token} :
    o.map g = accepted b rest ↔ ∃ a, o = accepted a rest ∧ g a = b := by
  cases o with
  | accepted a left =>
    simp only [map_accepted, accepted.injEq]
    constructor
    · rintro ⟨value, rfl⟩
      exact ⟨a, ⟨rfl, rfl⟩, value⟩
    · rintro ⟨_, ⟨rfl, rfl⟩, value⟩
      exact ⟨value, rfl⟩
  | rejected f left => simp

end Outcome

/-! ## Single tokens -/

/-- Rejects the tokens because something else is expected. -/
def reject (expected : Expectation) (tokens : List Token) : Outcome α :=
  .rejected ⟨tokens, .unexpected expected⟩ tokens

/-- Reads one token of a kind. -/
def expect (kind : TokenKind) (expected : Expectation) (tokens : List Token) : Outcome Token :=
  match tokens with
  | [] => reject expected []
  | t :: rest => if t.kind = kind then .accepted t rest else reject expected (t :: rest)

/-- Whether the next token is of a kind. -/
def startsWith (kind : TokenKind) (tokens : List Token) : Bool :=
  tokens.head?.any (·.kind = kind)

/-- The documentation in front of something, if there is any. -/
def docOf (tokens : List Token) : Option Text :=
  tokens.head?.bind fun t => if t.kind = .documentation then some t.text else none

/-- The tokens behind the documentation in front of something. -/
def afterDoc (tokens : List Token) : List Token :=
  if startsWith .documentation tokens then tokens.tail else tokens

@[simp]
theorem rest_reject (expected : Expectation) (tokens : List Token) :
    (reject expected tokens : Outcome α).rest = tokens := rfl

/-- An expected token is taken from the front of the input. -/
theorem expect_suffix (kind : TokenKind) (expected : Expectation) (tokens : List Token) :
    (expect kind expected tokens).rest <:+ tokens := by
  unfold expect
  split
  · exact List.suffix_rfl
  · split
    · exact List.suffix_cons _ _
    · exact List.suffix_rfl

/-- Documentation is skipped at the front of the input. -/
theorem afterDoc_suffix (tokens : List Token) : afterDoc tokens <:+ tokens := by
  unfold afterDoc
  split
  · exact List.tail_suffix _
  · exact List.suffix_rfl

/-- A sequence of readers leaves a part of the input if each of them does. -/
theorem Outcome.andThen_suffix {o : Outcome α} {next : α → List Token → Outcome β} {tokens : List Token}
    (first : o.rest <:+ tokens) (second : ∀ a rest, o = .accepted a rest → (next a rest).rest <:+ rest) :
    (o.andThen next).rest <:+ tokens := by
  cases o with
  | accepted a rest => exact (second a rest rfl).trans first
  | rejected f rest => exact first

end ThetaSchema
