import ThetaSchema.Grammar.Module

/-!
# Reading sessions

A session reads one part after another from the same tokens, and goes on after a rejection where the
reader stopped.  It keeps how many tokens are consumed and every report so far.

Main definitions:

- `Session.run`: one reader applied to the tokens that remain.
- `Session.header`, `Session.body`, `Session.definition`, `Session.type`: the readers of the grammar.
-/

namespace ThetaSchema

/-- Tokens of which a front part is consumed, and the reports so far. -/
structure Session where
  stream : TokenStream
  cursor : Nat := 0
  log : Log := []
  deriving Repr

namespace Session

/-- A session at the start of its tokens. -/
def start (stream : TokenStream) : Session :=
  { stream }

/-- The tokens that are not consumed yet. -/
def remaining (s : Session) : List Token :=
  s.stream.tokens.drop s.cursor

/-- The token that was consumed last. -/
def previous? (s : Session) : Option Token :=
  (s.stream.tokens.take s.cursor).getLast?

/-- Applies a reader to the tokens that remain. -/
def run (read : List Token → Outcome α) (s : Session) : Session × Except SchemaError α :=
  let result := read s.remaining
  let verdict := result.judge s.stream.stop
  ({ s with cursor := s.stream.tokens.length - result.rest.length, log := s.log ++ verdict.log },
    verdict.outcome)

/-- Reads a header. -/
def header (moduleName : Text) (s : Session) : Session × Except SchemaError Metadata :=
  s.run (readHeader s.previous? moduleName)

/-- Reads statements up to the end of the input. -/
def body (m : Metadata) : Session → Session × Except SchemaError (List Statement) :=
  run (readBody m)

/-- Reads a definition that has to be the last thing in the input. -/
def definition (m : Metadata) : Session → Session × Except SchemaError Definition :=
  run (readLoneDefinition m)

/-- Reads a type expression that has to be the last thing in the input. -/
def type (m : Metadata) : Session → Session × Except SchemaError TypeExpr :=
  run (readLoneType m)

end Session

end ThetaSchema
