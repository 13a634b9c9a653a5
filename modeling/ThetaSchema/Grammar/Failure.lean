import ThetaSchema.Error
import ThetaSchema.Token.Basic

/-!
# Rejections

Why a reader of tokens rejects its input.  A rejection keeps its cause as data and the tokens from the
offending one on, so that it tells where it happened, which token is at fault and how much input is left
from there.

Main definitions:

- `Expectation`: what a reader is looking for.
- `Cause`, `Failure`: why and where the input is rejected.
- `Failure.message`: the one place where the wording is fixed.
- `Failure.diagnostic`: the report on a rejection.
-/

namespace ThetaSchema

/-! ## Causes -/

/-- What can carry a declared name. -/
inductive Declared where
  | type
  | synonym
  | enumeration
  | variantCase
  deriving DecidableEq, Repr

/-- The words that messages use for what carries a declared name. -/
def Declared.describe : Declared → Text
  | type => "type"
  | synonym => "alias"
  | enumeration => "enum"
  | variantCase => "variant case"

/-- What can carry documentation. -/
inductive Documented where
  | definition
  | field
  | variantCase
  deriving DecidableEq, Repr

/-- The words that messages use for what carries documentation. -/
def Documented.describe : Documented → Text
  | definition => "definition"
  | field => "field"
  | variantCase => "variant case"

/-- What a reader is looking for. -/
inductive Expectation where
  | metadataKey
  | colonAfterKey (key : Text)
  | versionAfterKey (key : Text)
  | definition
  | declaredName (what : Declared)
  | equalAfterName (what : Declared)
  | enumSymbol
  | fieldName
  | colonAfterField (name : Text)
  | fieldEnd
  | type
  | arrayEnd
  | mapEnd
  | fixedSize
  | fixedEnd
  | identifier
  | identifierAfterDot
  | endOfInput
  deriving DecidableEq, Repr

/-- The words that messages use for what a reader is looking for. -/
def Expectation.describe : Expectation → Text
  | metadataKey => "a metadata key such as 'language-version'"
  | colonAfterKey key => "':' after metadata key " ++ Text.quoted key
  | versionAfterKey key => "a version after '" ++ key ++ ":'"
  | definition => "a definition ('type', 'alias' or 'enum')"
  | declaredName what => "a " ++ what.describe ++ " name"
  | equalAfterName what => "'=' after the " ++ what.describe ++ " name"
  | enumSymbol => "an enum symbol"
  | fieldName => "a field name"
  | colonAfterField name => "':' after field name " ++ Text.quoted name
  | fieldEnd => "',' or '\x7d' after a field"
  | type => "a type"
  | arrayEnd => "']' to close the array type"
  | mapEnd => "'\x7d' to close the map type"
  | fixedSize => "a non-negative integer size"
  | fixedEnd => "')' after the fixed size"
  | identifier => "an identifier"
  | identifierAfterDot => "an identifier after '.'"
  | endOfInput => "end of input"

/-- Why a reader rejects its input. -/
inductive Cause where
  /-- Another token stands where something is expected. -/
  | unexpected (expected : Expectation)
  /-- The input ends inside a header. -/
  | unfinishedHeader
  /-- A header has a key that it may not have. -/
  | unknownKey (key : Text)
  /-- A header sets the same version twice. -/
  | duplicateKey (key : Text)
  /-- A header gives a number that is no version. -/
  | malformedVersion (text : Text)
  /-- The separator shares its line with another token. -/
  | crowdedSeparator
  /-- A header lacks a version. -/
  | missingKey (key : Text)
  /-- Documentation stands in front of something that cannot carry it. -/
  | strayDocumentation (carrier : Documented)
  /-- A declared name is a reserved word of the language version. -/
  | reservedWord (word : Text) (language : Version) (what : Declared)
  /-- The keyword of a fixed type lacks its size. -/
  | missingSize
  /-- The size of a fixed type does not fit 64 bits. -/
  | sizeOutOfRange (text : Text)
  /-- The language version lacks the construct. -/
  | unavailable (mismatch : VersionMismatch)
  deriving DecidableEq, Repr

/-- A rejection: the tokens from the offending one on, none at the end of the input, and the cause. -/
structure Failure where
  site : List Token
  cause : Cause
  deriving DecidableEq, Repr

namespace Failure

/-- The message when something else than expected is found. -/
def unexpectedMessage (expected : Expectation) (found : Option Token) : Text :=
  match found with
  | none => "expected " ++ expected.describe ++ ", found " ++ TokenKind.endOfInput.describe
  | some t =>
    match t.kind with
    | .unterminatedComment => "unterminated block comment"
    | .invalid => "unexpected character " ++ Text.quoted t.text
    | _ => "expected " ++ expected.describe ++ ", found " ++ t.describe

/-- The message about a rejection. -/
def message (f : Failure) : Text :=
  match f.cause with
  | .unexpected expected => unexpectedMessage expected f.site.head?
  | .unfinishedHeader => "expected '---' to end the metadata block"
  | .unknownKey key => "unknown metadata key " ++ Text.quoted key
  | .duplicateKey key => "duplicate metadata key " ++ Text.quoted key
  | .malformedVersion text =>
    "malformed version " ++ Text.quoted text ++ ": expected major.minor.patch"
  | .crowdedSeparator => "'---' must be on a line of its own"
  | .missingKey key => "missing required metadata key " ++ Text.quoted key
  | .strayDocumentation carrier =>
    "documentation comment must be followed by a " ++ carrier.describe
  | .reservedWord word language what =>
    Text.quoted word ++ " is a reserved word in language-version " ++ language.render ++
      " and cannot name a " ++ what.describe
  | .missingSize => "expected '(' after " ++ Text.quoted Feature.fixed.keyword
  | .sizeOutOfRange text => "fixed size " ++ Text.quoted text ++ " is out of range"
  | .unavailable mismatch => mismatch.message

/-- The version mismatch behind a rejection, if there is one. -/
def mismatch? (f : Failure) : Option VersionMismatch :=
  match f.cause with
  | .unavailable mismatch => some mismatch
  | _ => none

/-- The offending token: the first one of the site, or the end mark. -/
def token (stop : Token) (f : Failure) : Token :=
  f.site.head?.getD stop

/-- The diagnostic about a rejection: it covers the offending token, and at least one byte. -/
def diagnostic (stop : Token) (f : Failure) : Diagnostic :=
  ⟨.error, (f.token stop).location, f.message, (max 1 (f.token stop).text.length).toUInt32⟩

end Failure

end ThetaSchema
