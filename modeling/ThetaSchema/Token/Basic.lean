import ThetaSchema.Location

/-!
# Tokens

The lexical units of schema source.  A token carries its text, the location of its first byte and the
offset of that byte.

Main definitions:

- `TokenKind`: the kinds of tokens, with the words that messages use for them.
- `Token.adjacentTo`: whether a token starts at the byte where another one ends.
- `TokenStream`: tokens with the token that marks the end of the input.
-/

namespace ThetaSchema

/-- The kinds of tokens. -/
inductive TokenKind where
  | endOfInput
  | identifier
  | integer
  | version
  | documentation
  | separator
  | parenOpen
  | parenClose
  | bracketOpen
  | bracketClose
  | braceOpen
  | braceClose
  | comma
  | dot
  | colon
  | equal
  | pipe
  | question
  | minus
  | unterminatedComment
  | invalid
  deriving DecidableEq, Repr

namespace TokenKind

/-- The words that messages use for a kind of token. -/
def describe : TokenKind → Text
  | endOfInput => "end of input"
  | identifier => "identifier"
  | integer => "integer"
  | version => "version"
  | documentation => "documentation comment"
  | separator => "'---'"
  | parenOpen => "'('"
  | parenClose => "')'"
  | bracketOpen => "'['"
  | bracketClose => "']'"
  | braceOpen => "'\x7b'"
  | braceClose => "'\x7d'"
  | comma => "','"
  | dot => "'.'"
  | colon => "':'"
  | equal => "'='"
  | pipe => "'|'"
  | question => "'?'"
  | minus => "'-'"
  | unterminatedComment => "unterminated comment"
  | invalid => "invalid character"

end TokenKind

/-- A token of schema source. -/
structure Token where
  kind : TokenKind
  text : Text
  location : Location
  offset : UInt64
  deriving DecidableEq, Repr

namespace Token

/-- The offset behind the last byte of a token's text. -/
def limit (t : Token) : UInt64 :=
  t.offset + t.text.length.toUInt64

/-- Whether `next` starts at the byte where `t` ends. -/
def adjacentTo (t next : Token) : Bool :=
  t.limit == next.offset

/-- The words that messages use for a token: identifiers and numbers are quoted. -/
def describe (t : Token) : Text :=
  match t.kind with
  | .identifier | .integer | .version => Text.quoted t.text
  | kind => kind.describe

end Token

/-- The tokens before the end of the input, and the token that marks the end. -/
structure TokenStream where
  tokens : List Token
  stop : Token
  deriving DecidableEq, Repr

namespace TokenStream

/-- The end mark behind the last token of a list that has none. -/
def stopAfter : Option Token → Token
  | none => ⟨.endOfInput, [], {}, 0⟩
  | some last => ⟨.endOfInput, [], last.location, last.limit⟩

/-- Reads a list of tokens up to its first end mark; where there is none, the end is behind the last
token. -/
def ofTokens (ts : List Token) : TokenStream :=
  match ts.dropWhile (·.kind ≠ .endOfInput) with
  | stop :: _ => ⟨ts.takeWhile (·.kind ≠ .endOfInput), stop⟩
  | [] => ⟨ts, stopAfter ts.getLast?⟩

end TokenStream

end ThetaSchema
