import ThetaSchema.Token.Lexeme

/-!
# From text to tokens

A text is cut into lexemes, and those that are tokens get the position of their first byte, counted over
all bytes before it, whether they belong to tokens or not.

Main definitions:

- `Position.advance`: the position behind a stretch of bytes.
- `Lexeme.ofText`: the lexemes of a text.
- `Token.ofText`: the tokens of a text, ended by the end of input.

Main results:

- `Lexeme.flatMap_extent_ofText`: the lexemes of a text make up the text.
-/

namespace ThetaSchema

/-- A position in a text: line and column start at one, the offset at zero. -/
structure Position where
  line : UInt32 := 1
  column : UInt32 := 1
  offset : UInt64 := 0
  deriving DecidableEq, Repr

namespace Position

/-- The position behind one byte. -/
def next (p : Position) (b : UInt8) : Position :=
  if b = Byte.newline then ⟨p.line + 1, 1, p.offset + 1⟩ else ⟨p.line, p.column + 1, p.offset + 1⟩

/-- The position behind a stretch of bytes. -/
def advance (p : Position) (t : Text) : Position :=
  t.foldl next p

@[simp]
theorem advance_nil (p : Position) : p.advance [] = p := rfl

@[simp]
theorem advance_append (p : Position) (s t : Text) : p.advance (s ++ t) = (p.advance s).advance t :=
  List.foldl_append

end Position

/-! ## Lexemes of a text -/

namespace Lexeme

/-- The lexemes of a text, one after the other. -/
def ofText (t : Text) : List Lexeme :=
  match t with
  | [] => []
  | b :: rest => read b rest :: ofText (read b rest).rest
termination_by t.length
decreasing_by exact read_rest_length_lt b rest

/-- The lexemes of a text make up the text. -/
theorem flatMap_extent_ofText (t : Text) : (ofText t).flatMap extent = t := by
  fun_induction ofText t with
  | case1 => rfl
  | case2 b rest ih => rw [List.flatMap_cons, ih, read_extent_append_rest]

end Lexeme

/-! ## Tokens of a text -/

namespace Token

/-- A token of a file at a position. -/
def place (file : Text) (p : Position) (kind : TokenKind) (text : Text) : Token :=
  ⟨kind, text, ⟨file, p.line, p.column⟩, p.offset⟩

/-- The tokens among lexemes that start at a position, and the end of input behind them. -/
def placeAll (file : Text) (p : Position) : List Lexeme → List Token
  | [] => [place file p .endOfInput []]
  | l :: others =>
    match l.token? with
    | some (kind, text) => place file p kind text :: placeAll file (p.advance l.extent) others
    | none => placeAll file (p.advance l.extent) others

/-- The tokens of a text, ended by the end of input. -/
def ofText (file t : Text) : List Token :=
  placeAll file {} (Lexeme.ofText t)

end Token

/-- The stream of the tokens of a text. -/
def TokenStream.ofText (file t : Text) : TokenStream :=
  TokenStream.ofTokens (Token.ofText file t)

end ThetaSchema
