/-!
# Byte texts

Schema source, messages and names are sequences of bytes.  Letters, digits and blanks are the ASCII
ones, and every column and offset counts bytes, so no decoding takes place anywhere.

Main definitions:

- `Text`: a list of bytes, with string literals read as their UTF-8 bytes.
- `Byte.isDigit`, `Byte.isIdentifierStart`, `Byte.isIdentifierByte`: the classes tokens are made of.
- `Byte.isHorizontal`, `Byte.isBlank`, `Byte.isSpace`: three nested classes of white space.
- `Text.trim`, `Text.trimEnd`: removal of a class of bytes at the ends of a text.
- `Text.lines`, `Text.unlines`, `Text.join`: division into lines and putting together.
-/

namespace ThetaSchema

/-- A text is a sequence of bytes. -/
abbrev Text := List UInt8

/-- The UTF-8 bytes of a string. -/
def Text.ofString (s : String) : Text :=
  s.toList.flatMap String.utf8EncodeChar

instance : Coe String Text := ⟨Text.ofString⟩

/-! ## Bytes with a meaning of their own -/

namespace Byte

abbrev newline : UInt8 := 10
abbrev space : UInt8 := 32
abbrev star : UInt8 := 42
abbrev dash : UInt8 := 45
abbrev dot : UInt8 := 46
abbrev slash : UInt8 := 47

/-- The ASCII digits. -/
def isDigit (b : UInt8) : Bool :=
  48 ≤ b && b ≤ 57

/-- The ASCII letters of either case. -/
def isLetter (b : UInt8) : Bool :=
  (65 ≤ b && b ≤ 90) || (97 ≤ b && b ≤ 122)

/-- The bytes an identifier starts with: a letter or an underscore. -/
def isIdentifierStart (b : UInt8) : Bool :=
  isLetter b || b == 95

/-- The bytes an identifier goes on with: those it starts with, and digits. -/
def isIdentifierByte (b : UInt8) : Bool :=
  isIdentifierStart b || isDigit b

/-- White space inside a line: space, tab and carriage return. -/
def isHorizontal (b : UInt8) : Bool :=
  b == 32 || b == 9 || b == 13

/-- What separates tokens: horizontal white space and newlines. -/
def isBlank (b : UInt8) : Bool :=
  isHorizontal b || b == newline

/-- What is dropped around a whole documentation text: blanks, vertical tabs and form feeds. -/
def isSpace (b : UInt8) : Bool :=
  isBlank b || b == 11 || b == 12

end Byte

/-! ## Ends of a text -/

namespace Text

/-- Drops the bytes of a class at the end of a text. -/
def trimEnd (p : UInt8 → Bool) (t : Text) : Text :=
  (t.reverse.dropWhile p).reverse

/-- Drops the bytes of a class at both ends of a text. -/
def trim (p : UInt8 → Bool) (t : Text) : Text :=
  trimEnd p (t.dropWhile p)

/-- The lines of a text: what stands between its newlines, so at least one line. -/
def lines (t : Text) : List Text :=
  t.splitOn Byte.newline

/-- Lines put together with a newline between neighbours. -/
def unlines (ls : List Text) : Text :=
  List.intercalate [Byte.newline] ls

/-- Parts put together with a separator between neighbours. -/
def join (separator : Text) (parts : List Text) : Text :=
  List.intercalate separator parts

/-- A text that is there only under a condition. -/
def onlyIf (condition : Bool) (t : Text) : Text :=
  if condition then t else []

/-- A text between single quotes. -/
def quoted (t : Text) : Text :=
  "'" ++ t ++ "'"

end Text

end ThetaSchema
