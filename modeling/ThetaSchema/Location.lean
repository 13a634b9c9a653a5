import ThetaSchema.Text.Decimal

/-!
# Source locations

A location names a file, a line and a column.  Lines and columns start at one, count bytes, and are
32-bit numbers.
-/

namespace ThetaSchema

/-- A place in a source file. -/
structure Location where
  file : Text := []
  line : UInt32 := 1
  column : UInt32 := 1
  deriving DecidableEq, Repr

/-- The written form of a location, `file:line:column`; a nameless file is written `<input>`. -/
def Location.render (l : Location) : Text :=
  (if l.file = [] then ("<input>" : Text) else l.file) ++ ":" ++ Decimal.render l.line.toNat ++ ":" ++
    Decimal.render l.column.toNat

end ThetaSchema
