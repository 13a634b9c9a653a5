import ThetaSchema.Text.Basic

/-!
# Names

An identifier is a letter or underscore followed by letters, digits and underscores.  A module name is a
sequence of identifiers with a dot between neighbours, and a qualified name is a local name in a module.
-/

namespace ThetaSchema

/-- Whether a text is an identifier. -/
def isIdentifier : Text → Bool
  | [] => false
  | b :: rest => Byte.isIdentifierStart b && rest.all Byte.isIdentifierByte

/-- The components of a dotted name. -/
def nameComponents (t : Text) : List Text :=
  t.splitOn Byte.dot

/-- Whether a text is a module name. -/
def isModuleName (t : Text) : Bool :=
  (nameComponents t).all isIdentifier

/-- Identifiers put together to a dotted name. -/
def dotted (components : List Text) : Text :=
  Text.join [Byte.dot] components

/-- A local name in a module. -/
structure QualifiedName where
  moduleName : Text
  localName : Text
  deriving DecidableEq, Repr

namespace QualifiedName

/-- The written form of a name, `module.local`. -/
def render (n : QualifiedName) : Text :=
  n.moduleName ++ "." ++ n.localName

/-- Names are ordered by module and then by local name, both as byte sequences. -/
instance : LT QualifiedName where
  lt a b := a.moduleName < b.moduleName ∨ a.moduleName = b.moduleName ∧ a.localName < b.localName

instance : DecidableLT QualifiedName := fun a b =>
  inferInstanceAs (Decidable (a.moduleName < b.moduleName ∨
    a.moduleName = b.moduleName ∧ a.localName < b.localName))

/-- The name that a path of identifiers denotes inside a module: a single identifier is local to the
module, a longer path is split at its last dot. -/
def ofPath (moduleName : Text) (first : Text) (others : List Text) : QualifiedName :=
  match others.reverse with
  | [] => ⟨moduleName, first⟩
  | last :: inner => ⟨dotted (first :: inner.reverse), last⟩

/-- Inserts a name into an ascending list without repetitions. -/
def insertSorted (n : QualifiedName) : List QualifiedName → List QualifiedName
  | [] => [n]
  | m :: ms => if n < m then n :: m :: ms else if n = m then m :: ms else m :: insertSorted n ms

/-- The names of a list in ascending order, each once. -/
def sorted (names : List QualifiedName) : List QualifiedName :=
  names.foldr insertSorted []

end QualifiedName

end ThetaSchema
