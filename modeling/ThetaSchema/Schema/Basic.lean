import ThetaSchema.Location
import ThetaSchema.Metadata
import ThetaSchema.QualifiedName

/-!
# Schemas

The abstract form of schema modules.  A module is a list of statements, each an import or the definition
of a named type.  Records, variants, enumerations and newtypes are the types that definitions introduce;
the other forms of type may stand anywhere.

Main definitions:

- `TypeExpr`: type expressions, with the location of each node.
- `RecordField`, `VariantCase`: the parts of records and variants, with their documentation.
- `Definition`, `Statement`, `SchemaModule`: the parts of a module.
-/

namespace ThetaSchema

/-- The types that need no definition. -/
inductive Primitive where
  | bool
  | bytes
  | int
  | long
  | float
  | double
  | string
  | date
  | datetime
  | uuid
  deriving DecidableEq, Repr

namespace Primitive

/-- The keyword of a primitive type. -/
def keyword : Primitive → Text
  | bool => "Bool"
  | bytes => "Bytes"
  | int => "Int"
  | long => "Long"
  | float => "Float"
  | double => "Double"
  | string => "String"
  | date => "Date"
  | datetime => "Datetime"
  | uuid => Feature.uuid.keyword

/-- Every primitive type. -/
def all : List Primitive :=
  [bool, bytes, int, long, float, double, string, date, datetime, uuid]

/-- Whether a language version has a primitive type. -/
def enabledAt (language : Version) : Primitive → Bool
  | uuid => Feature.uuid.enabledAt language
  | _ => true

/-- The primitive type whose keyword a text is at a language version. -/
def ofKeyword? (language : Version) (t : Text) : Option Primitive :=
  all.find? fun p => p.enabledAt language && p.keyword == t

end Primitive

/-- Whether a text may not name a definition or a case at a language version. -/
def isReservedWord (language : Version) (t : Text) : Bool :=
  (Primitive.ofKeyword? language t).isSome ||
    (Feature.fixed.enabledAt language && t == Feature.fixed.keyword)

/-! ## Types -/

/-- A field of a record or of a case, with a type drawn from `τ`. -/
structure FieldOf (τ : Type) where
  location : Location
  name : Text
  doc : Option Text
  type : τ
  deriving Repr

/-- A case of a variant, whose fields have types drawn from `τ`. -/
structure CaseOf (τ : Type) where
  location : Location
  name : QualifiedName
  doc : Option Text
  fields : List (FieldOf τ)
  deriving Repr

/-- A type expression.  The form `absent` stands where a tree that was put together by hand has no type;
it is written `?` and nothing is required of it. -/
inductive TypeExpr where
  | absent
  | primitive (location : Location) (kind : Primitive)
  | fixed (location : Location) (size : UInt64)
  | array (location : Location) (element : TypeExpr)
  | map (location : Location) (value : TypeExpr)
  | optional (location : Location) (element : TypeExpr)
  | reference (location : Location) (name : QualifiedName)
  | record (location : Location) (name : QualifiedName) (fields : List (FieldOf TypeExpr))
  | variant (location : Location) (name : QualifiedName) (cases : List (CaseOf TypeExpr))
  | enumeration (location : Location) (name : QualifiedName) (symbols : List Text)
  | newtype (location : Location) (name : QualifiedName) (underlying : TypeExpr)
  deriving Repr

/-- A field of a record or of a case. -/
abbrev RecordField := FieldOf TypeExpr

/-- A case of a variant. -/
abbrev VariantCase := CaseOf TypeExpr

/-- The location of a type expression. -/
def TypeExpr.location : TypeExpr → Location
  | absent => {}
  | primitive l _ | fixed l _ | array l _ | map l _ | optional l _ | reference l _ | record l _ _
  | variant l _ _ | enumeration l _ _ | newtype l _ _ => l

/-! ## Modules -/

/-- The definition of a named type. -/
structure Definition where
  location : Location
  name : QualifiedName
  doc : Option Text
  type : TypeExpr
  deriving Repr

/-- A statement of a module. -/
inductive Statement where
  | imports (location : Location) (moduleName : Text)
  | defines (definition : Definition)
  deriving Repr

namespace Statement

/-- The name of the module that a statement imports. -/
def import? : Statement → Option Text
  | imports _ moduleName => some moduleName
  | defines _ => none

/-- The definition that a statement makes. -/
def definition? : Statement → Option Definition
  | imports _ _ => none
  | defines d => some d

end Statement

/-- A module: the file it was read from, its header and its statements. -/
structure SchemaModule where
  file : Text
  metadata : Metadata
  statements : List Statement
  deriving Repr

namespace SchemaModule

/-- The name of a module. -/
def name (m : SchemaModule) : Text :=
  m.metadata.moduleName

/-- The names of the modules that a module imports, in order and with repetitions. -/
def imports (m : SchemaModule) : List Text :=
  m.statements.filterMap Statement.import?

/-- The definitions of a module, in order. -/
def definitions (m : SchemaModule) : List Definition :=
  m.statements.filterMap Statement.definition?

end SchemaModule

end ThetaSchema
