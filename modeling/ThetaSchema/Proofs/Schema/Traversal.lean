import ThetaSchema.Proofs.Schema.Unlocated

/-!
# The documentation of schemas

The documentation texts of a schema in source order: a definition goes before its fields and cases, and a
case before its fields.

Main definitions:

- `Definition.docs`, `Statement.docs`, `SchemaModule.docs`.

Main results:

- `Statement.docs_unlocated`: the documentation does not depend on locations.
-/

namespace ThetaSchema

/-- The documentation of a field. -/
def FieldOf.docs (f : RecordField) : List Text :=
  f.doc.toList

/-- The documentation of a case and of its fields. -/
def CaseOf.docs (c : VariantCase) : List Text :=
  c.doc.toList ++ c.fields.flatMap FieldOf.docs

/-- The documentation inside a type that a definition gives a name to. -/
def TypeExpr.docs : TypeExpr → List Text
  | .record _ _ fields => fields.flatMap FieldOf.docs
  | .variant _ _ cases => cases.flatMap CaseOf.docs
  | _ => []

/-- The documentation of a definition and of its parts. -/
def Definition.docs (d : Definition) : List Text :=
  d.doc.toList ++ d.type.docs

/-- The documentation in a statement. -/
def Statement.docs : Statement → List Text
  | .imports _ _ => []
  | .defines d => d.docs

/-- The documentation in a module. -/
def SchemaModule.docs (x : SchemaModule) : List Text :=
  x.statements.flatMap Statement.docs

/-! ## Locations -/

@[simp]
theorem CaseOf.docs_unlocated (c : VariantCase) : c.unlocated.docs = c.docs := by
  rw [CaseOf.docs, CaseOf.unlocated, List.flatMap_map]
  rfl

/-- The documentation of a type does not depend on locations. -/
@[simp]
theorem TypeExpr.docs_unlocated (e : TypeExpr) : e.unlocated.docs = e.docs := by
  cases e with
  | record l name fields =>
    rw [TypeExpr.unlocated, unlocatedFields_eq_map, TypeExpr.docs, List.flatMap_map]
    rfl
  | variant l name cases =>
    rw [TypeExpr.unlocated, unlocatedCases_eq_map, TypeExpr.docs, List.flatMap_map]
    simp only [CaseOf.docs_unlocated]
    rfl
  | absent | primitive | fixed | array | map | optional | reference | enumeration | newtype => rfl

/-- The documentation in a statement does not depend on locations. -/
@[simp]
theorem Statement.docs_unlocated (s : Statement) : s.unlocated.docs = s.docs := by
  cases s with
  | imports l moduleName => rfl
  | defines d => rw [unlocated, docs, docs, Definition.unlocated, Definition.docs, Definition.docs,
      TypeExpr.docs_unlocated]

end ThetaSchema
