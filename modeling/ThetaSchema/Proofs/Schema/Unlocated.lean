import ThetaSchema.Schema.Printer

/-!
# Schemas up to locations

Two schemas say the same if they differ in the places that their nodes come from and in nothing else.
Dropping every location gives each schema a representative, so equality up to locations is equality of
representatives.

Main results:

- `SchemaModule.render_unlocated`: the written form of a module does not depend on locations.
-/

namespace ThetaSchema

/-! ## Dropping locations -/

mutual

/-- A type expression with every location dropped. -/
def TypeExpr.unlocated : TypeExpr → TypeExpr
  | .absent => .absent
  | .primitive _ kind => .primitive {} kind
  | .fixed _ size => .fixed {} size
  | .array _ element => .array {} element.unlocated
  | .map _ value => .map {} value.unlocated
  | .optional _ element => .optional {} element.unlocated
  | .reference _ name => .reference {} name
  | .record _ name fields => .record {} name (unlocatedFields fields)
  | .variant _ name cases => .variant {} name (unlocatedCases cases)
  | .enumeration _ name symbols => .enumeration {} name symbols
  | .newtype _ name underlying => .newtype {} name underlying.unlocated

/-- Fields with every location dropped. -/
def unlocatedFields : List (FieldOf TypeExpr) → List (FieldOf TypeExpr)
  | [] => []
  | ⟨_, name, doc, type⟩ :: fields => ⟨{}, name, doc, type.unlocated⟩ :: unlocatedFields fields

/-- Cases with every location dropped. -/
def unlocatedCases : List (CaseOf TypeExpr) → List (CaseOf TypeExpr)
  | [] => []
  | ⟨_, name, doc, fields⟩ :: cases => ⟨{}, name, doc, unlocatedFields fields⟩ :: unlocatedCases cases

end

/-- A field with every location dropped. -/
def FieldOf.unlocated (f : FieldOf TypeExpr) : FieldOf TypeExpr :=
  ⟨{}, f.name, f.doc, f.type.unlocated⟩

/-- A case with every location dropped. -/
def CaseOf.unlocated (c : CaseOf TypeExpr) : CaseOf TypeExpr :=
  ⟨{}, c.name, c.doc, c.fields.map FieldOf.unlocated⟩

/-- A definition with every location dropped. -/
def Definition.unlocated (d : Definition) : Definition :=
  ⟨{}, d.name, d.doc, d.type.unlocated⟩

/-- A statement with every location dropped. -/
def Statement.unlocated : Statement → Statement
  | .imports _ moduleName => .imports {} moduleName
  | .defines d => .defines d.unlocated

/-- A module with every location dropped. -/
def SchemaModule.unlocated (m : SchemaModule) : SchemaModule :=
  { m with statements := m.statements.map Statement.unlocated }

theorem unlocatedFields_eq_map (fields : List (FieldOf TypeExpr)) :
    unlocatedFields fields = fields.map FieldOf.unlocated := by
  induction fields with
  | nil => rfl
  | cons f fields ih => rw [unlocatedFields, ih, List.map_cons, FieldOf.unlocated]

theorem unlocatedCases_eq_map (cases : List (CaseOf TypeExpr)) :
    unlocatedCases cases = cases.map CaseOf.unlocated := by
  induction cases with
  | nil => rfl
  | cons c cases ih =>
    rw [unlocatedCases, ih, List.map_cons, CaseOf.unlocated, unlocatedFields_eq_map]

/-! ## The written form -/

mutual

/-- The compact form of a type does not depend on locations. -/
theorem TypeExpr.render_unlocated (e : TypeExpr) : e.unlocated.render = e.render := by
  cases e with
  | absent => rfl
  | primitive l kind => rfl
  | fixed l size => rfl
  | array l element => simp only [TypeExpr.unlocated, TypeExpr.render, element.render_unlocated]
  | map l value => simp only [TypeExpr.unlocated, TypeExpr.render, value.render_unlocated]
  | optional l element => simp only [TypeExpr.unlocated, TypeExpr.render, element.render_unlocated]
  | reference l name => rfl
  | record l name fields =>
    simp only [TypeExpr.unlocated, TypeExpr.render, fieldItems_unlocatedFields fields]
  | variant l name cases =>
    simp only [TypeExpr.unlocated, TypeExpr.render, caseItems_unlocatedCases cases]
  | enumeration l name symbols => rfl
  | newtype l name underlying =>
    simp only [TypeExpr.unlocated, TypeExpr.render, underlying.render_unlocated]

/-- The items of a record name its fields and their types only. -/
theorem fieldItems_unlocatedFields (fields : List (FieldOf TypeExpr)) :
    fieldItems (unlocatedFields fields) = fieldItems fields := by
  match fields with
  | [] => rfl
  | ⟨_, name, doc, type⟩ :: fields =>
    simp only [unlocatedFields, fieldItems, type.render_unlocated, fieldItems_unlocatedFields fields]

/-- The items of a variant name its cases and their fields only. -/
theorem caseItems_unlocatedCases (cases : List (CaseOf TypeExpr)) :
    caseItems (unlocatedCases cases) = caseItems cases := by
  match cases with
  | [] => rfl
  | ⟨_, name, doc, fields⟩ :: cases =>
    simp only [unlocatedCases, caseItems, fieldItems_unlocatedFields fields,
      caseItems_unlocatedCases cases]

end

/-- A field is written without its location. -/
theorem writeField_unlocated (indent : Text) (f : RecordField) :
    writeField indent f.unlocated = writeField indent f := by
  simp only [writeField, FieldOf.unlocated, TypeExpr.render_unlocated]

/-- A block of fields is written without their locations. -/
theorem writeFieldBlock_unlocated (indent : Text) (fields : List RecordField) :
    writeFieldBlock indent (fields.map FieldOf.unlocated) = writeFieldBlock indent fields := by
  have written : (fields.map FieldOf.unlocated).map (writeField (indent ++ "    ")) =
      fields.map (writeField (indent ++ "    ")) := by
    rw [List.map_map]
    exact List.map_congr_left fun f _ => writeField_unlocated _ f
  simp only [writeFieldBlock, List.isEmpty_map, written]

/-- The items of a record do not depend on the locations of its fields. -/
theorem fieldItems_map_unlocated (fields : List (FieldOf TypeExpr)) :
    fieldItems (fields.map FieldOf.unlocated) = fieldItems fields := by
  rw [← unlocatedFields_eq_map, fieldItems_unlocatedFields]

/-- A case without documentation is written without its location. -/
theorem writePlainCase_unlocated (alone : Bool) (c : VariantCase) :
    writePlainCase alone c.unlocated = writePlainCase alone c := by
  simp only [writePlainCase, CaseOf.unlocated, List.isEmpty_map, fieldItems_map_unlocated]

/-- A case with documentation is written without its location. -/
theorem writeDocumentedCase_unlocated (c : VariantCase) (onOwnLine : Bool) :
    writeDocumentedCase c.unlocated onOwnLine = writeDocumentedCase c onOwnLine := by
  simp only [writeDocumentedCase, CaseOf.unlocated, List.isEmpty_map, writeFieldBlock_unlocated]

/-- A case behind another one is written without its location. -/
theorem writeFurtherCase_unlocated (c : VariantCase) :
    writeFurtherCase c.unlocated = writeFurtherCase c := by
  simp only [writeFurtherCase, writeDocumentedCase_unlocated]
  rfl

/-- Whether a case is documented does not depend on its location. -/
theorem VariantCase.isDocumented_unlocated (c : VariantCase) :
    VariantCase.isDocumented c.unlocated = VariantCase.isDocumented c := by
  simp only [VariantCase.isDocumented, CaseOf.unlocated, List.any_map]
  rfl

/-- Cases are written without their locations. -/
theorem writeCases_unlocated (cases : List VariantCase) :
    writeCases (cases.map CaseOf.unlocated) = writeCases cases := by
  have documented : (cases.map CaseOf.unlocated).any VariantCase.isDocumented =
      cases.any VariantCase.isDocumented := by
    rw [List.any_map]
    exact List.any_congr rfl fun c => VariantCase.isDocumented_unlocated c
  have plain : ∀ alone, (cases.map CaseOf.unlocated).map (writePlainCase alone) =
      cases.map (writePlainCase alone) := by
    intro alone
    rw [List.map_map]
    exact List.map_congr_left fun c _ => writePlainCase_unlocated alone c
  simp only [writeCases, documented, plain, List.isEmpty_map, List.length_map]
  cases cases with
  | nil => rfl
  | cons first others =>
    simp only [List.map_cons, writeDocumentedCase_unlocated, List.flatMap_map,
      writeFurtherCase_unlocated]

/-- The body of a definition does not depend on locations. -/
theorem Definition.body_unlocated (d : Definition) : d.unlocated.body = d.body := by
  rcases d with ⟨location, name, doc, type⟩
  cases type with
  | record l n fields =>
    simp only [Definition.unlocated, Definition.body, TypeExpr.unlocated, unlocatedFields_eq_map,
      writeFieldBlock_unlocated]
  | variant l n cases =>
    simp only [Definition.unlocated, Definition.body, TypeExpr.unlocated, unlocatedCases_eq_map,
      writeCases_unlocated]
  | enumeration l n symbols => rfl
  | newtype l n underlying =>
    simp only [Definition.unlocated, Definition.body, TypeExpr.unlocated, TypeExpr.render_unlocated]
  | absent => rfl
  | primitive l kind => rfl
  | fixed l size => rfl
  | reference l n => rfl
  | array l e | map l e | optional l e =>
    simp only [Definition.unlocated, Definition.body, TypeExpr.unlocated, TypeExpr.render,
      TypeExpr.render_unlocated]

theorem Definition.render_unlocated (d : Definition) : d.unlocated.render = d.render := by
  simp only [Definition.render, Definition.body_unlocated]
  rfl

/-- Statements are written without their locations. -/
theorem writeStatements_unlocated (separated : Bool) (statements : List Statement) :
    writeStatements separated (statements.map Statement.unlocated) =
      writeStatements separated statements := by
  induction statements generalizing separated with
  | nil => rfl
  | cons s statements ih =>
    cases s with
    | imports l moduleName => simp only [List.map_cons, Statement.unlocated, writeStatements, ih]
    | defines d =>
      simp only [List.map_cons, Statement.unlocated, writeStatements, ih, Definition.render_unlocated]

/-- What a module imports does not depend on locations. -/
theorem SchemaModule.imports_unlocated (m : SchemaModule) : m.unlocated.imports = m.imports := by
  have kept : Statement.import? ∘ Statement.unlocated = Statement.import? := by
    funext s
    cases s <;> rfl
  simp only [SchemaModule.imports, SchemaModule.unlocated, List.filterMap_map, kept]

/-- The written form of a module does not depend on locations. -/
theorem SchemaModule.render_unlocated (m : SchemaModule) : m.unlocated.render = m.render := by
  simp only [SchemaModule.render, SchemaModule.imports_unlocated]
  simp only [SchemaModule.unlocated, writeStatements_unlocated]
  rfl

end ThetaSchema
