import ThetaSchema.Proofs.Documentation.Normal
import ThetaSchema.Proofs.Grammar.Types
import ThetaSchema.Proofs.Schema.Traversal

/-!
# Well-formed schemas

What every module that was read from a text has in common, said about its tree alone: which names stand
where, which types are built from which, and what the texts in it look like.  A well-formed tree can be
written as source text that is read to the same tree.

Main definitions:

- `TypeExpr.Fits`: the type expressions of each level.
- `Definition.WellFormed`, `Statement.WellFormed`, `SchemaModule.WellFormed`.

Main results:

- `Statement.wellFormed_unlocated`: being well-formed does not depend on locations.
-/

namespace ThetaSchema

/-! ## Names -/

/-- A name that a definition or a case may have in a module. -/
structure QualifiedName.DeclaredIn (m : Metadata) (n : QualifiedName) : Prop where
  inModule : n.moduleName = m.moduleName
  identifier : isIdentifier n.localName = true
  free : isReservedWord m.language n.localName = false

/-- A name that a path of identifiers denotes in a module. -/
def QualifiedName.ReferredIn (m : Metadata) (n : QualifiedName) : Prop :=
  ∃ first others, (∀ w ∈ first :: others, isIdentifier w = true) ∧
    isReservedWord m.language first = false ∧ n = .ofPath m.moduleName first others

/-- A path of at least two identifiers denotes the last of them in the module that the others name. -/
theorem QualifiedName.ofPath_append_singleton (moduleName first : Text) (inner : List Text) (last : Text) :
    QualifiedName.ofPath moduleName first (inner ++ [last]) = ⟨dotted (first :: inner), last⟩ := by
  simp [QualifiedName.ofPath]

/-- The last component of a path is an identifier. -/
theorem QualifiedName.ReferredIn.identifier {m : Metadata} {n : QualifiedName} (h : n.ReferredIn m) :
    isIdentifier n.localName = true := by
  rcases h with ⟨first, others, identifiers, -, rfl⟩
  rcases List.eq_nil_or_concat others with rfl | ⟨inner, last, rfl⟩
  · exact identifiers first List.mem_cons_self
  · rw [List.concat_eq_append, ofPath_append_singleton]
    exact identifiers last (by simp)

/-! ## Types -/

/-- The type expressions of a level: an optional type is a signature of an atom, and the types that
definitions introduce stand at no level. -/
def TypeExpr.Fits (m : Metadata) : TypeLevel → TypeExpr → Prop
  | _, .primitive _ kind => kind.enabledAt m.language = true
  | _, .fixed _ _ => Feature.fixed.enabledAt m.language = true
  | _, .array _ element => element.Fits m .signature
  | _, .map _ value => value.Fits m .signature
  | .signature, .optional _ element => element.Fits m .atom
  | _, .reference _ name => name.ReferredIn m
  | _, _ => False

/-- A field whose name is an identifier and whose type is a signature. -/
structure FieldOf.WellFormed (m : Metadata) (f : RecordField) : Prop where
  name : isIdentifier f.name = true
  doc : ∀ d ∈ f.doc, Documentation.IsNormal d
  type : f.type.Fits m .signature

/-- A case with a name of the module and well-formed fields. -/
structure CaseOf.WellFormed (m : Metadata) (c : VariantCase) : Prop where
  name : c.name.DeclaredIn m
  doc : ∀ d ∈ c.doc, Documentation.IsNormal d
  fields : ∀ f ∈ c.fields, f.WellFormed m

/-- The types that a definition may give a name to.  Those with a name of their own have that of the
definition. -/
def TypeExpr.WellFormed (m : Metadata) (name : QualifiedName) : TypeExpr → Prop
  | .record _ n fields => n = name ∧ ∀ f ∈ fields, f.WellFormed m
  | .variant _ n cases => n = name ∧ cases ≠ [] ∧ ∀ c ∈ cases, c.WellFormed m
  | .enumeration _ n symbols =>
    n = name ∧ symbols ≠ [] ∧ (∀ s ∈ symbols, isIdentifier s = true) ∧
      Feature.enumeration.enabledAt m.language = true
  | .newtype _ n underlying => n = name ∧ underlying.Fits m .signature
  | e => e.Fits m .signature

/-! ## Modules -/

/-- A definition with a name of the module. -/
structure Definition.WellFormed (m : Metadata) (d : Definition) : Prop where
  name : d.name.DeclaredIn m
  doc : ∀ t ∈ d.doc, Documentation.IsNormal t
  type : d.type.WellFormed m d.name

/-- A statement that imports a module name or makes a well-formed definition. -/
def Statement.WellFormed (m : Metadata) : Statement → Prop
  | .imports _ moduleName => isModuleName moduleName = true
  | .defines d => d.WellFormed m

/-- A module of well-formed statements. -/
def SchemaModule.WellFormed (x : SchemaModule) : Prop :=
  ∀ s ∈ x.statements, s.WellFormed x.metadata

variable {m : Metadata}

/-! ## Documentation -/

/-- The documentation of the fields and cases of a well-formed type is normal. -/
theorem TypeExpr.WellFormed.normal {name : QualifiedName} {e : TypeExpr} (h : e.WellFormed m name) :
    ∀ d ∈ e.docs, Documentation.IsNormal d := by
  have ofFields : ∀ fields : List RecordField, (∀ f ∈ fields, f.WellFormed m) →
      ∀ d ∈ fields.flatMap FieldOf.docs, Documentation.IsNormal d := by
    intro fields wellFormed d mem
    rcases List.mem_flatMap.mp mem with ⟨f, inside, here⟩
    exact (wellFormed f inside).doc d (by simpa [FieldOf.docs] using here)
  intro d mem
  cases e with
  | record location n fields => exact ofFields fields h.2 d mem
  | variant location n cases =>
    rcases List.mem_flatMap.mp mem with ⟨c, inside, here⟩
    have wellFormed := h.2.2 c inside
    rcases List.mem_append.mp here with own | field
    · exact wellFormed.doc d (by simpa using own)
    · exact ofFields c.fields wellFormed.fields d field
  | absent | primitive | fixed | array | map | optional | reference | enumeration | newtype => cases mem

/-- The documentation of a well-formed module is normal. -/
theorem SchemaModule.WellFormed.normal {x : SchemaModule} (h : x.WellFormed) :
    ∀ d ∈ x.docs, Documentation.IsNormal d := by
  intro d mem
  rcases List.mem_flatMap.mp mem with ⟨s, inside, here⟩
  have wellFormed := h s inside
  cases s with
  | imports location moduleName => cases here
  | defines definition =>
    rcases List.mem_append.mp here with own | type
    · exact wellFormed.doc d (by simpa using own)
    · exact wellFormed.type.normal d type

/-! ## Locations -/

/-- Whether a type expression stands at a level does not depend on locations. -/
theorem TypeExpr.fits_unlocated (level : TypeLevel) (e : TypeExpr) :
    e.unlocated.Fits m level ↔ e.Fits m level := by
  cases e with
  | primitive l kind | fixed l size | reference l name => cases level <;> exact Iff.rfl
  | array l element =>
    have inner := TypeExpr.fits_unlocated .signature element
    cases level <;> exact inner
  | map l value =>
    have inner := TypeExpr.fits_unlocated .signature value
    cases level <;> exact inner
  | optional l element =>
    cases level with
    | atom => exact Iff.rfl
    | signature => exact TypeExpr.fits_unlocated .atom element
  | absent | record | variant | enumeration | newtype => cases level <;> exact Iff.rfl

/-- Whether a field is well-formed does not depend on locations. -/
theorem FieldOf.wellFormed_unlocated (f : RecordField) : f.unlocated.WellFormed m ↔ f.WellFormed m := by
  constructor
  · rintro ⟨name, doc, type⟩
    exact ⟨name, doc, (TypeExpr.fits_unlocated _ _).mp type⟩
  · rintro ⟨name, doc, type⟩
    exact ⟨name, doc, (TypeExpr.fits_unlocated _ _).mpr type⟩

/-- Whether a case is well-formed does not depend on locations. -/
theorem CaseOf.wellFormed_unlocated (c : VariantCase) : c.unlocated.WellFormed m ↔ c.WellFormed m := by
  constructor
  · rintro ⟨name, doc, fields⟩
    refine ⟨name, doc, fun f mem => ?_⟩
    exact (FieldOf.wellFormed_unlocated f).mp (fields _ (List.mem_map_of_mem mem))
  · rintro ⟨name, doc, fields⟩
    refine ⟨name, doc, fun f mem => ?_⟩
    rcases List.mem_map.mp mem with ⟨g, inside, rfl⟩
    exact (FieldOf.wellFormed_unlocated g).mpr (fields g inside)

/-- Whether a definition may have a type does not depend on locations. -/
theorem TypeExpr.wellFormed_unlocated (name : QualifiedName) (e : TypeExpr) :
    e.unlocated.WellFormed m name ↔ e.WellFormed m name := by
  cases e with
  | record l n fields =>
    rw [TypeExpr.unlocated, unlocatedFields_eq_map]
    simp only [TypeExpr.WellFormed, List.forall_mem_map, FieldOf.wellFormed_unlocated]
  | variant l n cases =>
    rw [TypeExpr.unlocated, unlocatedCases_eq_map]
    simp only [TypeExpr.WellFormed, List.forall_mem_map, CaseOf.wellFormed_unlocated, ne_eq,
      List.map_eq_nil_iff]
  | enumeration l n symbols => exact Iff.rfl
  | newtype l n underlying =>
    simp only [TypeExpr.unlocated, TypeExpr.WellFormed, TypeExpr.fits_unlocated]
  | absent | primitive | fixed | array | map | optional | reference =>
    exact TypeExpr.fits_unlocated .signature _

/-- Being well-formed does not depend on locations. -/
theorem Statement.wellFormed_unlocated (s : Statement) : s.unlocated.WellFormed m ↔ s.WellFormed m := by
  cases s with
  | imports l moduleName => exact Iff.rfl
  | defines d =>
    constructor
    · rintro ⟨name, doc, type⟩
      exact ⟨name, doc, (TypeExpr.wellFormed_unlocated _ _).mp type⟩
    · rintro ⟨name, doc, type⟩
      exact ⟨name, doc, (TypeExpr.wellFormed_unlocated _ _).mpr type⟩

end ThetaSchema
