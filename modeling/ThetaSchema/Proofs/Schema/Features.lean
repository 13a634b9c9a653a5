import ThetaSchema.Proofs.Graph.Sites

/-!
# Constructs that older language versions lack

Enumerations and fixed types are refused by language versions that do not have them, while the primitive
type with a keyword of its own becomes a reference to a definition with that name in the same module.

Main definitions:

- `TypeExpr.downgraded`, `Statement.downgraded`: what a schema means to an older language version.
- `TypeExpr.featureUses`, `Statement.featureUses`: the refused constructs of a schema in source order.
- `Definition.Portable`: a definition without such constructs.

Main results:

- `featureUses_eq_nil_iff`: portable definitions are those in which nothing is refused.
-/

namespace ThetaSchema

/-! ## Downgrading -/

mutual

/-- A type as an older language version reads it in a module: the primitive type it lacks becomes a
reference into the module. -/
def TypeExpr.downgraded (moduleName : Text) : TypeExpr → TypeExpr
  | .absent => .absent
  | .primitive l kind =>
    if kind = .uuid then .reference l ⟨moduleName, Primitive.uuid.keyword⟩ else .primitive l kind
  | .fixed l size => .fixed l size
  | .array l element => .array l (element.downgraded moduleName)
  | .map l value => .map l (value.downgraded moduleName)
  | .optional l element => .optional l (element.downgraded moduleName)
  | .reference l name => .reference l name
  | .record l name fields => .record l name (downgradedFields moduleName fields)
  | .variant l name cases => .variant l name (downgradedCases moduleName cases)
  | .enumeration l name symbols => .enumeration l name symbols
  | .newtype l name underlying => .newtype l name (underlying.downgraded moduleName)

/-- Fields with downgraded types. -/
def downgradedFields (moduleName : Text) : List (FieldOf TypeExpr) → List (FieldOf TypeExpr)
  | [] => []
  | ⟨l, name, doc, type⟩ :: fields =>
    ⟨l, name, doc, type.downgraded moduleName⟩ :: downgradedFields moduleName fields

/-- Cases whose fields have downgraded types. -/
def downgradedCases (moduleName : Text) : List (CaseOf TypeExpr) → List (CaseOf TypeExpr)
  | [] => []
  | ⟨l, name, doc, fields⟩ :: cases =>
    ⟨l, name, doc, downgradedFields moduleName fields⟩ :: downgradedCases moduleName cases

end

/-- A field with a downgraded type. -/
def FieldOf.downgraded (moduleName : Text) (f : RecordField) : RecordField :=
  { f with type := f.type.downgraded moduleName }

/-- A case whose fields have downgraded types. -/
def CaseOf.downgraded (moduleName : Text) (c : VariantCase) : VariantCase :=
  { c with fields := c.fields.map (FieldOf.downgraded moduleName) }

/-- A definition of a downgraded type. -/
def Definition.downgraded (moduleName : Text) (d : Definition) : Definition :=
  { d with type := d.type.downgraded moduleName }

/-- A statement with a downgraded type. -/
def Statement.downgraded (moduleName : Text) : Statement → Statement
  | .imports l imported => .imports l imported
  | .defines d => .defines (d.downgraded moduleName)

theorem downgradedFields_eq_map (moduleName : Text) (fields : List RecordField) :
    downgradedFields moduleName fields = fields.map (FieldOf.downgraded moduleName) := by
  induction fields with
  | nil => rfl
  | cons f fields ih => rw [downgradedFields, ih, List.map_cons, FieldOf.downgraded]

theorem downgradedCases_eq_map (moduleName : Text) (cases : List VariantCase) :
    downgradedCases moduleName cases = cases.map (CaseOf.downgraded moduleName) := by
  induction cases with
  | nil => rfl
  | cons c cases ih =>
    rw [downgradedCases, ih, List.map_cons, CaseOf.downgraded, downgradedFields_eq_map]

/-- Downgrading a type leaves its location as it is. -/
@[simp]
theorem TypeExpr.location_downgraded (moduleName : Text) (e : TypeExpr) :
    (e.downgraded moduleName).location = e.location := by
  cases e with
  | primitive l kind =>
    rw [TypeExpr.downgraded]
    split <;> rfl
  | absent | fixed | array | map | optional | reference | record | variant | enumeration | newtype => rfl

/-! ## Refused constructs -/

/-- A construct that not every language version has, and the location of the keyword that starts it. -/
structure FeatureUse where
  feature : Feature
  location : Location
  deriving DecidableEq, Repr

mutual

/-- The fixed types in a type, in source order. -/
def TypeExpr.featureUses : TypeExpr → List FeatureUse
  | .absent | .primitive _ _ | .reference _ _ | .enumeration _ _ _ => []
  | .fixed l _ => [⟨.fixed, l⟩]
  | .array _ e | .map _ e | .optional _ e | .newtype _ _ e => e.featureUses
  | .record _ _ fields => fieldFeatureUses fields
  | .variant _ _ cases => caseFeatureUses cases

/-- The fixed types in the types of fields. -/
def fieldFeatureUses : List (FieldOf TypeExpr) → List FeatureUse
  | [] => []
  | ⟨_, _, _, type⟩ :: fields => type.featureUses ++ fieldFeatureUses fields

/-- The fixed types in the fields of cases. -/
def caseFeatureUses : List (CaseOf TypeExpr) → List FeatureUse
  | [] => []
  | ⟨_, _, _, fields⟩ :: cases => fieldFeatureUses fields ++ caseFeatureUses cases

end

/-- The constructs of a definition that older language versions refuse: the definition itself if it is an
enumeration, and otherwise the fixed types in its type. -/
def Definition.featureUses (d : Definition) : List FeatureUse :=
  match d.type with
  | .enumeration _ _ _ => [⟨.enumeration, d.location⟩]
  | type => type.featureUses

/-- The constructs in a statement that older language versions refuse. -/
def Statement.featureUses : Statement → List FeatureUse
  | .imports _ _ => []
  | .defines d => d.featureUses

/-- In a definition that is no enumeration only fixed types are refused. -/
theorem Definition.featureUses_of_ne {d : Definition}
    (other : ∀ l name symbols, d.type ≠ .enumeration l name symbols) :
    d.featureUses = d.type.featureUses := by
  unfold Definition.featureUses
  split
  · rename_i l name symbols same
    exact absurd same (other l name symbols)
  · rfl

/-! ## Portable definitions -/

mutual

/-- The refused constructs in a type are the fixed types that stand inside it. -/
theorem TypeExpr.mem_featureUses_iff (u : FeatureUse) (e : TypeExpr) :
    u ∈ e.featureUses ↔ ∃ l size, u = ⟨.fixed, l⟩ ∧ (TypeExpr.fixed l size).Inside e := by
  cases e with
  | absent | primitive | reference | enumeration =>
    rw [TypeExpr.featureUses]
    constructor
    · intro mem
      cases mem
    · rintro ⟨l, size, -, ⟨⟩⟩
  | fixed location size =>
    rw [TypeExpr.featureUses, List.mem_singleton]
    constructor
    · intro same
      exact ⟨location, size, same, .self⟩
    · rintro ⟨l, size, same, ⟨⟩⟩
      exact same
  | array location element | map location element | optional location element
  | newtype location name element =>
    rw [TypeExpr.featureUses, TypeExpr.mem_featureUses_iff u element]
    constructor
    · rintro ⟨l, size, same, inside⟩
      exact ⟨l, size, same, by constructor; exact inside⟩
    · rintro ⟨l, size, same, inside⟩
      cases inside with
      | _ => exact ⟨l, size, same, ‹_›⟩
  | record location name fields =>
    rw [TypeExpr.featureUses, mem_fieldFeatureUses_iff u fields]
    constructor
    · rintro ⟨f, field, l, size, same, inside⟩
      exact ⟨l, size, same, .record field inside⟩
    · rintro ⟨l, size, same, inside⟩
      cases inside with
      | record field part => exact ⟨_, field, l, size, same, part⟩
  | variant location name cases =>
    rw [TypeExpr.featureUses, mem_caseFeatureUses_iff u cases]
    constructor
    · rintro ⟨c, inCases, f, field, l, size, same, inside⟩
      exact ⟨l, size, same, .variant inCases field inside⟩
    · rintro ⟨l, size, same, inside⟩
      cases inside with
      | variant inCases field part => exact ⟨_, inCases, _, field, l, size, same, part⟩

/-- The constructs that fields use are the fixed types inside of their types. -/
theorem mem_fieldFeatureUses_iff (u : FeatureUse) (fields : List (FieldOf TypeExpr)) :
    u ∈ fieldFeatureUses fields ↔
      ∃ f ∈ fields, ∃ l size, u = ⟨.fixed, l⟩ ∧ (TypeExpr.fixed l size).Inside f.type := by
  match fields with
  | [] => simp [fieldFeatureUses]
  | ⟨location, name, doc, type⟩ :: fields =>
    rw [fieldFeatureUses, List.mem_append, TypeExpr.mem_featureUses_iff u type,
      mem_fieldFeatureUses_iff u fields]
    simp only [List.mem_cons, exists_eq_or_imp]

/-- The constructs that cases use are the fixed types inside of the types of their fields. -/
theorem mem_caseFeatureUses_iff (u : FeatureUse) (cases : List (CaseOf TypeExpr)) :
    u ∈ caseFeatureUses cases ↔
      ∃ c ∈ cases, ∃ f ∈ c.fields, ∃ l size, u = ⟨.fixed, l⟩ ∧ (TypeExpr.fixed l size).Inside f.type := by
  match cases with
  | [] => simp [caseFeatureUses]
  | ⟨location, name, doc, fields⟩ :: cases =>
    rw [caseFeatureUses, List.mem_append, mem_fieldFeatureUses_iff u fields,
      mem_caseFeatureUses_iff u cases]
    simp only [List.mem_cons, exists_eq_or_imp]

end

/-- A definition is portable if it is no enumeration and no fixed type stands in it. -/
structure Definition.Portable (d : Definition) : Prop where
  noEnumeration : ∀ l name symbols, d.type ≠ .enumeration l name symbols
  noFixed : ∀ l size, ¬ (TypeExpr.fixed l size).Inside d.type

/-- A definition is portable exactly when nothing in it is refused. -/
theorem Definition.featureUses_eq_nil_iff {d : Definition} : d.featureUses = [] ↔ d.Portable := by
  by_cases isEnumeration : ∃ l name symbols, d.type = .enumeration l name symbols
  · rcases isEnumeration with ⟨l, name, symbols, same⟩
    rw [Definition.featureUses, same]
    constructor
    · rintro ⟨⟩
    · intro portable
      exact absurd same (portable.noEnumeration l name symbols)
  · have other : ∀ l name symbols, d.type ≠ .enumeration l name symbols :=
      fun l name symbols same => isEnumeration ⟨l, name, symbols, same⟩
    rw [Definition.featureUses_of_ne other, List.eq_nil_iff_forall_not_mem]
    simp only [TypeExpr.mem_featureUses_iff]
    constructor
    · intro none
      exact ⟨other, fun l size inside => none _ ⟨l, size, rfl, inside⟩⟩
    · rintro portable u ⟨l, size, -, inside⟩
      exact portable.noFixed l size inside

/-- Nothing in statements is refused exactly when all their definitions are portable. -/
theorem featureUses_eq_nil_iff {statements : List Statement} :
    statements.flatMap Statement.featureUses = [] ↔
      ∀ d, Statement.defines d ∈ statements → d.Portable := by
  rw [List.flatMap_eq_nil_iff]
  constructor
  · intro none d mem
    exact Definition.featureUses_eq_nil_iff.mp (none _ mem)
  · intro portable s mem
    cases s with
    | imports l imported => rfl
    | defines d => exact Definition.featureUses_eq_nil_iff.mpr (portable d mem)

end ThetaSchema
