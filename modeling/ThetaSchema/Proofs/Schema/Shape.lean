import ThetaSchema.Proofs.Grammar.Parsed
import ThetaSchema.Proofs.Schema.Parts

/-!
# The shape of modules that were read

Printing, validation and lookup go by the form of names and by where the forms of types stand, without
checking either.  For modules that were read this is guaranteed, and here it is said of every node: the
definitions, and whatever stands in their types at any depth.

Main definitions:

- `TypeExpr.parts`: the types that stand directly in a type.
- `TypeExpr.ownName?`: the name of a record, a variant, an enumeration or a newtype.
- `TypeExpr.NodeShaped`: the shape of a single node.
- `SchemaModule.Shaped`: the shape of a module.

Main results:

- `TypeExpr.Fits.nodeShaped`, `TypeExpr.WellFormed.nodeShaped`: nodes of well-formed types have their shape.
- `SchemaModule.shaped_of_parse`: every module that was read has its shape.
-/

namespace ThetaSchema

/-! ## Nodes -/

/-- The types that stand directly in a type. -/
def TypeExpr.parts : TypeExpr → List TypeExpr
  | .array _ e | .map _ e | .optional _ e | .newtype _ _ e => [e]
  | .record _ _ fields => fields.map FieldOf.type
  | .variant _ _ cases => cases.flatMap fun c => c.fields.map FieldOf.type
  | .absent | .primitive _ _ | .fixed _ _ | .reference _ _ | .enumeration _ _ _ => []

/-- The name that a record, a variant, an enumeration or a newtype carries. -/
def TypeExpr.ownName? : TypeExpr → Option QualifiedName
  | .record _ n _ | .variant _ n _ | .enumeration _ n _ | .newtype _ n _ => some n
  | _ => none

/-- Whether a type is optional. -/
def TypeExpr.isOptional : TypeExpr → Bool
  | .optional _ _ => true
  | _ => false

/-- A name in a module: it is an identifier there, and no reserved word. -/
structure QualifiedName.NamesIn (moduleName : Text) (language : Version) (n : QualifiedName) : Prop where
  inModule : n.moduleName = moduleName
  identifier : isIdentifier n.localName = true
  free : isReservedWord language n.localName = false

/-- A name to refer to: an identifier in the module itself, or behind a dotted path of identifiers. -/
structure QualifiedName.Refers (moduleName : Text) (n : QualifiedName) : Prop where
  path : n.moduleName = moduleName ∨ isModuleName n.moduleName = true
  identifier : isIdentifier n.localName = true

/-- The shape of a node: no type is missing, an optional type is not optional again, variants and
enumerations are not empty, names are of their kind, and constructs of language version 1.1.0 need it. -/
def TypeExpr.NodeShaped (moduleName : Text) (language : Version) : TypeExpr → Prop
  | .absent => False
  | .primitive _ kind => kind = .uuid → (⟨1, 1, 0⟩ : Version) ≤ language
  | .fixed _ _ => (⟨1, 1, 0⟩ : Version) ≤ language
  | .array _ _ | .map _ _ | .newtype _ _ _ => True
  | .optional _ e => e.isOptional = false
  | .reference _ n => n.Refers moduleName
  | .record _ _ fields => ∀ f ∈ fields, isIdentifier f.name = true
  | .variant _ _ cases => cases ≠ [] ∧ ∀ c ∈ cases, c.name.NamesIn moduleName language ∧
      ∀ f ∈ c.fields, isIdentifier f.name = true
  | .enumeration _ _ symbols => symbols ≠ [] ∧ (∀ s ∈ symbols, isIdentifier s = true) ∧
      (⟨1, 1, 0⟩ : Version) ≤ language

/-- The shape of a module with a given name.  The types that carry a name are whole types of definitions:
they have the name of the definition, and they are no part of anything. -/
structure SchemaModule.Shaped (moduleName : Text) (x : SchemaModule) : Prop where
  imports : ∀ n ∈ x.imports, isModuleName n = true
  definitionName : ∀ d ∈ x.definitions, d.name.NamesIn moduleName x.metadata.language
  ownName : ∀ d ∈ x.definitions, ∀ n ∈ d.type.ownName?, n = d.name
  node : ∀ d ∈ x.definitions, ∀ u : TypeExpr, u.Inside d.type →
    u.NodeShaped moduleName x.metadata.language
  part : ∀ d ∈ x.definitions, ∀ u : TypeExpr, u.Inside d.type → ∀ v ∈ u.parts, v.ownName? = none

variable {m : Metadata} {e : TypeExpr}

/-! ## Names -/

theorem QualifiedName.DeclaredIn.namesIn {n : QualifiedName} (h : n.DeclaredIn m) :
    n.NamesIn m.moduleName m.language :=
  ⟨h.inModule, h.identifier, h.free⟩

theorem QualifiedName.ReferredIn.refers {n : QualifiedName} (h : n.ReferredIn m) :
    n.Refers m.moduleName := by
  refine ⟨?_, h.identifier⟩
  rcases h with ⟨first, others, identifiers, -, rfl⟩
  by_cases single : others = []
  · left
    rw [single]
    rfl
  · right
    obtain ⟨inner, last, rfl⟩ := (List.eq_nil_or_concat others).resolve_left single
    rw [List.concat_eq_append, ofPath_append_singleton]
    apply isModuleName_dotted (List.cons_ne_nil first inner)
    intro w mem
    apply identifiers
    rw [List.concat_eq_append, ← List.cons_append]
    exact List.mem_append_left _ mem

/-! ## Types -/

namespace TypeExpr

/-- A type of some level carries no name. -/
theorem Fits.ownName?_eq_none {level : TypeLevel} (h : e.Fits m level) : e.ownName? = none := by
  cases e with
  | record | variant | enumeration | newtype => cases level <;> cases h
  | absent | primitive | fixed | array | map | optional | reference => rfl

/-- An atom is not optional. -/
theorem Fits.isOptional_eq_false (h : e.Fits m .atom) : e.isOptional = false := by
  cases e with
  | optional l element => cases h
  | absent | primitive | fixed | array | map | reference | record | variant | enumeration | newtype => rfl

/-- The nodes of a type of some level have their shape. -/
theorem Fits.nodeShaped {level : TypeLevel} (h : e.Fits m level) :
    e.NodeShaped m.moduleName m.language := by
  cases e with
  | absent | record | variant | enumeration | newtype => cases level <;> cases h
  | primitive l kind =>
    have enabled : kind.enabledAt m.language = true := by cases level <;> exact h
    intro isUuid
    rw [isUuid] at enabled
    exact of_decide_eq_true enabled
  | fixed l size =>
    have enabled : (⟨1, 1, 0⟩ : Version) ≤ m.language := by cases level <;> exact of_decide_eq_true h
    exact enabled
  | array | map => trivial
  | optional l element =>
    cases level with
    | atom => cases h
    | signature => exact Fits.isOptional_eq_false h
  | reference l n =>
    have referred : n.ReferredIn m := by cases level <;> exact h
    exact referred.refers

/-- The parts of a type of some level carry no name. -/
theorem Fits.parts {level : TypeLevel} (h : e.Fits m level) : ∀ v ∈ e.parts, v.ownName? = none := by
  have single : ∀ {level' : TypeLevel} {u : TypeExpr}, u.Fits m level' → ∀ v ∈ [u], v.ownName? = none := by
    intro level' u fits v mem
    rw [List.mem_singleton.mp mem]
    exact fits.ownName?_eq_none
  cases e with
  | absent | primitive | fixed | reference | enumeration => simp [TypeExpr.parts]
  | record | variant | newtype => cases level <;> cases h
  | array l element | map l element =>
    have fits : element.Fits m .signature := by cases level <;> exact h
    exact single fits
  | optional l element =>
    cases level with
    | atom => cases h
    | signature =>
      have fits : element.Fits m .atom := h
      exact single fits

variable {name : QualifiedName}

/-- The type of a definition has its shape. -/
theorem WellFormed.nodeShaped (h : e.WellFormed m name) : e.NodeShaped m.moduleName m.language := by
  cases e with
  | absent | primitive | fixed | array | map | optional | reference => exact @Fits.nodeShaped m _ .signature h
  | record l n fields => exact fun f mem => (h.2 f mem).name
  | variant l n cases =>
    refine ⟨h.2.1, fun c mem => ?_⟩
    have case := h.2.2 c mem
    exact ⟨case.name.namesIn, fun f inside => (case.fields f inside).name⟩
  | enumeration l n symbols => exact ⟨h.2.1, h.2.2.1, of_decide_eq_true h.2.2.2⟩
  | newtype => trivial

/-- The parts of the type of a definition carry no name. -/
theorem WellFormed.parts (h : e.WellFormed m name) : ∀ v ∈ e.parts, v.ownName? = none := by
  intro v mem
  cases e with
  | absent | primitive | fixed | array | map | optional | reference =>
    exact @Fits.parts m _ .signature h v mem
  | record l n fields =>
    rcases List.mem_map.mp mem with ⟨f, inside, rfl⟩
    exact (h.2 f inside).type.ownName?_eq_none
  | variant l n cases =>
    rcases List.mem_flatMap.mp mem with ⟨c, inCases, field⟩
    rcases List.mem_map.mp field with ⟨f, inside, rfl⟩
    exact ((h.2.2 c inCases).fields f inside).type.ownName?_eq_none
  | enumeration => cases mem
  | newtype l n underlying =>
    rw [List.mem_singleton.mp mem]
    exact h.2.ownName?_eq_none

/-- The type of a definition carries the name of the definition, if it carries one. -/
theorem WellFormed.ownName (h : e.WellFormed m name) : ∀ n ∈ e.ownName?, n = name := by
  intro n mem
  cases e with
  | record | variant | enumeration | newtype =>
    cases mem
    exact h.1
  | absent | primitive | fixed | array | map | optional | reference => cases mem

end TypeExpr

/-! ## Modules -/

namespace SchemaModule

/-- A well-formed module has its shape. -/
theorem WellFormed.shaped {x : SchemaModule} (h : x.WellFormed) : x.Shaped x.name where
  imports n mem := by
    rcases List.mem_filterMap.mp mem with ⟨s, inside, makes⟩
    have wellFormed := h s inside
    cases s with
    | imports l moduleName =>
      cases makes
      exact wellFormed
    | defines d => cases makes
  definitionName d mem := (h.definition mem).name.namesIn
  ownName d mem := (h.definition mem).type.ownName
  node d mem u inside := by
    have whole := (h.definition mem).type
    rcases whole.inside inside with rfl | ⟨level, fits⟩
    · exact whole.nodeShaped
    · exact fits.nodeShaped
  part d mem u inside := by
    have whole := (h.definition mem).type
    rcases whole.inside inside with rfl | ⟨level, fits⟩
    · exact whole.parts
    · exact fits.parts

/-- Every module that was read under a name has the shape of a module with that name. -/
theorem shaped_of_parse {moduleName file text : Text} {x : SchemaModule}
    (h : (SchemaModule.parse moduleName file text).outcome = .ok x) : x.Shaped moduleName := by
  obtain ⟨wellFormed, named, -⟩ := parse_wellFormed h
  rw [← named]
  exact wellFormed.shaped

/-- A module with every form of definition, in which names look like keywords. -/
def everyFormSource : Text :=
  "language-version: 1.1.0\nencoding-version: 1.0.0\n---\nimport a.b_2\n/// first\n" ++
    "type R = \x7b x : [a.b_2.T?]?, type : \x7bFixed(16)\x7d \x7d\ntype V = /// c\n C \x7by: UUID\x7d | enum\n" ++
    "enum enums = Fixed | A\nalias Ints = \x7bInt\x7d?\ntype N = R\n"

/-- The module with every form of definition is read under a name that is no module name, and has its
shape. -/
theorem shaped_of_parse_everyForm :
    ∃ x, (SchemaModule.parse "1 name" "every.theta" everyFormSource).outcome = .ok x ∧
      x.definitions.length = 5 ∧ x.Shaped "1 name" := by
  have readable : (SchemaModule.parse "1 name" "every.theta" everyFormSource).outcome.toOption.any
      (fun x => x.definitions.length = 5) = true := by
    decide +kernel
  obtain ⟨x, read, five⟩ := exists_ok_of_any readable
  exact ⟨x, read, of_decide_eq_true five, shaped_of_parse read⟩

end SchemaModule

end ThetaSchema
