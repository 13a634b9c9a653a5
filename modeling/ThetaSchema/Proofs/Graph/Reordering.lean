import Mathlib.Data.List.Perm.Basic
import ThetaSchema.Proofs.Grammar.Parsed
import ThetaSchema.Proofs.Graph.Exactness
import ThetaSchema.Proofs.Graph.ViolationOrder
import ThetaSchema.Proofs.Schema.Parts

/-!
# Validation in any order

The violations of a graph do not depend on the order of its modules and of the statements in them: the
same rules are broken in any order, and the list is sorted by an order that tells them apart.

Main definitions:

- `SchemaModule.Reordered`: the same module with its statements in another order.
- `ModuleGraph.Reordered`: the same graph with its modules in another order, and their statements too.
- `ModuleGraph.Counterpart`: indices of modules that are the same in this sense.

Main results:

- `ModuleGraph.Reordered.reaches`: import paths have counterparts after a reordering.
- `ModuleGraph.Reordered.breaks`: counterparts break the same rules.
- `ModuleGraph.visit_localTo`: what the names in violations of modules that were read look like.
- `ModuleGraph.violations_reordered`: the violations stay the same, in strictly ascending order.
-/

namespace ThetaSchema

/-! ## Reordering -/

/-- The same module with its statements in another order. -/
structure SchemaModule.Reordered (x y : SchemaModule) : Prop where
  file : x.file = y.file
  metadata : x.metadata = y.metadata
  statements : x.statements.Perm y.statements

namespace SchemaModule.Reordered

variable {x y : SchemaModule}

theorem symm (h : x.Reordered y) : y.Reordered x :=
  ⟨h.file.symm, h.metadata.symm, h.statements.symm⟩

theorem name (h : x.Reordered y) : x.name = y.name :=
  congrArg Metadata.moduleName h.metadata

theorem imports (h : x.Reordered y) : x.imports.Perm y.imports :=
  h.statements.filterMap Statement.import?

theorem definitions (h : x.Reordered y) : x.definitions.Perm y.definitions :=
  h.statements.filterMap Statement.definition?

end SchemaModule.Reordered

/-- Reordered modules have the same definitions together, in some order. -/
theorem SchemaModule.flatMap_definitions_perm {ms ns : List SchemaModule}
    (each : List.Forall₂ SchemaModule.Reordered ms ns) :
    (ms.flatMap definitions).Perm (ns.flatMap definitions) := by
  induction each with
  | nil => exact .nil
  | cons first rest ih =>
    rw [List.flatMap_cons, List.flatMap_cons]
    exact first.definitions.append ih

namespace ModuleGraph

/-- The same graph with its modules in another order, and with the statements of each module in another
order. -/
def Reordered (g h : ModuleGraph) : Prop :=
  ∃ ms, g.modules.Perm ms ∧ List.Forall₂ SchemaModule.Reordered ms h.modules

/-- The modules at an index of one graph and at an index of another are the same but for the order of their
statements. -/
def Counterpart (g h : ModuleGraph) (i j : Nat) : Prop :=
  ∃ x y, g.modules[i]? = some x ∧ h.modules[j]? = some y ∧ x.Reordered y

variable {g h : ModuleGraph} {i j k : Nat}

/-- Counterparts have the same definitions, in some order. -/
theorem Counterpart.definitionsAt (same : Counterpart g h i j) :
    (g.definitionsAt i).Perm (h.definitionsAt j) := by
  rcases same with ⟨x, y, here, there, reordered⟩
  rw [ModuleGraph.definitionsAt, ModuleGraph.definitionsAt, here, there]
  exact reordered.definitions

namespace Reordered

/-- Reordering a graph can be undone. -/
theorem symm (order : g.Reordered h) : h.Reordered g := by
  rcases order with ⟨ms, perm, each⟩
  rcases List.perm_comp_forall₂ perm each with ⟨ns, each', perm'⟩
  refine ⟨ns, perm'.symm, each'.flip.imp ?_⟩
  intro x y reordered
  exact reordered.symm

/-- Every module has a counterpart. -/
theorem exists_counterpart (order : g.Reordered h) (bound : i < g.size) : ∃ j, Counterpart g h i j := by
  rcases order with ⟨ms, perm, each⟩
  have mem : g.modules[i] ∈ ms := perm.mem_iff.mp (List.getElem_mem bound)
  rcases List.getElem_of_mem mem with ⟨j, inside, same⟩
  have inside' : j < h.modules.length := each.length_eq ▸ inside
  have reordered := each.get inside inside'
  rw [List.get_eq_getElem, List.get_eq_getElem, same] at reordered
  exact ⟨j, g.modules[i], h.modules[j], List.getElem?_eq_getElem bound,
    List.getElem?_eq_getElem inside', reordered⟩

/-- A reordered graph defines the same names as often. -/
theorem definedNames (order : g.Reordered h) : g.definedNames.Perm h.definedNames := by
  rcases order with ⟨ms, perm, each⟩
  have moved := perm.flatMap_right SchemaModule.definitions
  exact (moved.trans (SchemaModule.flatMap_definitions_perm each)).map Definition.name

/-- An edge has a counterpart, from any counterpart of its start. -/
theorem imports (order : g.Reordered h) (same : Counterpart g h i j) (edge : g.Imports i k) :
    ∃ l, Counterpart g h k l ∧ h.Imports j l := by
  rcases order.exists_counterpart edge.lt_size with ⟨l, same'⟩
  refine ⟨l, same', ?_⟩
  rcases same with ⟨x, y, atStart, atStart', start⟩
  rcases same' with ⟨z, w, atEnd, atEnd', stop⟩
  rcases edge with ⟨a, b, first, second, imported⟩
  rw [atStart] at first
  rw [atEnd] at second
  cases first
  cases second
  rw [stop.name] at imported
  exact ⟨y, w, atStart', atEnd', start.imports.mem_iff.mp imported⟩

/-- An import path has a counterpart, from any counterpart of its start. -/
theorem reaches (order : g.Reordered h) (same : Counterpart g h i j) (path : g.Reaches i k) :
    ∃ l, Counterpart g h k l ∧ h.Reaches j l := by
  induction path with
  | refl => exact ⟨j, same, .refl⟩
  | tail path edge ih =>
    rcases ih with ⟨l, atMiddle, path'⟩
    rcases order.imports atMiddle edge with ⟨l', atEnd, edge'⟩
    exact ⟨l', atEnd, path'.tail edge'⟩

/-- Counterparts break the same rules. -/
theorem breaks (order : g.Reordered h) {x y : SchemaModule} (here : g.modules[i]? = some x)
    (there : h.modules[j]? = some y) (same : x.Reordered y) {r : BrokenRule} (broken : g.Breaks i x r) :
    h.Breaks j y r := by
  have defined : ∀ {p : Definition → Prop}, (∃ d ∈ x.definitions, p d) → ∃ d ∈ y.definitions, p d := by
    rintro p ⟨d, mem, holds⟩
    exact ⟨d, same.definitions.mem_iff.mp mem, holds⟩
  cases r with
  | duplicateRecordField record field => exact defined broken
  | duplicateCaseName variant case => exact defined broken
  | duplicateCaseField variant case field => exact defined broken
  | undefinedType name =>
    rcases broken with ⟨used, missing⟩
    refine ⟨defined used, ?_⟩
    intro l path d mem
    rcases order.symm.reaches ⟨y, x, there, here, same.symm⟩ path with ⟨k, counterpart, path'⟩
    exact missing k path' d (counterpart.definitionsAt.mem_iff.mp mem)
  | duplicateTypeName name =>
    rcases broken with ⟨defines, repeated⟩
    refine ⟨defined defines, ?_⟩
    rwa [← order.definedNames.count_eq]

/-- Whatever the walk finds, it finds in any order. -/
theorem mem_visit (order : g.Reordered h) {v : Violation} (found : ∃ f ∈ g.visit, f.violation = v) :
    ∃ f ∈ h.visit, f.violation = v := by
  rcases mem_visit_iff.mp found with ⟨i, x, here, named, filed, broken⟩
  rcases order.exists_counterpart (lt_size_of_getElem? here) with ⟨j, x', y, here', there, same⟩
  rw [here] at here'
  cases here'
  apply mem_visit_iff.mpr
  exact ⟨j, y, there, named.trans same.name, filed.trans same.file, order.breaks here there same broken⟩

end Reordered

end ModuleGraph

/-! ## Names in violations -/

section

variable {m : Metadata}

theorem QualifiedName.DeclaredIn.localTo {n : QualifiedName} (h : n.DeclaredIn m) :
    n.LocalTo m.moduleName :=
  ⟨h.inModule, h.identifier⟩

/-- A reference has an identifier as its local name. -/
theorem Definition.WellFormed.reference {d : Definition} (h : d.WellFormed m) {l : Location}
    {name : QualifiedName} (part : (TypeExpr.reference l name).Inside d.type) :
    isIdentifier name.localName = true := by
  have whole := h.type
  rcases whole.inside part with same | ⟨level, fits⟩
  · rw [← same] at whole
    exact QualifiedName.ReferredIn.identifier whole
  · cases level <;> exact QualifiedName.ReferredIn.identifier fits

/-- A record has the name of the definition that it stands in. -/
theorem Definition.WellFormed.record {d : Definition} (h : d.WellFormed m) {l : Location}
    {name : QualifiedName} {fields : List RecordField}
    (part : (TypeExpr.record l name fields).Inside d.type) : name.LocalTo m.moduleName := by
  have whole := h.type
  rcases whole.inside part with same | ⟨level, fits⟩
  · rw [← same] at whole
    rw [whole.1]
    exact h.name.localTo
  · cases level <;> cases fits

/-- A variant has the name of the definition that it stands in, and its cases have names of the module. -/
theorem Definition.WellFormed.variant {d : Definition} (h : d.WellFormed m) {l : Location}
    {name : QualifiedName} {cases : List VariantCase}
    (part : (TypeExpr.variant l name cases).Inside d.type) :
    name.LocalTo m.moduleName ∧ ∀ c ∈ cases, c.name.LocalTo m.moduleName := by
  have whole := h.type
  rcases whole.inside part with same | ⟨level, fits⟩
  · rw [← same] at whole
    rw [whole.1]
    exact ⟨h.name.localTo, fun c mem => (whole.2.2 c mem).name.localTo⟩
  · cases level <;> cases fits

end

namespace ModuleGraph

variable {g h : ModuleGraph}

/-- The rules that a well-formed module breaks are about names of the form that such modules have. -/
theorem Breaks.localTo {i : Nat} {x : SchemaModule} {r : BrokenRule} (broken : g.Breaks i x r)
    (wellFormed : x.WellFormed) : r.LocalTo x.name := by
  cases r with
  | duplicateRecordField record field =>
    rcases broken with ⟨d, mem, l, fields, inside, -⟩
    exact (wellFormed.definition mem).record inside
  | duplicateCaseName variant case =>
    rcases broken with ⟨d, mem, l, cases, inside, repeated⟩
    have names := (wellFormed.definition mem).variant inside
    have listed : case ∈ cases.map CaseOf.name := by
      rw [← List.count_pos_iff]
      omega
    rcases List.mem_map.mp listed with ⟨c, inCases, rfl⟩
    exact ⟨names.1, names.2 c inCases⟩
  | duplicateCaseField variant case field =>
    rcases broken with ⟨d, mem, l, cases, inside, c, inCases, rfl, -⟩
    have names := (wellFormed.definition mem).variant inside
    exact ⟨names.1, names.2 c inCases⟩
  | undefinedType name =>
    rcases broken with ⟨⟨d, mem, l, inside⟩, -⟩
    exact (wellFormed.definition mem).reference inside
  | duplicateTypeName name =>
    rcases broken with ⟨⟨d, mem, rfl⟩, -⟩
    exact (wellFormed.definition mem).name.identifier

/-- What the names look like in what the walk finds. -/
theorem visit_localTo (wellFormed : ∀ x ∈ g.modules, x.WellFormed) {f : Finding} (found : f ∈ g.visit) :
    f.violation.rule.LocalTo f.violation.moduleName := by
  rcases mem_visit_iff.mp ⟨f, found, rfl⟩ with ⟨i, x, here, named, -, broken⟩
  rw [named]
  exact broken.localTo (wellFormed x (List.mem_of_getElem? here))

/-! ## The list of violations -/

/-- Of modules that were read, the violations stay the same when the modules and their statements are put in
another order; they are listed in strictly ascending order, so each once. -/
theorem violations_reordered
    (parsed : ∀ x ∈ g.modules, ∃ moduleName file text,
      (SchemaModule.parse moduleName file text).outcome = .ok x)
    (order : g.Reordered h) :
    h.violations = g.violations ∧ g.violations.Pairwise (· < ·) ∧ g.violations.Nodup := by
  have wellFormed : ∀ x ∈ g.modules, x.WellFormed := by
    intro x mem
    rcases parsed x mem with ⟨moduleName, file, text, read⟩
    exact (SchemaModule.parse_wellFormed read).1
  have ascending : g.violations.Pairwise (· < ·) := violations_pairwise fun f => visit_localTo wellFormed
  have ascending' : h.violations.Pairwise (· < ·) := by
    apply violations_pairwise
    intro f found
    rcases order.symm.mem_visit ⟨f, found, rfl⟩ with ⟨f', found', same⟩
    rw [← same]
    exact visit_localTo wellFormed found'
  have sameMembers : ∀ v, v ∈ h.violations ↔ v ∈ g.violations := by
    intro v
    rw [mem_violations_iff_mem_visit, mem_violations_iff_mem_visit]
    exact ⟨order.symm.mem_visit, order.mem_visit⟩
  exact ⟨Violation.eq_of_ascending ascending' ascending sameMembers, ascending,
    Violation.nodup_of_ascending ascending⟩

/-- A module that defines a record twice and refers to a type that is not defined. -/
def twiceSource : Text :=
  "language-version: 1.0.0\nencoding-version: 1.0.0\n---\ntype Pair = \x7b x : Left, x : Int \x7d\n" ++
    "type Pair = \x7b y : Int \x7d\n"

/-- A module that imports another one. -/
def importingSource : Text :=
  "language-version: 1.0.0\nencoding-version: 1.0.0\n---\nimport twice\ntype Use = \x7b p : twice.Pair \x7d\n"

/-- Two modules in the other order, one of them backwards. -/
theorem violations_reordered_twice :
    ∃ a b, (SchemaModule.parse "twice" "twice.theta" twiceSource).outcome = .ok a ∧
      (SchemaModule.parse "use" "use.theta" importingSource).outcome = .ok b ∧
      violations ⟨[b, ⟨a.file, a.metadata, a.statements.reverse⟩]⟩ = violations ⟨[a, b]⟩ ∧
        (violations ⟨[a, b]⟩).Pairwise (· < ·) ∧ (violations ⟨[a, b]⟩).Nodup := by
  have parsed : ∀ {r : Except SchemaError SchemaModule}, r.toOption.isSome = true → ∃ x, r = .ok x := by
    intro r readable
    cases r with
    | error e => cases readable
    | ok x => exact ⟨x, rfl⟩
  rcases parsed (show (SchemaModule.parse "twice" "twice.theta" twiceSource).outcome.toOption.isSome = true by
    decide +kernel) with ⟨a, parsedA⟩
  rcases parsed (show (SchemaModule.parse "use" "use.theta" importingSource).outcome.toOption.isSome = true by
    decide +kernel) with ⟨b, parsedB⟩
  have order : Reordered ⟨[a, b]⟩ ⟨[b, ⟨a.file, a.metadata, a.statements.reverse⟩]⟩ := by
    refine ⟨[b, a], .swap b a [], ?_⟩
    exact .cons ⟨rfl, rfl, .refl _⟩ (.cons ⟨rfl, rfl, (List.reverse_perm _).symm⟩ .nil)
  refine ⟨a, b, parsedA, parsedB, violations_reordered ?_ order⟩
  intro x mem
  rcases List.mem_cons.mp mem with rfl | other
  · exact ⟨_, _, _, parsedA⟩
  · rw [List.mem_singleton.mp other]
    exact ⟨_, _, _, parsedB⟩

end ModuleGraph

end ThetaSchema
