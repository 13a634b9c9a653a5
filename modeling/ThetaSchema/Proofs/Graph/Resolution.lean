import ThetaSchema.Proofs.Grammar.Parsed
import ThetaSchema.Proofs.Graph.Exactness
import ThetaSchema.Proofs.Schema.Names
import ThetaSchema.Proofs.Schema.Parts

/-!
# References in valid graphs resolve

In a graph without violations every reference names exactly one definition, in a module that imports lead
to, and looking its written form up finds that definition.

Main results:

- `ModuleGraph.validate_ok_iff`: validation accepts the graphs in which no module breaks a rule.
- `ModuleGraph.lookup_eq_ok`: a name that is defined once is found.
- `ModuleGraph.lookup_reference_of_validate`: in a valid graph references are found.
-/

namespace ThetaSchema
namespace ModuleGraph

variable {g : ModuleGraph}

/-! ## Valid graphs -/

/-- Validation accepts exactly the graphs in which no module breaks a rule, and returns them. -/
theorem validate_ok_iff {h : ModuleGraph} :
    g.validate.outcome = .ok h ↔ g = h ∧ ∀ i x rule, g.modules[i]? = some x → ¬ g.Breaks i x rule := by
  have listed : (∀ i x rule, g.modules[i]? = some x → ¬ g.Breaks i x rule) ↔ g.violations = [] := by
    rw [List.eq_nil_iff_forall_not_mem]
    simp only [mem_violations_iff_mem_visit, mem_visit_iff]
    constructor
    · rintro sound v ⟨i, x, here, -, -, broken⟩
      exact sound i x v.rule here broken
    · intro none i x rule here broken
      exact none ⟨x.name, x.file, rule⟩ ⟨i, x, here, rfl, rfl, broken⟩
  rw [listed, validate_eq]
  by_cases valid : g.violations = []
  · simp [valid]
  · simp [valid]

/-! ## Looking names up -/

/-- An index belongs to a name exactly when the module there has the name. -/
theorem mem_named_iff {i : Nat} {name : Text} :
    i ∈ g.named name ↔ ∃ x, g.modules[i]? = some x ∧ x.name = name := by
  rw [named, List.mem_filter, List.mem_range]
  constructor
  · rintro ⟨bound, isName⟩
    have here : g.modules[i]? = some g.modules[i] := List.getElem?_eq_getElem bound
    rw [here, Option.any_some, beq_iff_eq] at isName
    exact ⟨_, here, isName⟩
  · rintro ⟨x, here, rfl⟩
    exact ⟨lt_size_of_getElem? here, by simp [here]⟩

/-- The definitions at an index are those of the module there. -/
theorem mem_definitionsAt_iff {i : Nat} {d : Definition} :
    d ∈ g.definitionsAt i ↔ ∃ x, g.modules[i]? = some x ∧ d ∈ x.definitions := by
  rw [definitionsAt]
  cases g.modules[i]? with
  | none => simp
  | some x => simp

/-- The definitions with a name, in the whole graph. -/
def definitionsNamed (g : ModuleGraph) (name : QualifiedName) : List Definition :=
  (g.modules.flatMap SchemaModule.definitions).filter (·.name = name)

/-- A definition of a module is listed under its name. -/
theorem mem_definitionsNamed {i : Nat} {d : Definition} (mem : d ∈ g.definitionsAt i) :
    d ∈ g.definitionsNamed d.name := by
  rcases mem_definitionsAt_iff.mp mem with ⟨x, here, inside⟩
  refine List.mem_filter.mpr ⟨List.mem_flatMap.mpr ⟨x, List.mem_of_getElem? here, inside⟩, ?_⟩
  exact decide_eq_true rfl

/-- As many definitions are listed under a name as there are definitions of it. -/
theorem length_definitionsNamed (name : QualifiedName) :
    (g.definitionsNamed name).length = g.definedNames.count name := by
  rw [definitionsNamed, definedNames, List.count, List.countP_map, List.countP_eq_length_filter]
  congr 1

/-- A definition that shares its name with no other one is the only one with its name. -/
theorem definitionsNamed_eq_singleton {i : Nat} {d : Definition} (mem : d ∈ g.definitionsAt i)
    (once : ¬ 2 ≤ g.definedNames.count d.name) : g.definitionsNamed d.name = [d] := by
  have listed := mem_definitionsNamed mem
  rw [← length_definitionsNamed] at once
  rcases List.append_of_mem listed with ⟨before, after, split⟩
  rw [split, List.length_append, List.length_cons] at once
  have noneBefore : before = [] := List.length_eq_zero_iff.mp (by omega)
  have noneAfter : after = [] := List.length_eq_zero_iff.mp (by omega)
  rw [split, noneBefore, noneAfter, List.nil_append]

/-- A definition that is the only one with its name is found in the module that its name points to. -/
theorem lookup_eq_ok {j : Nat} {y : SchemaModule} {d : Definition} (there : g.modules[j]? = some y)
    (named : y.name = d.name.moduleName) (mem : d ∈ y.definitions)
    (isName : isModuleName d.name.moduleName = true) (identifier : isIdentifier d.name.localName = true)
    (unique : g.definitionsNamed d.name = [d]) : g.lookup d.name.render = .ok d := by
  have candidate : d ∈ (g.named d.name.moduleName).flatMap g.definitionsAt :=
    List.mem_flatMap.mpr ⟨j, mem_named_iff.mpr ⟨y, there, named⟩, mem_definitionsAt_iff.mpr ⟨y, there, mem⟩⟩
  rw [lookup, QualifiedName.parse_render isName identifier]
  dsimp only
  cases found : ((g.named d.name.moduleName).flatMap g.definitionsAt).find? (·.name = d.name) with
  | none => exact absurd (List.find?_eq_none.mp found d candidate) (by simp)
  | some e =>
    have same : e.name = d.name := by simpa using List.find?_some found
    rcases List.mem_flatMap.mp (List.mem_of_find?_eq_some found) with ⟨k, -, inside⟩
    have listed := mem_definitionsNamed inside
    rw [same, unique, List.mem_singleton] at listed
    rw [listed]

/-! ## References -/

/-- In a valid graph of modules that were read, each under a module name, every reference is looked up to a
definition with its name, which is the only one in the graph and belongs to a module that is accessible
from the module of the reference. -/
theorem lookup_reference_of_validate
    (parsed : ∀ x ∈ g.modules, ∃ moduleName file text, isModuleName moduleName = true ∧
      (SchemaModule.parse moduleName file text).outcome = .ok x)
    {h : ModuleGraph} (valid : g.validate.outcome = .ok h) {i : Nat} {x : SchemaModule}
    (here : g.modules[i]? = some x) {d : Definition} (mem : d ∈ x.definitions) {l : Location}
    {n : QualifiedName} (used : (TypeExpr.reference l n).Inside d.type) :
    ∃ e, g.lookup n.render = .ok e ∧ e.name = n ∧
      g.definitionsNamed n = [e] ∧ ∃ j ∈ g.accessible i, e ∈ g.definitionsAt j := by
  have sound := (validate_ok_iff.mp valid).2
  -- The rule on undefined types gives a definition, and the rule on repeated names that it is unique.
  have defined : ∃ j, g.Reaches i j ∧ ∃ e ∈ g.definitionsAt j, e.name = n := by
    by_contra missing
    refine sound i x (.undefinedType n) here ⟨⟨d, mem, l, used⟩, ?_⟩
    intro j path e inside same
    exact missing ⟨j, path, e, inside, same⟩
  rcases defined with ⟨j, path, e, inside, rfl⟩
  rcases mem_definitionsAt_iff.mp inside with ⟨y, there, makes⟩
  have once : ¬ 2 ≤ g.definedNames.count e.name := by
    intro repeated
    exact sound j y (.duplicateTypeName e.name) there ⟨⟨e, makes, rfl⟩, repeated⟩
  have unique := definitionsNamed_eq_singleton inside once
  rcases parsed y (List.mem_of_getElem? there) with ⟨moduleName, file, text, isName, read⟩
  rcases SchemaModule.parse_wellFormed read with ⟨wellFormed, named, -, -⟩
  have declared := (wellFormed.definition makes).name
  have inModule : y.name = e.name.moduleName := declared.inModule.symm
  rw [← named, inModule] at isName
  refine ⟨e, lookup_eq_ok there inModule makes isName declared.identifier unique, rfl, unique, j, ?_, inside⟩
  exact (mem_accessible_iff (lt_size_of_getElem? here)).mpr path

/-- A module that defines a record. -/
def pairSource : Text :=
  "language-version: 1.0.0\nencoding-version: 1.0.0\n---\ntype Pair = \x7b x : Int, y : Int \x7d\n"

/-- A module that refers to a record of another one. -/
def pairUserSource : Text :=
  "language-version: 1.0.0\nencoding-version: 1.0.0\n---\nimport data.pair\n" ++
    "type Use = \x7b here : Other?, there : \x7b[data.pair.Pair]\x7d \x7d\ntype Other = Int\n"

/-- A reference below a map and an array is found in the module that is imported. -/
theorem lookup_reference_of_validate_pair :
    ∃ a b h, (SchemaModule.parse "data.pair" "pair.theta" pairSource).outcome = .ok a ∧
      (SchemaModule.parse "user" "user.theta" pairUserSource).outcome = .ok b ∧
      (validate ⟨[b, a]⟩).outcome = .ok h ∧
      ∃ d ∈ b.definitions, ∃ l, (TypeExpr.reference l ⟨"data.pair", "Pair"⟩).Inside d.type ∧
        ∃ e, lookup ⟨[b, a]⟩ "data.pair.Pair" = .ok e ∧ e.name = ⟨"data.pair", "Pair"⟩ ∧
          definitionsNamed ⟨[b, a]⟩ ⟨"data.pair", "Pair"⟩ = [e] ∧
          ∃ j ∈ accessible ⟨[b, a]⟩ 0, e ∈ definitionsAt ⟨[b, a]⟩ j := by
  have readable : (SchemaModule.parse "data.pair" "pair.theta" pairSource).outcome.toOption.any (fun a =>
      (SchemaModule.parse "user" "user.theta" pairUserSource).outcome.toOption.any fun b =>
        (validate ⟨[b, a]⟩).outcome.toOption.any (fun _ => true) && b.definitions.any fun d =>
          d.type.sites.any fun
            | .reference _ n => decide (n = ⟨"data.pair", "Pair"⟩)
            | _ => false) = true := by
    decide +kernel
  rcases exists_ok_of_any readable with ⟨a, readA, rest⟩
  rcases exists_ok_of_any rest with ⟨b, readB, rest⟩
  rw [Bool.and_eq_true] at rest
  rcases exists_ok_of_any rest.1 with ⟨h, valid, -⟩
  rcases List.any_eq_true.mp rest.2 with ⟨d, mem, rest⟩
  rcases List.any_eq_true.mp rest with ⟨s, site, isReference⟩
  cases s with
  | record name fields => cases isReference
  | case variant earlier c => cases isReference
  | reference l n =>
    have same : n = ⟨"data.pair", "Pair"⟩ := of_decide_eq_true isReference
    subst same
    have used := TypeExpr.reference_mem_sites_iff.mp site
    refine ⟨a, b, h, readA, readB, valid, d, mem, l, used, lookup_reference_of_validate ?_ valid rfl mem used⟩
    intro x inGraph
    rcases List.mem_cons.mp inGraph with rfl | other
    · exact ⟨"user", _, _, by decide, readB⟩
    · rw [List.mem_singleton.mp other]
      exact ⟨"data.pair", _, _, by decide, readA⟩

end ModuleGraph
end ThetaSchema
