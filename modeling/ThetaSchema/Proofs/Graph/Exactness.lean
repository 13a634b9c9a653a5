import ThetaSchema.Proofs.Graph.Reachability
import ThetaSchema.Proofs.Graph.Sites

/-!
# Exactness of validation

A violation is listed exactly when a module of the graph breaks the rule.  What it means to break a rule is
said here without the walk, the search or the sets of names seen so far, and for graphs of any modules,
also of modules that were not read from a text.

Main definitions:

- `ModuleGraph.Breaks`: the module at an index breaks a rule.

Main results:

- `ModuleGraph.mem_visit_iff`: the walk finds exactly the broken rules.
- `Finding.mem_map_merge`: dropping repeated violations keeps every violation.
- `ModuleGraph.mem_violations_iff`: exactly the broken rules are listed.
- `ModuleGraph.validate_eq`: what validation answers and reports.
-/

namespace ThetaSchema

/-! ## Breaking a rule -/

namespace ModuleGraph

/-- The names of all definitions in the graph, with repetitions. -/
def definedNames (g : ModuleGraph) : List QualifiedName :=
  (g.modules.flatMap SchemaModule.definitions).map Definition.name

/-- The module `x` at the index `i` breaks a rule. -/
def Breaks (g : ModuleGraph) (i : Nat) (x : SchemaModule) : BrokenRule → Prop
  | .duplicateRecordField record field =>
    ∃ d ∈ x.definitions, ∃ l fields, (TypeExpr.record l record fields).Inside d.type ∧
      2 ≤ (fields.map FieldOf.name).count field
  | .duplicateCaseName variant case =>
    ∃ d ∈ x.definitions, ∃ l cases, (TypeExpr.variant l variant cases).Inside d.type ∧
      2 ≤ (cases.map CaseOf.name).count case
  | .duplicateCaseField variant case field =>
    ∃ d ∈ x.definitions, ∃ l cases, (TypeExpr.variant l variant cases).Inside d.type ∧
      ∃ c ∈ cases, c.name = case ∧ 2 ≤ (c.fields.map FieldOf.name).count field
  | .undefinedType name =>
    (∃ d ∈ x.definitions, ∃ l, (TypeExpr.reference l name).Inside d.type) ∧
      ∀ j, g.Reaches i j → ∀ d ∈ g.definitionsAt j, d.name ≠ name
  | .duplicateTypeName name => (∃ d ∈ x.definitions, d.name = name) ∧ 2 ≤ g.definedNames.count name

end ModuleGraph

/-! ## Breaches at sites -/

section

variable {visible : List QualifiedName} {rule : BrokenRule}

/-- A reference breaks a rule exactly when nothing of its name can be seen. -/
theorem reference_breach_iff {l : Location} {name : QualifiedName} :
    (∃ b ∈ (Site.reference l name).breaches visible, b.rule = rule) ↔
      rule = .undefinedType name ∧ name ∉ visible := by
  rw [Site.breaches]
  by_cases seen : name ∈ visible
  · rw [if_pos (List.contains_iff_mem.mpr seen)]
    simp [seen]
  · rw [if_neg (by simpa using seen)]
    simp [seen, @eq_comm _ rule]

/-- The fields of a list whose name is repeated, as rules. -/
theorem field_breach_iff {fields : List RecordField} (make : Text → BrokenRule) :
    (∃ b ∈ (secondOccurrences FieldOf.name fields).map fun f => (⟨make f.name, f.location⟩ : Breach),
      b.rule = rule) ↔ ∃ f, rule = make f ∧ 2 ≤ (fields.map FieldOf.name).count f := by
  constructor
  · rintro ⟨b, mem, rfl⟩
    rcases List.mem_map.mp mem with ⟨f, second, rfl⟩
    exact ⟨f.name, rfl, mem_map_secondOccurrences.mp (List.mem_map_of_mem second)⟩
  · rintro ⟨name, rfl, repeated⟩
    rcases List.mem_map.mp (mem_map_secondOccurrences.mpr repeated) with ⟨f, second, rfl⟩
    exact ⟨_, List.mem_map_of_mem second, rfl⟩

/-- A case breaks a rule for its name at its second occurrence, and for each of its fields that is repeated. -/
theorem case_breach_iff {variant : QualifiedName} {earlier : List QualifiedName} {c : VariantCase} :
    (∃ b ∈ (Site.case variant earlier c).breaches visible, b.rule = rule) ↔
      (rule = .duplicateCaseName variant c.name ∧ earlier.count c.name = 1) ∨
        ∃ f, rule = .duplicateCaseField variant c.name f ∧ 2 ≤ (c.fields.map FieldOf.name).count f := by
  rw [← field_breach_iff (BrokenRule.duplicateCaseField variant c.name), Site.breaches]
  simp only [List.mem_append, or_and_right, exists_or]
  have name : (∃ b ∈ (if earlier.count c.name = 1 then
      [(⟨.duplicateCaseName variant c.name, c.location⟩ : Breach)] else []), b.rule = rule) ↔
      rule = .duplicateCaseName variant c.name ∧ earlier.count c.name = 1 := by
    by_cases second : earlier.count c.name = 1
    · simp [second, @eq_comm _ rule]
    · simp [second]
  rw [name]

/-- The cases of a variant show a repeated name, or a field that is repeated in one of them. -/
theorem variant_breach_iff {variant : QualifiedName} {cases : List VariantCase} :
    (∃ s ∈ caseHeads variant [] cases, ∃ b ∈ s.breaches visible, b.rule = rule) ↔
      (∃ c, rule = .duplicateCaseName variant c ∧ 2 ≤ (cases.map CaseOf.name).count c) ∨
        ∃ c ∈ cases, ∃ f, rule = .duplicateCaseField variant c.name f ∧
          2 ≤ (c.fields.map FieldOf.name).count f := by
  simp only [mem_caseHeads_iff, List.nil_append]
  constructor
  · rintro ⟨_, ⟨before, c, after, rfl, rfl⟩, broken⟩
    rcases case_breach_iff.mp broken with ⟨same, once⟩ | ⟨f, same, repeated⟩
    · exact .inl ⟨c.name, same, exists_second_iff.mp ⟨before, c, after, rfl, rfl, once⟩⟩
    · exact .inr ⟨c, by simp, f, same, repeated⟩
  · rintro (⟨name, same, repeated⟩ | ⟨c, mem, f, same, repeated⟩)
    · rcases exists_second_iff.mpr repeated with ⟨before, c, after, split, rfl, once⟩
      exact ⟨_, ⟨before, c, after, split, rfl⟩, case_breach_iff.mpr (.inl ⟨same, once⟩)⟩
    · rcases List.append_of_mem mem with ⟨before, after, split⟩
      exact ⟨_, ⟨before, c, after, split, rfl⟩, case_breach_iff.mpr (.inr ⟨f, same, repeated⟩)⟩

/-- A type breaks a rule by itself, without its parts. -/
def TypeExpr.RootBreaks (visible : List QualifiedName) (rule : BrokenRule) : TypeExpr → Prop
  | .reference _ name => rule = .undefinedType name ∧ name ∉ visible
  | .record _ name fields =>
    ∃ f, rule = .duplicateRecordField name f ∧ 2 ≤ (fields.map FieldOf.name).count f
  | .variant _ name cases =>
    (∃ c, rule = .duplicateCaseName name c ∧ 2 ≤ (cases.map CaseOf.name).count c) ∨
      ∃ c ∈ cases, ∃ f, rule = .duplicateCaseField name c.name f ∧ 2 ≤ (c.fields.map FieldOf.name).count f
  | _ => False

/-- The sites of a node show what the node breaks, leaving its parts aside. -/
theorem rootSites_breach_iff (u : TypeExpr) :
    (∃ s ∈ u.rootSites, ∃ b ∈ s.breaches visible, b.rule = rule) ↔ u.RootBreaks visible rule := by
  cases u with
  | reference l name =>
    rw [TypeExpr.RootBreaks, ← reference_breach_iff (l := l)]
    simp [TypeExpr.rootSites]
  | record l name fields =>
    rw [TypeExpr.RootBreaks, ← field_breach_iff (BrokenRule.duplicateRecordField name)]
    simp only [TypeExpr.rootSites, List.mem_singleton, exists_eq_left]
    rfl
  | variant l name cases => exact variant_breach_iff
  | absent | primitive | fixed | array | map | optional | enumeration | newtype =>
    simp [TypeExpr.rootSites, TypeExpr.RootBreaks]

/-- The walk through a type finds a breach of a rule exactly when something in the type breaks it. -/
theorem type_breach_iff (e : TypeExpr) :
    (∃ b ∈ e.sites.flatMap (Site.breaches visible), b.rule = rule) ↔
      ∃ u : TypeExpr, u.Inside e ∧ u.RootBreaks visible rule := by
  simp only [← rootSites_breach_iff]
  constructor
  · rintro ⟨b, mem, same⟩
    rcases List.mem_flatMap.mp mem with ⟨s, site, here⟩
    rcases (TypeExpr.mem_sites_iff s e).mp site with ⟨u, inside, root⟩
    exact ⟨u, inside, s, root, b, here, same⟩
  · rintro ⟨u, inside, s, root, b, here, same⟩
    have site := (TypeExpr.mem_sites_iff s e).mpr ⟨u, inside, root⟩
    exact ⟨b, List.mem_flatMap.mpr ⟨s, site, here⟩, same⟩

end

/-! ## The walk -/

namespace ModuleGraph

variable {g : ModuleGraph}

/-- What can be seen from a module is what the modules define that its imports lead to. -/
theorem mem_visible_iff {i : Nat} {name : QualifiedName} (valid : i < g.size) :
    name ∈ g.visible i ↔ ∃ j, g.Reaches i j ∧ ∃ d ∈ g.definitionsAt j, d.name = name := by
  simp only [visible, List.mem_map, List.mem_flatMap, mem_accessible_iff valid]
  constructor
  · rintro ⟨d, ⟨j, path, mem⟩, same⟩
    exact ⟨j, path, d, mem, same⟩
  · rintro ⟨j, path, d, mem, same⟩
    exact ⟨d, ⟨j, path, mem⟩, same⟩

/-- A definition of a module shows a breach exactly when the module breaks the rule; that a name is defined
elsewhere too shows in no definition. -/
theorem module_breach_iff {i : Nat} {x : SchemaModule} (valid : i < g.size) {rule : BrokenRule} :
    (∃ d ∈ x.definitions, ∃ b ∈ d.type.sites.flatMap (Site.breaches (g.visible i)), b.rule = rule) ↔
      g.Breaks i x rule ∧ ∀ name, rule ≠ .duplicateTypeName name := by
  simp only [type_breach_iff]
  constructor
  · rintro ⟨d, mem, u, inside, broken⟩
    cases u with
    | reference l name =>
      rcases broken with ⟨rfl, unseen⟩
      refine ⟨⟨⟨d, mem, l, inside⟩, ?_⟩, by simp⟩
      intro j path e here same
      exact unseen ((mem_visible_iff valid).mpr ⟨j, path, e, here, same⟩)
    | record l name fields =>
      rcases broken with ⟨f, rfl, repeated⟩
      exact ⟨⟨d, mem, l, fields, inside, repeated⟩, by simp⟩
    | variant l name cases =>
      rcases broken with ⟨c, rfl, repeated⟩ | ⟨c, inCases, f, rfl, repeated⟩
      · exact ⟨⟨d, mem, l, cases, inside, repeated⟩, by simp⟩
      · exact ⟨⟨d, mem, l, cases, inside, c, inCases, rfl, repeated⟩, by simp⟩
    | absent | primitive | fixed | array | map | optional | enumeration | newtype => cases broken
  · rintro ⟨broken, notGlobal⟩
    cases rule with
    | duplicateRecordField record field =>
      rcases broken with ⟨d, mem, l, fields, inside, repeated⟩
      exact ⟨d, mem, _, inside, field, rfl, repeated⟩
    | duplicateCaseName variant case =>
      rcases broken with ⟨d, mem, l, cases, inside, repeated⟩
      exact ⟨d, mem, _, inside, .inl ⟨case, rfl, repeated⟩⟩
    | duplicateCaseField variant case field =>
      rcases broken with ⟨d, mem, l, cases, inside, c, inCases, rfl, repeated⟩
      exact ⟨d, mem, _, inside, .inr ⟨c, inCases, field, rfl, repeated⟩⟩
    | undefinedType name =>
      rcases broken with ⟨⟨d, mem, l, inside⟩, nowhere⟩
      refine ⟨d, mem, _, inside, rfl, ?_⟩
      intro seen
      rcases (mem_visible_iff valid).mp seen with ⟨j, path, e, here, same⟩
      exact nowhere j path e here same
    | duplicateTypeName name => exact absurd rfl (notGlobal name)

/-! ### Repeated names -/

theorem mem_insertSorted_iff {n a : QualifiedName} {names : List QualifiedName} :
    a ∈ QualifiedName.insertSorted n names ↔ a = n ∨ a ∈ names := by
  induction names with
  | nil => simp [QualifiedName.insertSorted]
  | cons b names ih =>
    rw [QualifiedName.insertSorted]
    by_cases less : n < b
    · rw [if_pos less, List.mem_cons]
    · rw [if_neg less]
      by_cases same : n = b
      · rw [if_pos same]
        simp [same]
      · rw [if_neg same, List.mem_cons, ih, List.mem_cons]
        exact or_left_comm

/-- Sorting names drops none of them and adds none. -/
theorem mem_sorted_iff {a : QualifiedName} {names : List QualifiedName} :
    a ∈ QualifiedName.sorted names ↔ a ∈ names := by
  induction names with
  | nil => exact Iff.rfl
  | cons n names ih =>
    rw [QualifiedName.sorted, List.foldr_cons, mem_insertSorted_iff, List.mem_cons]
    exact or_congr_right ih

/-- A name is repeated if it is defined twice at least. -/
theorem mem_repeatedNames_iff {name : QualifiedName} :
    name ∈ g.repeatedNames ↔ 2 ≤ g.definedNames.count name := by
  have second : name ∈ (secondOccurrences id g.definedNames).map id ↔ 2 ≤ (g.definedNames.map id).count name :=
    mem_map_secondOccurrences
  rw [List.map_id, List.map_id] at second
  rw [repeatedNames, mem_sorted_iff]
  exact second

/-- A repeated name is found in each module that defines it. -/
theorem repetition_breach_iff {v : Violation} :
    (∃ f ∈ g.repeatedNames.flatMap g.repetitionFindings, f.violation = v) ↔
      ∃ x ∈ g.modules, ∃ name, v = ⟨x.name, x.file, .duplicateTypeName name⟩ ∧
        (∃ d ∈ x.definitions, d.name = name) ∧ 2 ≤ g.definedNames.count name := by
  constructor
  · rintro ⟨f, mem, rfl⟩
    rcases List.mem_flatMap.mp mem with ⟨name, repeated, here⟩
    rcases List.mem_filterMap.mp here with ⟨x, inGraph, found⟩
    rcases Option.map_eq_some_iff.mp found with ⟨d, first, rfl⟩
    have defines : d.name = name := by simpa using List.find?_some first
    exact ⟨x, inGraph, name, rfl, ⟨d, List.mem_of_find?_eq_some first, defines⟩,
      mem_repeatedNames_iff.mp repeated⟩
  · rintro ⟨x, inGraph, name, rfl, ⟨d, mem, defines⟩, repeated⟩
    have found : (x.definitions.find? (·.name = name)).isSome = true := by
      rw [List.find?_isSome]
      exact ⟨d, mem, by simpa using defines⟩
    rcases Option.isSome_iff_exists.mp found with ⟨first, same⟩
    refine ⟨Finding.ofBreach x ⟨.duplicateTypeName name, first.location⟩, ?_, rfl⟩
    refine List.mem_flatMap.mpr ⟨name, mem_repeatedNames_iff.mpr repeated, ?_⟩
    exact List.mem_filterMap.mpr ⟨x, inGraph, by rw [same]; rfl⟩

/-! ### Every breach -/

/-- The findings in a module are those that its definitions show. -/
theorem moduleFindings_breach_iff {i : Nat} {x : SchemaModule} (valid : i < g.size) {v : Violation} :
    (∃ f ∈ g.moduleFindings i x, f.violation = v) ↔ v.moduleName = x.name ∧ v.file = x.file ∧
      g.Breaks i x v.rule ∧ ∀ name, v.rule ≠ .duplicateTypeName name := by
  rw [← module_breach_iff valid]
  simp only [moduleFindings, List.mem_map, List.mem_flatMap]
  constructor
  · rintro ⟨_, ⟨b, ⟨d, mem, s, site, here⟩, rfl⟩, rfl⟩
    exact ⟨rfl, rfl, d, mem, b, ⟨s, site, here⟩, rfl⟩
  · rintro ⟨named, filed, d, mem, b, ⟨s, site, here⟩, rule⟩
    refine ⟨_, ⟨b, ⟨d, mem, s, site, here⟩, rfl⟩, ?_⟩
    rcases v with ⟨moduleName, file, r⟩
    simp only [Finding.ofBreach, Violation.mk.injEq]
    exact ⟨named.symm, filed.symm, rule⟩

theorem lt_size_of_getElem? {i : Nat} {x : SchemaModule} (here : g.modules[i]? = some x) : i < g.size := by
  rcases List.getElem?_eq_some_iff.mp here with ⟨bound, -⟩
  exact bound

/-- The walk finds exactly the broken rules. -/
theorem mem_visit_iff {v : Violation} :
    (∃ f ∈ g.visit, f.violation = v) ↔ ∃ i x, g.modules[i]? = some x ∧ v.moduleName = x.name ∧
      v.file = x.file ∧ g.Breaks i x v.rule := by
  simp only [visit, List.mem_append, or_and_right, exists_or]
  rw [repetition_breach_iff]
  constructor
  · rintro (⟨f, mem, same⟩ | ⟨x, mem, name, rfl, defines, repeated⟩)
    · rcases List.mem_flatMap.mp mem with ⟨⟨x, i⟩, inGraph, here⟩
      have index := List.mem_zipIdx_iff_getElem?.mp inGraph
      rcases (moduleFindings_breach_iff (lt_size_of_getElem? index)).mp ⟨f, here, same⟩ with
        ⟨named, filed, broken, -⟩
      exact ⟨i, x, index, named, filed, broken⟩
    · rcases List.mem_iff_getElem?.mp mem with ⟨i, index⟩
      exact ⟨i, x, index, rfl, rfl, defines, repeated⟩
  · rintro ⟨i, x, index, named, filed, broken⟩
    by_cases global : ∃ name, v.rule = .duplicateTypeName name
    · right
      rcases global with ⟨name, rule⟩
      rw [rule] at broken
      refine ⟨x, List.mem_of_getElem? index, name, ?_, broken⟩
      rcases v with ⟨moduleName, file, r⟩
      rw [Violation.mk.injEq]
      exact ⟨named, filed, rule⟩
    · left
      have notGlobal : ∀ name, v.rule ≠ .duplicateTypeName name := fun name rule => global ⟨name, rule⟩
      rcases (moduleFindings_breach_iff (lt_size_of_getElem? index)).mpr
        ⟨named, filed, broken, notGlobal⟩ with ⟨f, here, same⟩
      have inGraph : (x, i) ∈ g.modules.zipIdx := List.mem_zipIdx_iff_getElem?.mpr index
      exact ⟨f, List.mem_flatMap.mpr ⟨(x, i), inGraph, here⟩, same⟩

end ModuleGraph

/-! ## The list of violations -/

/-- Dropping findings whose violation is repeated keeps every violation. -/
theorem Finding.mem_map_merge {fs : List Finding} {v : Violation} :
    v ∈ (merge fs).map violation ↔ v ∈ fs.map violation := by
  fun_induction merge fs with
  | case1 => exact Iff.rfl
  | case2 f => exact Iff.rfl
  | case3 f g rest same ih =>
    rw [ih, List.map_cons, List.map_cons, List.map_cons, ← same]
    simp
  | case4 f g rest other ih =>
    rw [List.map_cons, List.mem_cons, ih, List.map_cons (a := f), List.mem_cons]

/-- Sorting by violations drops none of the items and adds none. -/
theorem Violation.mem_sortBy {α : Type} {key : α → Violation} {items : List α} {a : α} :
    a ∈ sortBy key items ↔ a ∈ items :=
  List.mem_mergeSort

namespace ModuleGraph

/-- Sorting and dropping repetitions keeps what the walk finds. -/
theorem mem_violations_iff_mem_visit {g : ModuleGraph} {v : Violation} :
    v ∈ g.violations ↔ ∃ f ∈ g.visit, f.violation = v := by
  rw [violations, findings, Finding.mem_map_merge, List.mem_map]
  simp only [Violation.mem_sortBy]

/-- Exactly the broken rules are listed, each with the name and the file of the module that breaks it. -/
theorem mem_violations_iff (g : ModuleGraph) (v : Violation) :
    v ∈ g.violations ↔ ∃ i x, g.modules[i]? = some x ∧ v.moduleName = x.name ∧ v.file = x.file ∧
      g.Breaks i x v.rule := by
  rw [mem_violations_iff_mem_visit, mem_visit_iff]

variable {g : ModuleGraph}

/-- Nothing is found exactly where nothing is violated. -/
theorem findings_eq_nil_iff : g.findings = [] ↔ g.violations = [] := by
  rw [violations, List.map_eq_nil_iff]

/-- There are violations as soon as the walk finds anything. -/
theorem violations_eq_nil_iff : g.violations = [] ↔ g.visit = [] := by
  simp only [List.eq_nil_iff_forall_not_mem, mem_violations_iff_mem_visit]
  constructor
  · intro none f found
    exact none f.violation ⟨f, found, rfl⟩
  · rintro none v ⟨f, found, -⟩
    exact none f found

/-- Validation accepts a graph as it is, or fails with its violations and reports every finding. -/
theorem validate_eq (g : ModuleGraph) :
    g.validate = if g.violations = [] then ⟨[], .ok g⟩
      else ⟨g.findings.map Finding.diagnostic, .error (.invalidModules g.violations)⟩ := by
  rw [validate]
  by_cases none : g.findings = []
  · rw [if_pos (List.isEmpty_iff.mpr none), if_pos (findings_eq_nil_iff.mp none)]
    rfl
  · rw [if_neg (by rwa [List.isEmpty_iff]), if_neg (by rwa [← findings_eq_nil_iff])]
    rfl

end ModuleGraph

end ThetaSchema
