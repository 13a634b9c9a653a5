import ThetaSchema.Diagnostic
import ThetaSchema.Graph.Basic

/-!
# Validation

The rules of well-formedness: names in a record, in a variant and in a case are distinct, every reference
names a definition of an accessible module, and no name is defined twice in the whole graph.  Every
module is checked, and every breach is reported at the place that shows it.

Main definitions:

- `TypeExpr.sites`: the places in a type at which rules apply.
- `ModuleGraph.findings`: every breach of a rule, in the order of reports, with its location.
- `ModuleGraph.violations`, `ModuleGraph.validate`: the violations alone, and validation with its report.
-/

namespace ThetaSchema

/-! ## Repeated names -/

/-- The items whose key occurred exactly once among the items before them, so the second one with each
key that is repeated. -/
def secondOccurrencesAfter [DecidableEq κ] (key : α → κ) (earlier : List κ) : List α → List α
  | [] => []
  | a :: rest =>
    if earlier.count (key a) = 1 then a :: secondOccurrencesAfter key (earlier ++ [key a]) rest
    else secondOccurrencesAfter key (earlier ++ [key a]) rest

/-- The second item with each key that is repeated. -/
def secondOccurrences [DecidableEq κ] (key : α → κ) (items : List α) : List α :=
  secondOccurrencesAfter key [] items

/-! ## Sites -/

/-- A place in a type at which a rule applies: a reference, a record, or a case of a variant with the
names of the cases before it. -/
inductive Site where
  | reference (location : Location) (name : QualifiedName)
  | record (name : QualifiedName) (fields : List RecordField)
  | case (variant : QualifiedName) (earlier : List QualifiedName) (case : VariantCase)
  deriving Repr

mutual

/-- The sites of a type, each before those inside it. -/
def TypeExpr.sites : TypeExpr → List Site
  | .absent | .primitive _ _ | .fixed _ _ | .enumeration _ _ _ => []
  | .array _ e | .map _ e | .optional _ e | .newtype _ _ e => e.sites
  | .reference location name => [.reference location name]
  | .record _ name fields => .record name fields :: fieldSites fields
  | .variant _ name cases => caseSites name [] cases

/-- The sites of the types of fields. -/
def fieldSites : List (FieldOf TypeExpr) → List Site
  | [] => []
  | ⟨_, _, _, type⟩ :: fields => type.sites ++ fieldSites fields

/-- The sites of cases that follow cases with given names. -/
def caseSites (variant : QualifiedName) (earlier : List QualifiedName) :
    List (CaseOf TypeExpr) → List Site
  | [] => []
  | ⟨location, name, doc, fields⟩ :: cases =>
    .case variant earlier ⟨location, name, doc, fields⟩ :: fieldSites fields ++
      caseSites variant (earlier ++ [name]) cases

end

/-! ## Findings -/

/-- A broken rule and the place that shows it. -/
structure Breach where
  rule : BrokenRule
  location : Location
  deriving DecidableEq, Repr

/-- The breaches at a site, where `visible` are the names that references may use. -/
def Site.breaches (visible : List QualifiedName) : Site → List Breach
  | .reference location name => if visible.contains name then [] else [⟨.undefinedType name, location⟩]
  | .record name fields =>
    (secondOccurrences FieldOf.name fields).map fun f => ⟨.duplicateRecordField name f.name, f.location⟩
  | .case variant earlier c =>
    (if earlier.count c.name = 1 then [⟨.duplicateCaseName variant c.name, c.location⟩] else []) ++
      (secondOccurrences FieldOf.name c.fields).map fun f =>
        ⟨.duplicateCaseField variant c.name f.name, f.location⟩

/-- A violation and the place that shows it. -/
structure Finding where
  violation : Violation
  location : Location
  deriving DecidableEq, Repr

namespace Finding

/-- A breach in a module. -/
def ofBreach (m : SchemaModule) (b : Breach) : Finding :=
  ⟨⟨m.name, m.file, b.rule⟩, b.location⟩

/-- The diagnostic about a finding. -/
def diagnostic (f : Finding) : Diagnostic :=
  ⟨.error, f.location, f.violation.rule.message, 1⟩

/-- Drops findings whose violation is that of the finding before them. -/
def merge : List Finding → List Finding
  | [] => []
  | [f] => [f]
  | f :: g :: rest =>
    if f.violation = g.violation then merge (f :: rest) else f :: merge (g :: rest)
termination_by fs => fs.length

end Finding

namespace ModuleGraph

/-- The names that references in the module at an index may use. -/
def visible (g : ModuleGraph) (i : Nat) : List QualifiedName :=
  ((g.accessible i).flatMap g.definitionsAt).map Definition.name

/-- The breaches of rules inside a module. -/
def moduleFindings (g : ModuleGraph) (i : Nat) (m : SchemaModule) : List Finding :=
  let names := g.visible i
  (m.definitions.flatMap fun d => d.type.sites.flatMap (Site.breaches names)).map (Finding.ofBreach m)

/-- The names that are defined more than once in the whole graph, in ascending order. -/
def repeatedNames (g : ModuleGraph) : List QualifiedName :=
  QualifiedName.sorted ((secondOccurrences id ((g.modules.flatMap SchemaModule.definitions).map Definition.name)))

/-- A name that is defined more than once in the graph, as a finding for each module that defines it, at
the first definition there. -/
def repetitionFindings (g : ModuleGraph) (name : QualifiedName) : List Finding :=
  g.modules.filterMap fun m =>
    (m.definitions.find? (·.name = name)).map fun d => .ofBreach m ⟨.duplicateTypeName name, d.location⟩

/-- Every breach of a rule in the order of visiting: module by module, and repeated names at the end. -/
def visit (g : ModuleGraph) : List Finding :=
  (g.modules.zipIdx.flatMap fun (m, i) => g.moduleFindings i m) ++ g.repeatedNames.flatMap g.repetitionFindings

/-- Every violation once, in the order of reports, at the place where it was found first. -/
def findings (g : ModuleGraph) : List Finding :=
  Finding.merge (Violation.sortBy Finding.violation g.visit)

/-- The violations of a graph, in the order of reports. -/
def violations (g : ModuleGraph) : List Violation :=
  g.findings.map Finding.violation

/-- Accepts a graph without violations; otherwise each violation is reported as an error. -/
def validate (g : ModuleGraph) : Logged ModuleGraph :=
  if g.findings.isEmpty then .succeed g
  else ⟨g.findings.map fun f => f.diagnostic.recorded, .error (.invalidModules g.violations)⟩

end ModuleGraph

end ThetaSchema
