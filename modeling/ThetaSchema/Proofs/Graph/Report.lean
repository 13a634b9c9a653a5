import ThetaSchema.Proofs.Graph.Reordering
import ThetaSchema.Proofs.Graph.Visiting

/-!
# The report of a validation

Validation accepts a graph as it is when the graph has no violations, and reports nothing then.  Otherwise it
fails with the list of violations and reports each of them as an error, in the order of the list.  The report
on a violation is about the place where the violation was found first: sorting keeps findings of the same
violation in the order of visiting, and in modules that were read nothing comes between them.

Main results:

- `ModuleGraph.firstFound_of_mem_findings`: the findings that are kept are the first ones.
- `ModuleGraph.validate_report`: the place that each report is about.
-/

namespace ThetaSchema
namespace ModuleGraph

variable {g : ModuleGraph}

/-- The findings that are kept are the first ones of their violations in the order of visiting. -/
theorem firstFound_of_mem_findings (wellFormed : ∀ x ∈ g.modules, x.WellFormed) {f : Finding}
    (mem : f ∈ g.findings) : g.FirstFound f.violation f.location :=
  firstFound_of_find? (find?_visit_of_mem_findings (fun _ => visit_localTo wellFormed) mem)

/-- Of modules that were read, validation succeeds exactly when there are no violations, with the graph as it
is and without a report.  Otherwise it fails with the violations, and for each of them, in their order, it
reports an error with the message of the violation at the place where the violation is found first. -/
theorem validate_report
    (parsed : ∀ x ∈ g.modules, ∃ moduleName file text,
      (SchemaModule.parse moduleName file text).outcome = .ok x) :
    ((∃ h, g.validate.outcome = .ok h) ↔ g.violations = []) ∧
      (g.violations = [] → g.validate = ⟨[], .ok g⟩) ∧
      (g.violations ≠ [] → g.validate.outcome = .error (.invalidModules g.violations) ∧
        List.Forall₂ (fun v d => ∃ l, g.FirstFound v l ∧ d = ⟨.error, l, v.rule.message, 1⟩)
          g.violations g.validate.log) := by
  have wellFormed : ∀ x ∈ g.modules, x.WellFormed := by
    intro x mem
    rcases parsed x mem with ⟨moduleName, file, text, read⟩
    exact (SchemaModule.parse_wellFormed read).1
  by_cases valid : g.violations = []
  · have accepted : g.validate = ⟨[], .ok g⟩ := by rw [validate_eq, if_pos valid]
    refine ⟨iff_of_true ⟨g, by rw [accepted]⟩ valid, fun _ => accepted, fun invalid => ?_⟩
    exact absurd valid invalid
  · have refused : g.validate =
        ⟨g.findings.map Finding.diagnostic, .error (.invalidModules g.violations)⟩ := by
      rw [validate_eq, if_neg valid]
    have noSuccess : ¬ ∃ h, g.validate.outcome = .ok h := by
      rintro ⟨h, success⟩
      rw [refused] at success
      cases success
    refine ⟨iff_of_false noSuccess valid, fun none => absurd none valid, fun _ => ?_⟩
    rw [refused]
    refine ⟨rfl, ?_⟩
    rw [violations, List.forall₂_map_left_iff, List.forall₂_map_right_iff, List.forall₂_same]
    intro f mem
    exact ⟨f.location, firstFound_of_mem_findings wellFormed mem, rfl⟩

/-- Two copies of a module that was read, in which the walk finds something. -/
theorem validate_report_copies :
    ∃ a, (SchemaModule.parse "twice" "twice.theta" twiceSource).outcome = .ok a ∧
      (visit ⟨[a, a]⟩).length = 6 ∧ violations ⟨[a, a]⟩ ≠ [] ∧
      (validate ⟨[a, a]⟩).outcome = .error (.invalidModules (violations ⟨[a, a]⟩)) ∧
      List.Forall₂ (fun v d => ∃ l, FirstFound ⟨[a, a]⟩ v l ∧ d = ⟨.error, l, v.rule.message, 1⟩)
        (violations ⟨[a, a]⟩) (validate ⟨[a, a]⟩).log := by
  have readable : ((SchemaModule.parse "twice" "twice.theta" twiceSource).outcome.toOption.any fun a =>
      (visit ⟨[a, a]⟩).length == 6) = true := by
    decide +kernel
  rcases exists_ok_of_any readable with ⟨a, read, six⟩
  rw [beq_iff_eq] at six
  have parsed : ∀ x ∈ [a, a], ∃ moduleName file text,
      (SchemaModule.parse moduleName file text).outcome = .ok x := by
    intro x mem
    have same : x = a := by simpa using mem
    exact ⟨_, _, _, same ▸ read⟩
  have invalid : violations ⟨[a, a]⟩ ≠ [] := by
    intro none
    rw [violations_eq_nil_iff.mp none] at six
    cases six
  rcases (validate_report (g := ⟨[a, a]⟩) parsed).2.2 invalid with ⟨failed, reports⟩
  exact ⟨a, read, six, invalid, failed, reports⟩

end ModuleGraph
end ThetaSchema
