import ThetaSchema.Command.Run
import ThetaSchema.Proofs.Graph.Report
import ThetaSchema.Proofs.Loading.Roots

/-!
# Checks of the same roots

A check says how many modules it validated, or which rules they break, and neither depends on the order in
which the modules were loaded.  So a check answers alike for the same roots in any order and however often
they are given.

Main definitions:

- `Command.Options.directories`: where modules are looked for.
- `Command.SameRoots`: options that ask quietly for the same modules.

Main results:

- `ModuleGraph.Reordered.violations_eq`: the violations of modules that were read do not depend on the order.
- `Command.finish_ok`, `Command.finish_check`: the answer of a run, and of a check, once the modules are loaded.
- `Command.run_of_read`, `Command.run_check`: a run, and a check, after their options were read.
- `Command.check_sameRoots`: checks of the same roots answer alike.
-/

namespace ThetaSchema

/-! ## Violations -/

theorem ModuleGraph.reordered_of_perm {g h : ModuleGraph} (perm : g.modules.Perm h.modules) :
    g.Reordered h :=
  ⟨h.modules, perm, List.forall₂_same.mpr fun _ _ => ⟨rfl, rfl, .refl _⟩⟩

/-- Well-formed modules have the same violations in any order. -/
theorem ModuleGraph.Reordered.violations_eq {g h : ModuleGraph} (order : g.Reordered h)
    (wellFormed : ∀ x ∈ g.modules, x.WellFormed) (wellFormed' : ∀ x ∈ h.modules, x.WellFormed) :
    g.violations = h.violations := by
  have ascending := violations_pairwise fun f => visit_localTo (f := f) wellFormed
  have ascending' := violations_pairwise fun f => visit_localTo (f := f) wellFormed'
  refine Violation.eq_of_ascending ascending ascending' fun v => ?_
  rw [mem_violations_iff_mem_visit, mem_violations_iff_mem_visit]
  exact ⟨order.mem_visit, order.symm.mem_visit⟩

/-- Modules that were loaded are well-formed. -/
theorem ModuleGraph.Closure.wellFormed {tree : FileTree} {loadPath roots : List Text} {g : ModuleGraph}
    (h : g.Closure (loadModule tree.lookup loadPath) roots) : ∀ x ∈ g.modules, x.WellFormed := by
  intro x mem
  obtain ⟨relative, path, content, -, -, read⟩ := loadModule_ok_iff.mp ((h.members x).mp mem).2
  exact (SchemaModule.parse_wellFormed read).1

namespace Command

/-! ## Notices -/

/-- Errors are no notices, and notes are only on request. -/
theorem notices_eq_nil {verbose : Bool} {log : Log}
    (h : ∀ d ∈ log, d.severity = .error ∨ d.severity = .note ∧ verbose = false) : notices verbose log = [] := by
  have none : log.filter (fun d => d.severity = .warning || (d.severity = .note && verbose)) = [] := by
    rw [List.filter_eq_nil_iff]
    intro d mem
    rcases h d mem with error | ⟨note, quiet⟩
    · simp [error]
    · simp [note, quiet]
  rw [notices, none]
  rfl

theorem notices_append (verbose : Bool) (log more : Log) :
    notices verbose (log ++ more) = notices verbose log ++ notices verbose more := by
  rw [notices, List.filter_append, List.flatMap_append]
  rfl

/-- Validation reports nothing but errors. -/
theorem severity_of_mem_validate_log {g : ModuleGraph} {d : Diagnostic} (h : d ∈ g.validate.log) :
    d.severity = .error := by
  unfold ModuleGraph.validate at h
  split at h
  · cases h
  · obtain ⟨f, -, rfl⟩ := List.mem_map.mp h
    rfl

/-- Once modules are loaded, a run reports nothing but errors. -/
theorem Plan.severity_of_mem_result_log {p : Plan} {g : ModuleGraph} {d : Diagnostic}
    (h : d ∈ (p.result g).log) : d.severity = .error := by
  unfold Plan.result Logged.andThen at h
  split at h
  · cases h
  all_goals
    split at h
    · rcases List.mem_append.mp h with checking | after
      · exact severity_of_mem_validate_log checking
      · cases after
    · exact severity_of_mem_validate_log h

/-! ## Answers -/

/-- The answer about modules that are loaded. -/
theorem finish_ok {p : Plan} {loaded : Logged ModuleGraph} {g : ModuleGraph}
    (success : loaded.outcome = .ok g) :
    p.finish loaded =
      match (p.result g).outcome with
      | .ok out => .success p.verbose loaded.log out
      | .error e => .failure p.verbose loaded.log e := by
  have same : notices p.verbose (loaded.log ++ (p.result g).log) = notices p.verbose loaded.log := by
    rw [notices_append, notices_eq_nil fun d mem => .inl (Plan.severity_of_mem_result_log mem), List.append_nil]
  rw [Plan.finish, Logged.andThen_ok success]
  dsimp only
  cases (p.result g).outcome with
  | ok out => simp only [Answer.success, same]
  | error e => simp only [Answer.failure, same]

/-- A run that cannot load its modules fails without output. -/
theorem finish_error {p : Plan} {loaded : Logged ModuleGraph} {e : SchemaError}
    (failed : loaded.outcome = .error e) : p.finish loaded = .failure p.verbose loaded.log e := by
  rw [Plan.finish, Logged.andThen_error failed]

theorem validate_outcome (g : ModuleGraph) :
    g.validate.outcome = if g.violations = [] then .ok g else .error (.invalidModules g.violations) := by
  rw [g.validate_eq]
  split <;> rfl

/-- The line that a check without violations prints. -/
def validatedLine (size : Nat) : Text :=
  "validated " ++ Decimal.render size ++ " module(s)\n"

/-- The answer of a quiet check once the modules are loaded, with notes alone on the way. -/
theorem finish_check {p : Plan} (check : p.subcommand = .check) (quiet : p.verbose = false)
    {loaded : Logged ModuleGraph} {g : ModuleGraph} (success : loaded.outcome = .ok g)
    (noted : ∀ d ∈ loaded.log, d.severity = .note) :
    p.finish loaded =
      if g.violations = [] then ⟨0, validatedLine g.size, []⟩
      else ⟨1, [], (SchemaError.invalidModules g.violations).message ++ "\n"⟩ := by
  have result : (p.result g).outcome = g.validate.outcome.map fun valid => validatedLine valid.size := by
    rw [Plan.result, check]
    exact congrArg Logged.outcome (Logged.andThen_succeed g.validate _)
  have silent : notices p.verbose loaded.log = [] := notices_eq_nil fun d mem => .inr ⟨noted d mem, quiet⟩
  rw [finish_ok success, result, validate_outcome]
  by_cases valid : g.violations = []
  · rw [if_pos valid, if_pos valid]
    simp only [Except.map, Answer.success, silent]
  · rw [if_neg valid, if_neg valid]
    simp only [Except.map, Answer.failure, silent, List.nil_append]

/-! ## Checks from their arguments -/

/-- The directories that modules are looked for in: the current one if none is given. -/
def Options.directories (o : Options) : List Text :=
  if o.loadPath.isEmpty then ["."] else o.loadPath

/-- A word that names a subcommand does not ask for help. -/
theorem Subcommand.noHelp_of_ofText? {word : Text} {c : Subcommand} (h : ofText? word = some c) :
    ¬ (isHelpOption word || word == ("help" : Text)) = true := by
  unfold ofText? at h
  split at h
  · next isAst => rw [isAst]; decide
  · split at h
    · next isCheck => rw [isCheck]; decide
    · split at h
      · next isShow => rw [isShow]; decide
      · cases h

/-- What a run does once its subcommand and its options are read. -/
theorem run_of_read {tree : FileTree} {word : Text} {args : List Text} {c : Subcommand} {o : Options}
    (named : Subcommand.ofText? word = some c) (read : readOptions {} args = .ok o) :
    run tree (word :: args) =
      if o.help then .help
      else
        match rootsOf c o with
        | .error a => a
        | .ok roots => Plan.finish ⟨c, o.typeName, o.verbose, o.directories, roots⟩
            (loadGraph tree o.directories roots) := by
  have planned : plan (word :: args) = planWith c o := by
    rw [plan, if_neg (Subcommand.noHelp_of_ofText? named), named]
    dsimp only
    rw [read]
  rw [run, planned, planWith]
  by_cases help : o.help = true
  · rw [if_pos help, if_pos help]
  · rw [if_neg help, if_neg help]
    cases rootsOf c o <;> rfl

/-- What a check does once its options are read. -/
theorem run_check {tree : FileTree} {args : List Text} {o : Options} (read : readOptions {} args = .ok o) :
    run tree ("check" :: args) =
      if o.help then .help
      else if o.modules = [] then .mistake .missingModules
      else Plan.finish ⟨.check, o.typeName, o.verbose, o.directories, o.modules⟩
        (loadGraph tree o.directories o.modules) := by
  rw [run_of_read (show Subcommand.ofText? "check" = some .check by decide) read]
  by_cases none : o.modules = []
  · have roots : rootsOf .check o = .error (.mistake .missingModules) := by
      rw [rootsOf, none]
      rfl
    rw [roots, if_pos none]
  · have roots : rootsOf .check o = .ok o.modules := by
      rw [rootsOf, if_neg (by simp), if_pos (by simpa using none)]
    rw [roots, if_neg none]

/-- Options that ask quietly for the same modules: the names may be given in another order, and any number
of times. -/
structure SameRoots (o o' : Options) : Prop where
  loadPath : o'.loadPath = o.loadPath
  help : o'.help = o.help
  quiet : o.verbose = false
  quiet' : o'.verbose = false
  modules : ∀ n, n ∈ o.modules ↔ n ∈ o'.modules

namespace SameRoots

variable {o o' : Options}

theorem directories (h : SameRoots o o') : o'.directories = o.directories := by
  rw [Options.directories, h.loadPath, Options.directories]

theorem modules_eq_nil_iff (h : SameRoots o o') : o'.modules = [] ↔ o.modules = [] := by
  rw [List.eq_nil_iff_forall_not_mem, List.eq_nil_iff_forall_not_mem]
  simp only [h.modules]

variable {tree : FileTree}

/-- The same roots are loaded to the same modules. -/
theorem loads (h : SameRoots o o') {g : ModuleGraph}
    (success : (loadGraph tree o.directories o.modules).outcome = .ok g) :
    ∃ g', (loadGraph tree o'.directories o'.modules).outcome = .ok g' ∧ g.modules.Perm g'.modules := by
  rw [h.directories]
  exact loadGraph_perm h.modules success

/-- The same roots cannot be loaded either. -/
theorem fails (h : SameRoots o o') {e : SchemaError}
    (failed : (loadGraph tree o.directories o.modules).outcome = .error e) :
    ∃ e', (loadGraph tree o'.directories o'.modules).outcome = .error e' := by
  cases outcome : (loadGraph tree o'.directories o'.modules).outcome with
  | error e' => exact ⟨e', rfl⟩
  | ok g' =>
    rw [h.directories] at outcome
    obtain ⟨g, success, -⟩ := loadGraph_perm (fun r => (h.modules r).symm) outcome
    rw [failed] at success
    cases success

end SameRoots

/-- The answer of a check to roots that are loaded. -/
theorem finish_loadGraph {tree : FileTree} {o : Options} (quiet : o.verbose = false) {g : ModuleGraph}
    (loaded : (loadGraph tree o.directories o.modules).outcome = .ok g) :
    Plan.finish ⟨.check, o.typeName, o.verbose, o.directories, o.modules⟩
        (loadGraph tree o.directories o.modules) =
      if g.violations = [] then ⟨0, validatedLine g.size, []⟩
      else ⟨1, [], (SchemaError.invalidModules g.violations).message ++ "\n"⟩ := by
  refine finish_check rfl quiet loaded ?_
  rw [(loadGraph_closure loaded).2]
  intro d mem
  obtain ⟨x, -, rfl⟩ := List.mem_map.mp mem
  rfl

/-- Checks of the same roots have the same exit code and the same output, and if the modules load they print
the same on the standard error. -/
theorem check_sameRoots (tree : FileTree) {args args' : List Text} {o o' : Options}
    (read : readOptions {} args = .ok o) (read' : readOptions {} args' = .ok o') (same : SameRoots o o') :
    (run tree ("check" :: args')).exitCode = (run tree ("check" :: args)).exitCode ∧
      (run tree ("check" :: args')).out = (run tree ("check" :: args)).out ∧
      ((∃ g, (loadGraph tree o.directories o.modules).outcome = .ok g) →
        (run tree ("check" :: args')).err = (run tree ("check" :: args)).err) := by
  rw [run_check read, run_check read', same.help]
  by_cases help : o.help = true
  · simp [help]
  · by_cases none : o.modules = []
    · simp [help, none, same.modules_eq_nil_iff.mpr none]
    · rw [if_neg help, if_neg help, if_neg none, if_neg (same.modules_eq_nil_iff.not.mpr none)]
      cases outcome : (loadGraph tree o.directories o.modules).outcome with
      | error e =>
        obtain ⟨e', outcome'⟩ := same.fails outcome
        rw [finish_error outcome, finish_error outcome']
        exact ⟨rfl, rfl, fun loads => by obtain ⟨g, success⟩ := loads; cases success⟩
      | ok g =>
        obtain ⟨g', outcome', perm⟩ := same.loads outcome
        rw [finish_loadGraph same.quiet outcome, finish_loadGraph same.quiet' outcome']
        have violations := (ModuleGraph.reordered_of_perm perm).violations_eq
          (loadGraph_closure outcome).1.wellFormed (loadGraph_closure outcome').1.wellFormed
        have size : g.size = g'.size := perm.length_eq
        rw [violations, size]
        exact ⟨rfl, rfl, fun _ => rfl⟩

/-- Two modules that import each other and both use a type that is not defined. -/
def faultyTree : FileTree :=
  (({} : FileTree).insert "lib/a.theta" (.file
    "language-version: 1.0.0\nencoding-version: 1.0.0\n---\nimport b.c\ntype R = \x7b x : Left \x7d\n")).insert
    "lib/b/c.theta" (.file
    "language-version: 1.0.0\nencoding-version: 1.0.0\n---\nimport a\nalias S = [Right]\n")

/-- A check of both modules, and one in which they are named the other way round and one of them twice. -/
theorem check_sameRoots_faulty :
    let answer := run faultyTree ["check", "--load-path", "lib", "--module", "a", "--module", "b.c"]
    let answer' := run faultyTree ["check", "--module", "b.c", "--module", "a", "--load-path", "lib", "--module",
      "b.c"]
    ∃ g, (loadGraph faultyTree ["lib"] ["a", "b.c"]).outcome = .ok g ∧ g.visit.length = 2 ∧
      answer'.exitCode = answer.exitCode ∧ answer'.out = answer.out ∧ answer'.err = answer.err := by
  have read : readOptions {} ["--load-path", "lib", "--module", "a", "--module", "b.c"] =
      .ok ⟨["lib"], ["a", "b.c"], [], false, false⟩ := rfl
  have read' : readOptions {} ["--module", "b.c", "--module", "a", "--load-path", "lib", "--module", "b.c"] =
      .ok ⟨["lib"], ["b.c", "a", "b.c"], [], false, false⟩ := rfl
  have same : SameRoots ⟨["lib"], ["a", "b.c"], [], false, false⟩
      ⟨["lib"], ["b.c", "a", "b.c"], [], false, false⟩ := by
    refine ⟨rfl, rfl, rfl, rfl, fun n => ?_⟩
    simp only [List.mem_cons, List.not_mem_nil, or_false]
    tauto
  have loads : (loadGraph faultyTree ["lib"] ["a", "b.c"]).outcome.toOption.any
      (fun g => g.visit.length = 2) = true := by
    decide +kernel
  obtain ⟨g, loaded, findings⟩ := exists_ok_of_any loads
  obtain ⟨exitCode, out, err⟩ := check_sameRoots faultyTree read read' same
  exact ⟨g, loaded, of_decide_eq_true findings, exitCode, out, err ⟨g, loaded⟩⟩

end Command

end ThetaSchema
