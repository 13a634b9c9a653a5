import ThetaSchema.Proofs.Command.Check
import ThetaSchema.Proofs.Loading.Notes

/-!
# What a run prints

A run that fails leaves nothing on the standard output, and says why on the standard error.  The reasons are
found by different parts, some of which report them as diagnostics as well, but each is printed once: notices
are notes and warnings, no part reports a warning, and notes are only reported on files that are read.

Main definitions:

- `Command.Accepts`: arguments that a run goes on with.
- `Command.Course`: what a run reads and how it ends.

Main results:

- `Command.run_disciplined`: the exit code of a run, and its output where it fails.
- `Command.exists_course`: a run with accepted arguments takes some course.
- `Command.run_course`: what is printed on each course.
- `Command.run_prints`: all of that together.
-/

namespace ThetaSchema
namespace Command

/-! ## Notices -/

/-- The lines of the notes on files that are read. -/
def noteLines (files : List (Text × Text)) : Text :=
  (notesOn files).flatMap fun d => d.render ++ "\n"

/-- Notes are notices on request. -/
theorem notices_notesOn (verbose : Bool) (files : List (Text × Text)) :
    notices verbose (notesOn files) = Text.onlyIf verbose (noteLines files) := by
  have note : ∀ d ∈ notesOn files, d.severity = .note := by
    intro d mem
    obtain ⟨f, -, rfl⟩ := List.mem_map.mp mem
    rfl
  cases verbose with
  | false => exact notices_eq_nil fun d mem => .inr ⟨note d mem, rfl⟩
  | true =>
    have all : (notesOn files).filter (fun d => d.severity = .warning || (d.severity = .note && true)) =
        notesOn files := by
      rw [List.filter_eq_self]
      intro d mem
      simp [note d mem]
    rw [notices, all]
    rfl

/-- The notices on what loading a graph reports are the notes on the files that it reads. -/
theorem notices_loadGraph {tree : FileTree} {loadPath roots order : List Text} (verbose : Bool)
    (first : BreadthFirst (importsOf (loadModule tree.lookup loadPath)) roots order) :
    notices verbose (loadGraph tree loadPath roots).log =
      Text.onlyIf verbose (noteLines (filesRead tree.lookup loadPath order)) := by
  obtain ⟨faults, log, isError⟩ := loadGraph_log first
  rw [log, notices_append, notices_eq_nil fun d mem => .inl (isError d mem), List.append_nil, notices_notesOn]

/-! ## Answers -/

/-- The exit code of an answer is zero or one, and with one there is no output. -/
def Answer.Disciplined (a : Answer) : Prop :=
  (a.exitCode = 0 ∨ a.exitCode = 1) ∧ (a.exitCode = 1 → a.out = [])

/-- A mistake on the command line ends with exit code one and without output. -/
theorem Answer.disciplined_mistake (m : Mistake) : (Answer.mistake m).Disciplined :=
  ⟨.inr rfl, fun _ => rfl⟩

/-- The help ends with exit code zero. -/
theorem Answer.disciplined_help : Answer.help.Disciplined :=
  ⟨.inl rfl, fun _ => rfl⟩

/-- A failure ends with exit code one and without output. -/
theorem Answer.disciplined_failure (verbose : Bool) (log : Log) (e : SchemaError) :
    (Answer.failure verbose log e).Disciplined :=
  ⟨.inr rfl, fun _ => rfl⟩

/-- A success ends with exit code zero, whatever it puts out. -/
theorem Answer.disciplined_success (verbose : Bool) (log : Log) (out : Text) :
    (Answer.success verbose log out).Disciplined :=
  ⟨.inl rfl, fun one => by cases one⟩

/-- Where there are no roots to load, the answer has exit code one and no output. -/
theorem rootsOf_disciplined {c : Subcommand} {o : Options} {a : Answer} (h : rootsOf c o = .error a) :
    a.Disciplined := by
  unfold rootsOf at h
  split at h
  · cases h
    exact Answer.disciplined_mistake _
  · split at h
    · cases h
    · split at h
      · split at h
        · cases h
        · cases h
          exact Answer.disciplined_failure _ _ _
      · cases h
        exact Answer.disciplined_mistake _

/-- What is answered from the options alone has no output with exit code one. -/
theorem planWith_disciplined {c : Subcommand} {o : Options} {a : Answer} (h : planWith c o = .answer a) :
    a.Disciplined := by
  unfold planWith at h
  split at h
  · cases h
    exact Answer.disciplined_help
  · cases roots : rootsOf c o with
    | error a' =>
      rw [roots] at h
      cases h
      exact rootsOf_disciplined roots
    | ok names =>
      rw [roots] at h
      cases h

/-- What is answered from the arguments alone has no output with exit code one. -/
theorem plan_disciplined {args : List Text} {a : Answer} (h : plan args = .answer a) : a.Disciplined := by
  unfold plan at h
  split at h
  · cases h
    exact Answer.disciplined_mistake _
  · split at h
    · cases h
      exact Answer.disciplined_help
    · split at h
      · cases h
        exact Answer.disciplined_mistake _
      · split at h
        · cases h
          exact Answer.disciplined_mistake _
        · exact planWith_disciplined h

/-- A run ends with the exit code zero or one, and with one it leaves nothing on the standard output. -/
theorem run_disciplined (tree : FileTree) (args : List Text) : (run tree args).Disciplined := by
  unfold run
  split
  · next planned => exact plan_disciplined planned
  · unfold Plan.finish
    dsimp only
    split
    · exact Answer.disciplined_success _ _ _
    · exact Answer.disciplined_failure _ _ _

/-! ## Courses -/

/-- Arguments that a run goes on with: a subcommand with options that can be read, which do not ask for help
and give the subcommand what it needs. -/
structure Accepts (args : List Text) (c : Subcommand) (o : Options) : Prop where
  read : ∃ word rest, args = word :: rest ∧ Subcommand.ofText? word = some c ∧ readOptions {} rest = .ok o
  noHelp : o.help = false
  typeNamed : c = .display → o.typeName ≠ []
  modulesNamed : c ≠ .display → o.modules ≠ []

/-- The roots of a run: the modules that are named, and otherwise the module of the type to show. -/
inductive Roots (c : Subcommand) (o : Options) : List Text → Prop
  | named (given : o.modules ≠ []) : Roots c o o.modules
  | ofType {n : QualifiedName} (shows : c = .display) (none : o.modules = [])
      (name : QualifiedName.parse o.typeName = .ok n) : Roots c o [n.moduleName]

/-- What a run with accepted arguments reads, and what it fails for.  Without a module it needs the name of the
type; then it loads its roots, it checks them unless it only prints them, and it may look up the type. -/
inductive Course (tree : FileTree) (c : Subcommand) (o : Options) :
    List (Text × Text) → Option SchemaError → Prop
  | misnamed {e : SchemaError} (shows : c = .display) (none : o.modules = [])
      (failed : QualifiedName.parse o.typeName = .error e) : Course tree c o [] (some e)
  | unloaded {roots order : List Text} {e : SchemaError} (start : Roots c o roots)
      (first : BreadthFirst (importsOf (loadModule tree.lookup o.directories)) roots order)
      (failed : (loadGraph tree o.directories roots).outcome = .error e) :
      Course tree c o (filesRead tree.lookup o.directories order) (some e)
  | invalid {roots order : List Text} {g : ModuleGraph} {e : SchemaError} (start : Roots c o roots)
      (first : BreadthFirst (importsOf (loadModule tree.lookup o.directories)) roots order)
      (loaded : (loadGraph tree o.directories roots).outcome = .ok g) (checks : c ≠ .print)
      (failed : g.validate.outcome = .error e) :
      Course tree c o (filesRead tree.lookup o.directories order) (some e)
  | undefined {roots order : List Text} {g : ModuleGraph} {e : SchemaError} (start : Roots c o roots)
      (first : BreadthFirst (importsOf (loadModule tree.lookup o.directories)) roots order)
      (loaded : (loadGraph tree o.directories roots).outcome = .ok g) (shows : c = .display)
      (valid : g.validate.outcome = .ok g) (failed : g.lookup o.typeName = .error e) :
      Course tree c o (filesRead tree.lookup o.directories order) (some e)
  | answered {roots order : List Text} {g : ModuleGraph} (start : Roots c o roots)
      (first : BreadthFirst (importsOf (loadModule tree.lookup o.directories)) roots order)
      (loaded : (loadGraph tree o.directories roots).outcome = .ok g)
      (valid : c ≠ .print → g.validate.outcome = .ok g)
      (found : c = .display → ∃ d, g.lookup o.typeName = .ok d) :
      Course tree c o (filesRead tree.lookup o.directories order) none

variable {tree : FileTree} {args : List Text} {c : Subcommand} {o : Options}

/-- Where a command accepts its options, it has the name of a type if it needs one. -/
theorem Accepts.typeName_isEmpty (h : Accepts args c o) : (c = .display && o.typeName.isEmpty) = false := by
  by_cases shows : c = .display
  · simpa [shows] using h.typeNamed shows
  · simp [shows]

/-- A run with accepted arguments loads its roots. -/
theorem Accepts.run_of_roots (h : Accepts args c o) {roots : List Text} (start : Roots c o roots) :
    run tree args = Plan.finish ⟨c, o.typeName, o.verbose, o.directories, roots⟩
      (loadGraph tree o.directories roots) := by
  have found : rootsOf c o = .ok roots := by
    rw [rootsOf, h.typeName_isEmpty, if_neg Bool.false_ne_true]
    cases start with
    | named given => rw [if_pos (by simpa using given)]
    | ofType shows none name => rw [if_neg (by simp [none]), if_pos shows, name]
  obtain ⟨word, rest, rfl, named, read⟩ := h.read
  rw [run_of_read named read, h.noHelp, if_neg Bool.false_ne_true, found]

/-- Without a module, a name of no type is what a run fails for. -/
theorem Accepts.run_of_misnamed (h : Accepts args c o) {e : SchemaError} (shows : c = .display)
    (none : o.modules = []) (failed : QualifiedName.parse o.typeName = .error e) :
    run tree args = .failure o.verbose [] e := by
  have refused : rootsOf c o = .error (.failure o.verbose [] e) := by
    rw [rootsOf, h.typeName_isEmpty, if_neg Bool.false_ne_true, if_neg (by simp [none]), if_pos shows, failed]
  obtain ⟨word, rest, rfl, named, read⟩ := h.read
  rw [run_of_read named read, h.noHelp, if_neg Bool.false_ne_true, refused]

/-- A run with accepted arguments has roots, or it has no name of a type to take them from. -/
theorem Accepts.exists_roots (h : Accepts args c o) :
    (∃ roots, Roots c o roots) ∨
      c = .display ∧ o.modules = [] ∧ ∃ e, QualifiedName.parse o.typeName = .error e := by
  by_cases none : o.modules = []
  · have shows : c = .display := by
      by_contra other
      exact h.modulesNamed other none
    cases name : QualifiedName.parse o.typeName with
    | ok n => exact .inl ⟨_, .ofType shows none name⟩
    | error e => exact .inr ⟨shows, none, e, rfl⟩
  · exact .inl ⟨_, .named none⟩

/-- A run with accepted arguments takes some course. -/
theorem exists_course (tree : FileTree) (h : Accepts args c o) :
    ∃ files failure, Course tree c o files failure := by
  rcases h.exists_roots with ⟨roots, start⟩ | ⟨shows, none, e, failed⟩
  · obtain ⟨order, first, -⟩ := existsUnique_breadthFirst fun n => mem_of_reachable tree o.directories roots
    cases loaded : (loadGraph tree o.directories roots).outcome with
    | error e => exact ⟨_, _, .unloaded start first loaded⟩
    | ok g =>
      by_cases prints : c = .print
      · exact ⟨_, _, .answered start first loaded (absurd prints) fun shows => by rw [prints] at shows; cases shows⟩
      · have outcome := validate_outcome g
        by_cases none : g.violations = []
        · rw [if_pos none] at outcome
          by_cases shows : c = .display
          · cases found : g.lookup o.typeName with
            | error e => exact ⟨_, _, .undefined start first loaded shows outcome found⟩
            | ok d => exact ⟨_, _, .answered start first loaded (fun _ => outcome) fun _ => ⟨d, found⟩⟩
          · exact ⟨_, _, .answered start first loaded (fun _ => outcome) (absurd · shows)⟩
        · rw [if_neg none] at outcome
          exact ⟨_, _, .invalid start first loaded prints outcome⟩
  · exact ⟨_, _, .misnamed shows none failed⟩

/-! ## What is printed -/

/-- Modules that are not valid are what a subcommand fails for that checks them. -/
theorem Plan.result_of_invalid {p : Plan} {g : ModuleGraph} {e : SchemaError} (checks : p.subcommand ≠ .print)
    (failed : g.validate.outcome = .error e) : (p.result g).outcome = .error e := by
  rw [Plan.result]
  split
  · next prints => exact absurd prints checks
  · rw [Logged.andThen_error failed]
  · rw [Logged.andThen_error failed]

/-- The definition that is shown of valid modules is the one that is looked up. -/
theorem Plan.result_of_display {p : Plan} {g : ModuleGraph} (shows : p.subcommand = .display)
    (valid : g.validate.outcome = .ok g) :
    (p.result g).outcome = (g.lookup p.typeName).map Definition.render := by
  rw [Plan.result, shows]
  dsimp only
  rw [Logged.andThen_ok valid]

/-- A run of which no part fails has a result. -/
theorem Plan.exists_result {p : Plan} {g : ModuleGraph}
    (valid : p.subcommand ≠ .print → g.validate.outcome = .ok g)
    (found : p.subcommand = .display → ∃ d, g.lookup p.typeName = .ok d) :
    ∃ out, (p.result g).outcome = .ok out := by
  by_cases shows : p.subcommand = .display
  · obtain ⟨d, defined⟩ := found shows
    have checked := valid (by rw [shows]; decide)
    exact ⟨d.render, by rw [Plan.result_of_display shows checked, defined]; rfl⟩
  · rw [Plan.result]
    split
    · exact ⟨_, rfl⟩
    · next checks => exact ⟨_, by rw [Logged.andThen_ok (valid (by rw [checks]; decide))]; rfl⟩
    · next isDisplay => exact absurd isDisplay shows

/-- The line that an error is printed as. -/
def errorLine (failure : Option SchemaError) : Text :=
  failure.elim [] fun e => e.message ++ "\n"

/-- What is printed once loading failed, or what comes after it. -/
theorem err_failure {roots order : List Text}
    (first : BreadthFirst (importsOf (loadModule tree.lookup o.directories)) roots order) (e : SchemaError) :
    (Answer.failure o.verbose (loadGraph tree o.directories roots).log e).err =
      Text.onlyIf o.verbose (noteLines (filesRead tree.lookup o.directories order)) ++ errorLine (some e) := by
  rw [Answer.failure, notices_loadGraph o.verbose first, List.append_assoc]
  rfl

/-- The exit code and the standard error of a run on each course. -/
theorem run_course (h : Accepts args c o) {files : List (Text × Text)} {failure : Option SchemaError}
    (course : Course tree c o files failure) :
    (run tree args).exitCode = (if failure.isSome then 1 else 0) ∧
      (run tree args).err = Text.onlyIf o.verbose (noteLines files) ++ errorLine failure := by
  cases course with
  | misnamed shows none failed =>
    rw [h.run_of_misnamed shows none failed]
    cases o.verbose <;> exact ⟨rfl, rfl⟩
  | unloaded start first failed =>
    rw [h.run_of_roots start, finish_error failed]
    exact ⟨rfl, err_failure first _⟩
  | invalid start first loaded checks failed =>
    rw [h.run_of_roots start, finish_ok loaded, Plan.result_of_invalid checks failed]
    exact ⟨rfl, err_failure first _⟩
  | undefined start first loaded shows valid failed =>
    rw [h.run_of_roots start, finish_ok loaded, Plan.result_of_display shows valid, failed]
    exact ⟨rfl, err_failure first _⟩
  | answered start first loaded valid found =>
    obtain ⟨out, result⟩ := Plan.exists_result (p := ⟨c, o.typeName, o.verbose, o.directories, _⟩) valid found
    rw [h.run_of_roots start, finish_ok loaded, result]
    refine ⟨rfl, ?_⟩
    rw [errorLine, Option.elim_none, List.append_nil]
    exact notices_loadGraph o.verbose first

/-- A run ends with the exit code zero or one, and with one it leaves nothing on the standard output.  With
accepted arguments it takes a course, on which it reads files and may fail for something: on the standard error
stand the notes on these files if they are asked for, then the error with a newline if it fails, and nothing
else. -/
theorem run_prints (tree : FileTree) (args : List Text) :
    ((run tree args).exitCode = 0 ∨ (run tree args).exitCode = 1) ∧
      ((run tree args).exitCode = 1 → (run tree args).out = []) ∧
      ∀ c o, Accepts args c o → (∃ files failure, Course tree c o files failure) ∧
        ∀ files failure, Course tree c o files failure →
          (run tree args).exitCode = (if failure.isSome then 1 else 0) ∧
          (run tree args).err = Text.onlyIf o.verbose (noteLines files) ++ errorLine failure := by
  obtain ⟨code, silent⟩ := run_disciplined tree args
  exact ⟨code, silent, fun c o accepted => ⟨exists_course tree accepted, fun files failure => run_course accepted⟩⟩

/-- A schema that imports another one, which has no header. -/
def headlessTree : FileTree :=
  (({} : FileTree).insert "lib/a.theta" (.file (importingSource "import b"))).insert
    "lib/b.theta" (.file "type")

/-- A check of these schemas that asks for notes. -/
def headlessCheck : List Text :=
  ["check", "--verbose", "--load-path", "lib", "--module", "a"]

/-- Its options. -/
def headlessOptions : Options :=
  { loadPath := ["lib"], modules := ["a"], verbose := true }

/-- The files that this check reads. -/
def headlessFiles : List (Text × Text) :=
  [("a", "lib/a.theta"), ("b", "lib/b.theta")]

/-- The fault that it finds. -/
def headlessFault : SchemaError :=
  .syntaxFault ⟨.error, ⟨"lib/b.theta", 1, 1⟩, "unknown metadata key 'type'", 4⟩ none

/-- The check fails; it prints two notes, and the fault once. -/
theorem run_prints_headless :
    (run headlessTree headlessCheck).exitCode = 1 ∧ (run headlessTree headlessCheck).out = [] ∧
      (run headlessTree headlessCheck).err = noteLines headlessFiles ++ errorLine (some headlessFault) := by
  obtain ⟨-, silent, printed⟩ := run_prints headlessTree headlessCheck
  have accepted : Accepts headlessCheck .check headlessOptions :=
    ⟨⟨"check", _, rfl, by decide, by decide +kernel⟩, rfl, by decide, by decide⟩
  have first : BreadthFirst (importsOf (loadModule headlessTree.lookup ["lib"])) ["a"]
      (["a", "b"].map Text.ofString) := by
    have order : ["a", "b"].map Text.ofString =
        discovered (importsOf (loadModule headlessTree.lookup ["lib"])) ["a"] 1 := by
      decide +kernel
    rw [order]
    exact .of_stable (by decide +kernel)
  have failed : (loadGraph headlessTree ["lib"] ["a"]).outcome = .error headlessFault :=
    eq_error_of_errorOf? (by decide +kernel)
  have files : filesRead headlessTree.lookup ["lib"] (["a", "b"].map Text.ofString) = headlessFiles := by
    decide +kernel
  have course : Course headlessTree .check headlessOptions headlessFiles (some headlessFault) := by
    rw [← files]
    exact .unloaded (.named (by decide)) first failed
  obtain ⟨code, err⟩ := (printed _ _ accepted).2 _ _ course
  exact ⟨code, silent code, err⟩

end Command
end ThetaSchema
