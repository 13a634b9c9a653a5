import ThetaSchema.Proofs.Grammar.Reports
import ThetaSchema.Proofs.Loading.Closure

/-!
# Notes on the files that are read

A note is reported on the file of a module before anything in it is looked at.  So the diagnostics of a loading
are one note for each file that it reads, in the order in which it reads them, and behind them the errors of the
file with which it ends.

Main definitions:

- `fileRead?`: the file that is read for a module.
- `reached`: the names that a loading gets to.
- `filesRead`: the modules whose files are read, with their files.

Main results:

- `loadModule_log`: what loading a module reports.
- `loadGraph_log`: what loading a graph reports.
-/

namespace ThetaSchema

/-- The file that is read for a module: what the module's path first leads to below a directory of the load
path, if that is a file that can be read. -/
def fileRead? (look : Text → Option Entry) (loadPath : List Text) (name : Text) : Option Text :=
  match modulePath name with
  | .error _ => none
  | .ok relative =>
    match firstEntry? look (candidatePaths loadPath relative) with
    | some (path, .file _) => some path
    | some (_, .directory) | some (_, .unreadable _) => none
    | none => none

/-- The names that a loading of one name after the other gets to: those in front of the first one that cannot
be loaded, and that one. -/
def reached (load : Text → Logged SchemaModule) : List Text → List Text
  | [] => []
  | n :: others => n :: if (load n).outcome.isOk then reached load others else []

/-- The modules whose files are read when names are loaded one after the other, with these files. -/
def filesRead (look : Text → Option Entry) (loadPath names : List Text) : List (Text × Text) :=
  (reached (loadModule look loadPath) names).filterMap fun n => (fileRead? look loadPath n).map (n, ·)

/-- The notes on modules whose files are read. -/
def notesOn (files : List (Text × Text)) : Log :=
  files.map fun f => loadingNote f.1 f.2

variable {look : Text → Option Entry} {loadPath : List Text}

/-- The errors of a module that cannot be read, and nothing else, stand in what reading it reports. -/
theorem SchemaModule.severity_of_mem_log {moduleName file text : Text} {d : Diagnostic}
    (h : d ∈ (SchemaModule.parse moduleName file text).log) : d.severity = .error := by
  have reported := SchemaModule.parse_reported moduleName file text
  generalize SchemaModule.parse moduleName file text = result at h reported
  cases reported with
  | read => cases h
  | unsupported => cases h
  | refused isError =>
    rw [List.mem_singleton.mp h]
    exact isError

/-- Loading a module reports a note on the file that it reads, and then errors. -/
theorem loadModule_log (look : Text → Option Entry) (loadPath : List Text) (name : Text) :
    ∃ faults, (loadModule look loadPath name).log =
        ((fileRead? look loadPath name).map (loadingNote name)).toList ++ faults ∧
      ∀ d ∈ faults, d.severity = .error := by
  unfold loadModule fileRead?
  cases modulePath name with
  | error e => exact ⟨[], rfl, by simp⟩
  | ok relative =>
    dsimp only
    cases firstEntry? look (candidatePaths loadPath relative) with
    | none => exact ⟨[], rfl, by simp⟩
    | some entry =>
      rcases entry with ⟨path, _ | content | reason⟩
      · exact ⟨[], rfl, by simp⟩
      · exact ⟨(SchemaModule.parse name path content).log, rfl, fun _ => SchemaModule.severity_of_mem_log⟩
      · exact ⟨[], rfl, by simp⟩

/-- Loading a module that is found reports the note on its file alone. -/
theorem loadModule_log_of_ok {name : Text} {x : SchemaModule}
    (h : (loadModule look loadPath name).outcome = .ok x) :
    (loadModule look loadPath name).log = ((fileRead? look loadPath name).map (loadingNote name)).toList := by
  obtain ⟨faults, log, isError⟩ := loadModule_log look loadPath name
  have noted : (loadModule look loadPath name).log = [loadingNote x.name x.file] :=
    congrArg Logged.log (loadModule_ok h).2
  rw [log] at noted ⊢
  -- the one diagnostic is a note, so it is none of the faults
  cases faults with
  | nil => rw [List.append_nil]
  | cons d others =>
    have mem : d ∈ [loadingNote x.name x.file] := by
      rw [← noted]
      simp
    have severity := isError d List.mem_cons_self
    rw [List.mem_singleton.mp mem] at severity
    cases severity

/-- The note on a file that is read comes before those on the files behind it. -/
theorem notesOn_cons (n : Text) (files : List (Text × Text)) :
    notesOn (((fileRead? look loadPath n).map (n, ·)).toList ++ files) =
      ((fileRead? look loadPath n).map (loadingNote n)).toList ++ notesOn files := by
  cases fileRead? look loadPath n <;> rfl

/-- Behind a name that cannot be loaded no file is read. -/
theorem filesRead_cons (n : Text) (others : List Text) :
    filesRead look loadPath (n :: others) = ((fileRead? look loadPath n).map (n, ·)).toList ++
      if (loadModule look loadPath n).outcome.isOk then filesRead look loadPath others else [] := by
  rw [filesRead, reached, List.filterMap_cons]
  cases fileRead? look loadPath n <;> cases (loadModule look loadPath n).outcome.isOk <;> rfl

/-- Loading one name after the other reports a note on each file that is read, and then errors. -/
theorem loadAll_log (look : Text → Option Entry) (loadPath names : List Text) :
    ∃ faults, (loadAll (loadModule look loadPath) names).log =
        notesOn (filesRead look loadPath names) ++ faults ∧ ∀ d ∈ faults, d.severity = .error := by
  induction names with
  | nil => exact ⟨[], rfl, by simp⟩
  | cons n others ih =>
    rw [filesRead_cons, notesOn_cons]
    cases outcome : (loadModule look loadPath n).outcome with
    | error e =>
      obtain ⟨faults, log, isError⟩ := loadModule_log look loadPath n
      rw [loadAll_cons_error outcome]
      exact ⟨faults, by rw [log]; simp [Except.isOk, Except.toBool, notesOn], isError⟩
    | ok x =>
      obtain ⟨faults, log, isError⟩ := ih
      rw [loadAll_cons_ok outcome]
      refine ⟨faults, ?_, isError⟩
      dsimp only
      rw [loadModule_log_of_ok outcome, log, List.append_assoc]
      rfl

/-- Loading a graph reports a note on each file that it reads, where names are loaded in breadth-first order,
and then errors. -/
theorem loadGraph_log {tree : FileTree} {roots order : List Text}
    (first : BreadthFirst (importsOf (loadModule tree.lookup loadPath)) roots order) :
    ∃ faults, (loadGraph tree loadPath roots).log = notesOn (filesRead tree.lookup loadPath order) ++ faults ∧
      ∀ d ∈ faults, d.severity = .error := by
  rw [loadGraph_eq_loadAll tree loadPath roots first]
  exact loadAll_log tree.lookup loadPath order

end ThetaSchema
