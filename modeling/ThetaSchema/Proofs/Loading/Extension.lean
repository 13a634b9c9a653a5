import ThetaSchema.Proofs.Loading.Course

/-!
# Longer load paths

A module is looked for in one directory of the load path after the other, and the first one that has it
counts, also if the module cannot be read there.  So further directories at the end of the load path change
nothing for a module that is found, and a loading takes the same course unless it ends with a missing module.

Main definitions:

- `SchemaError.IsMissingModule`: the error of a module that no directory has.

Main results:

- `loadModule_append`: a module that is not missing is loaded as before.
- `loadGraph_append`: so is everything that roots lead to.
-/

namespace ThetaSchema

/-- The error of a module that no directory of the load path has. -/
def SchemaError.IsMissingModule : SchemaError → Prop
  | .missingModule _ _ => True
  | _ => False

/-- What the first candidates lead to counts before anything that further ones lead to. -/
theorem firstEntry?_append {look : Text → Option Entry} {candidates : List Text} {found : Text × Entry}
    (h : firstEntry? look candidates = some found) (further : List Text) :
    firstEntry? look (candidates ++ further) = some found := by
  unfold firstEntry? at h ⊢
  rw [List.findSome?_append, h, Option.some_or]

/-- Directories at the end of the load path change nothing for a module that is not missing without them. -/
theorem loadModule_append {look : Text → Option Entry} {loadPath : List Text} {name : Text}
    (found : ∀ e, SchemaError.IsMissingModule e → (loadModule look loadPath name).outcome ≠ .error e)
    (further : List Text) : loadModule look (loadPath ++ further) name = loadModule look loadPath name := by
  unfold loadModule at found ⊢
  cases path : modulePath name with
  | error e => rfl
  | ok relative =>
    rw [path] at found
    dsimp only at found ⊢
    cases first : firstEntry? look (candidatePaths loadPath relative) with
    | none =>
      rw [first] at found
      exact absurd rfl (found _ trivial)
    | some entry =>
      have candidates : candidatePaths (loadPath ++ further) relative =
          candidatePaths loadPath relative ++ candidatePaths further relative :=
        List.map_append
      rw [candidates, firstEntry?_append first]

/-- Directories at the end of the load path change neither the outcome of a loading nor its diagnostics,
unless the loading fails without them because a module is missing. -/
theorem loadGraph_append (tree : FileTree) (loadPath further roots : List Text)
    (found : ∀ e, SchemaError.IsMissingModule e → (loadGraph tree loadPath roots).outcome ≠ .error e) :
    loadGraph tree (loadPath ++ further) roots = loadGraph tree loadPath roots := by
  have course := loadGraph_ends tree loadPath roots
  have agree : ∀ n, (∀ e, SchemaError.IsMissingModule e →
      (loadModule tree.lookup loadPath n).outcome ≠ .error e) →
      loadModule tree.lookup (loadPath ++ further) n = loadModule tree.lookup loadPath n :=
    fun n here => loadModule_append here further
  exact (loadGraph_ends tree (loadPath ++ further) roots).unique (course.of_agree agree found)

/-- A schema that imports another one, which is a directory below `lib` and a file below `other`. -/
def shadowedTree : FileTree :=
  (((({} : FileTree).insert "lib/a.theta" (.file (importingSource "import b"))).insert
    "lib/b.theta" .directory).insert
    "other/a.theta" (.file "type")).insert
    "other/b.theta" (.file (importingSource "import b"))

/-- A loading that fails at the directory does not go on to the file, and one that succeeds does not go on
either. -/
theorem loadGraph_append_shadowed :
    (loadGraph shadowedTree ["lib"] ["a"]).outcome = .error (.unreadable "lib/b.theta" "Is a directory") ∧
      loadGraph shadowedTree ["lib", "other"] ["a"] = loadGraph shadowedTree ["lib"] ["a"] ∧
      (∃ g, (loadGraph shadowedTree ["other"] ["b"]).outcome = .ok g ∧
        g.modules.map SchemaModule.file = ["other/b.theta"].map Text.ofString) ∧
      loadGraph shadowedTree ["other", "lib"] ["b"] = loadGraph shadowedTree ["other"] ["b"] := by
  have fails : (loadGraph shadowedTree ["lib"] ["a"]).outcome =
      .error (.unreadable "lib/b.theta" "Is a directory") :=
    eq_error_of_errorOf? (by decide +kernel)
  have loads : (loadGraph shadowedTree ["other"] ["b"]).outcome.toOption.any
      (fun g => g.modules.map SchemaModule.file = ["other/b.theta"].map Text.ofString) = true := by
    decide +kernel
  obtain ⟨g, loaded, files⟩ := exists_ok_of_any loads
  refine ⟨fails, loadGraph_append _ ["lib"] ["other"] _ ?_, ⟨g, loaded, of_decide_eq_true files⟩,
    loadGraph_append _ ["other"] ["lib"] _ ?_⟩
  · intro e missing failed
    rw [fails] at failed
    cases failed
    exact missing
  · intro e _ failed
    rw [loaded] at failed
    cases failed

end ThetaSchema
