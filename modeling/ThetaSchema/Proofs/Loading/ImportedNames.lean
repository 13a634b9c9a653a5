import ThetaSchema.Proofs.Grammar.Reports
import ThetaSchema.Proofs.Loading.Closure
import ThetaSchema.Proofs.Printing.RoundTrip

/-!
# The names that imports give

What may stand behind the keyword of an import is exactly a module name, although the one is read from
tokens and the other is a condition on bytes.  So a loading never meets an import with a name that no module
can have: every pending name is a root or a module name, and a failure for an invalid name is the failure of
a root.

Main results:

- `body_imports_iff`: a text is read as an import of itself exactly when it is a module name.
- `Loading.run_error`: the name whose load fails has any property of the roots that imports hand on.
- `loadModule_invalidName_iff`: a load fails for an invalid name when its name is no module name.
- `imported_names_are_moduleNames`: imports name modules, so invalid names are names of roots.
-/

namespace ThetaSchema

/-! ## Imports -/

/-- A text behind the keyword of an import is read as the one import of the text itself exactly when it is a
module name. -/
theorem body_imports_iff (m : Metadata) (file s : Text) :
    (∃ l, ((Session.start (TokenStream.ofText file ("import " ++ s))).body m).2 = .ok [.imports l s]) ↔
      isModuleName s = true := by
  simp only [Session.body_start_ok_iff]
  constructor
  · rintro ⟨l, accepted⟩
    have lexical : ∀ t ∈ (TokenStream.ofText file ("import " ++ s)).tokens, t.Lexical := by
      rw [TokenStream.tokens_ofText]
      exact fun t => Token.lexical_of_mem_scan
    exact (readBody_sound accepted).wellFormed lexical _ List.mem_cons_self
  · intro isName
    have derived : DerivesBody m (TokenStream.ofText file ("import " ++ s)).tokens
        [(Statement.imports {} s).unlocated] := by
      have spelled : Spells file ("import " ++ s) []
          (DerivesStatement m · (Statement.imports {} s).unlocated) :=
        spells_importName isName {} (by simp [EndsWord])
      simpa using DerivesBody.cons spelled.tokens_ofText .nil
    obtain ⟨read, accepted, same⟩ := readBody_complete derived
    obtain ⟨statement, rfl, unlocated⟩ := List.map_eq_singleton_iff.mp same
    cases statement <;> cases unlocated
    exact ⟨_, accepted⟩

/-- A module that was read imports module names. -/
theorem SchemaModule.isModuleName_of_mem_imports {name file text n : Text} {x : SchemaModule}
    (h : (SchemaModule.parse name file text).outcome = .ok x) (mem : n ∈ x.imports) :
    isModuleName n = true := by
  obtain ⟨statement, inside, imports⟩ := List.mem_filterMap.mp mem
  cases statement with
  | imports l moduleName =>
    cases imports
    exact (SchemaModule.parse_wellFormed h).1 _ inside
  | defines d => cases imports

/-! ## The names of a loading -/

namespace Loading

variable {load : Text → Logged SchemaModule} {P : Text → Prop} {l : Loading}

/-- What is pending after names are scheduled was pending before or is one of the names. -/
theorem mem_pending_schedule {n : Text} (names : List Text) (h : n ∈ (l.schedule names).pending) :
    n ∈ l.pending ∨ n ∈ names := by
  fun_induction schedule l names with
  | case1 => exact .inl h
  | case2 l m others known ih => exact (ih h).imp_right (List.mem_cons_of_mem m)
  | case3 l m others unknown ih =>
    rcases ih h with early | later
    · rcases List.mem_append.mp early with before | same
      · exact .inl before
      · rw [List.mem_singleton.mp same]
        exact .inr List.mem_cons_self
    · exact .inr (List.mem_cons_of_mem m later)

/-- Names with a property stay pending when the imports of a module are scheduled that have it too. -/
theorem forall_pending_absorb {n : Text} {others : List Text} {x : SchemaModule}
    (pending : ∀ a ∈ l.pending, P a) (next : l.pending = n :: others) (imports : ∀ a ∈ x.imports, P a) :
    ∀ a ∈ (l.absorb others x).pending, P a := by
  intro a mem
  rw [next] at pending
  rcases mem_pending_schedule _ mem with early | later
  · exact pending a (List.mem_cons_of_mem n early)
  · exact imports a later

/-- If the pending names have a property that imports hand on, then a loading that fails does so at a name
with the property. -/
theorem run_error (handed : ∀ n x, P n → (load n).outcome = .ok x → ∀ a ∈ x.imports, P a)
    (pending : ∀ a ∈ l.pending, P a) {steps : Nat} {e : SchemaError}
    (h : (run load steps l).outcome = .error e) : ∃ n, P n ∧ (load n).outcome = .error e := by
  induction steps generalizing l with
  | zero => cases h
  | succ steps ih =>
    rw [run] at h
    cases next : l.pending with
    | nil =>
      rw [next] at h
      cases h
    | cons n others =>
      have first : P n := pending n (by rw [next]; exact List.mem_cons_self)
      rw [next] at h
      dsimp only at h
      cases outcome : (load n).outcome with
      | error e' =>
        rw [Logged.andThen_error outcome] at h
        cases h
        exact ⟨n, first, outcome⟩
      | ok x =>
        rw [Logged.andThen_ok outcome] at h
        exact ih (forall_pending_absorb pending next (handed n x first outcome)) h

end Loading

/-! ## Invalid names -/

/-- What a path leads to is never refused for an invalid name. -/
theorem readEntryOf_ne_invalidName (name path t : Text) (entry : Entry) :
    (readEntryOf name path entry).outcome ≠ .error (.invalidName t) := by
  intro refused
  cases entry with
  | directory | unreadable => cases refused
  | file content =>
    have outcome : (SchemaModule.parse name path content).outcome = .error (.invalidName t) := refused
    have reported := SchemaModule.parse_reported name path content
    generalize SchemaModule.parse name path content = result at outcome reported
    cases reported <;> cases outcome

/-- Loading a module fails for an invalid name exactly when its own name is no module name. -/
theorem loadModule_invalidName_iff {look : Text → Option Entry} {loadPath : List Text} {name t : Text} :
    (loadModule look loadPath name).outcome = .error (.invalidName t) ↔
      t = name ∧ isModuleName name = false := by
  have noEntry : ∀ p e, (readEntryOf name p e).outcome ≠ .error (.invalidName t) :=
    fun p e => readEntryOf_ne_invalidName name p t e
  unfold loadModule
  cases path : modulePath name with
  | error e =>
    obtain ⟨noName, rfl⟩ := modulePath_eq_error_iff.mp path
    simp [Logged.fail, noName, eq_comm]
  | ok relative =>
    have isName := (modulePath_eq_ok_iff.mp path).1
    dsimp only
    split
    · simp [Logged.fail, isName]
    · simp [noEntry, isName]

/-- A loading that fails for an invalid name fails at a root, whose name is no module name. -/
theorem loadGraph_invalidName {tree : FileTree} {loadPath roots : List Text} {t : Text}
    (h : (loadGraph tree loadPath roots).outcome = .error (.invalidName t)) :
    t ∈ roots ∧ isModuleName t = false := by
  have handed : ∀ n x, (n ∈ roots ∨ isModuleName n = true) →
      (loadModule tree.lookup loadPath n).outcome = .ok x →
        ∀ a ∈ x.imports, a ∈ roots ∨ isModuleName a = true := by
    intro n x _ loaded a mem
    obtain ⟨_, _, _, -, -, read⟩ := loadModule_ok_iff.mp loaded
    exact .inr (SchemaModule.isModuleName_of_mem_imports read mem)
  have pending : ∀ a ∈ (Loading.start roots).pending, a ∈ roots ∨ isModuleName a = true := by
    intro a mem
    rcases Loading.mem_pending_schedule roots mem with none | root
    · cases none
    · exact .inl root
  obtain ⟨n, known, failed⟩ := Loading.run_error handed pending h
  obtain ⟨rfl, noName⟩ := loadModule_invalidName_iff.mp failed
  rw [noName] at known
  exact ⟨known.resolve_right (by decide), noName⟩

/-- A text is read as an import of itself exactly when it is a module name.  So a loading that fails for an
invalid name fails for the name of a root, and no module that can be read imports that name. -/
theorem imported_names_are_moduleNames :
    (∀ (m : Metadata) (file s : Text),
      (∃ l, ((Session.start (TokenStream.ofText file ("import " ++ s))).body m).2 = .ok [.imports l s]) ↔
        isModuleName s = true) ∧
    ∀ (tree : FileTree) (loadPath roots : List Text) (t : Text),
      (loadGraph tree loadPath roots).outcome = .error (.invalidName t) →
        t ∈ roots ∧ isModuleName t = false ∧
          ∀ (name file text : Text) (x : SchemaModule),
            (SchemaModule.parse name file text).outcome = .ok x → t ∉ x.imports := by
  refine ⟨body_imports_iff, fun tree loadPath roots t failed => ?_⟩
  obtain ⟨root, noName⟩ := loadGraph_invalidName failed
  refine ⟨root, noName, fun name file text x read mem => ?_⟩
  rw [SchemaModule.isModuleName_of_mem_imports read mem] at noName
  cases noName

/-- A root that is no module name, behind one that is loaded together with what it imports. -/
theorem imported_names_are_moduleNames_root :
    (loadGraph importingTree ["lib"] ["a", "c.d.9"]).outcome = .error (.invalidName "c.d.9") ∧
      (∃ x, (loadModule importingTree.lookup ["lib"] "a").outcome = .ok x ∧
        x.imports = ["b", "c.d"].map Text.ofString ∧ ("c.d.9" : Text) ∉ x.imports) ∧
      isModuleName "c.d.9" = false := by
  have refused : (match (loadGraph importingTree ["lib"] ["a", "c.d.9"]).outcome with
      | .ok _ => none
      | .error e => some e) = some (.invalidName "c.d.9") := by
    decide +kernel
  have failed : (loadGraph importingTree ["lib"] ["a", "c.d.9"]).outcome = .error (.invalidName "c.d.9") := by
    split at refused
    · cases refused
    · next e outcome => rw [outcome, Option.some.inj refused]
  have loads : (loadModule importingTree.lookup ["lib"] "a").outcome.toOption.any
      (fun x => x.imports = ["b", "c.d"].map Text.ofString) = true := by
    decide +kernel
  obtain ⟨x, loaded, imports⟩ := exists_ok_of_any loads
  obtain ⟨-, noName, unnamed⟩ := imported_names_are_moduleNames.2 _ _ _ _ failed
  obtain ⟨_, _, _, -, -, read⟩ := loadModule_ok_iff.mp loaded
  exact ⟨failed, ⟨x, loaded, of_decide_eq_true imports, unnamed _ _ _ _ read⟩, noName⟩

end ThetaSchema
