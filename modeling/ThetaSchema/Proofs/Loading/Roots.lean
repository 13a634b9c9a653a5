import Mathlib.Data.List.Nodup
import ThetaSchema.Proofs.Loading.Closure

/-!
# Roots in any order

What is loaded from roots depends on the set of their names alone: other orders and repetitions lead to the
same modules, put in another order.

Main definitions:

- `ModuleGraph.Closure`: a graph of the modules that imports lead to from roots.

Main results:

- `Reachable.of_subset`: more roots lead to more names.
- `loadGraph_closure`, `exists_loadGraph_iff`: when a loading succeeds, and what it gives.
- `ModuleGraph.Closure.perm`: the modules for the same names of roots are the same up to their order.
-/

namespace ThetaSchema

variable {roots roots' : List Text}

/-- More roots lead to more names. -/
theorem Reachable.of_subset {imports : Text → List Text} {n : Text} (sub : ∀ r ∈ roots, r ∈ roots')
    (h : Reachable imports roots n) : Reachable imports roots' n := by
  obtain ⟨k, near⟩ := h
  refine ⟨k, ?_⟩
  induction near with
  | root k mem => exact .root k (sub _ mem)
  | imported near mem ih => exact .imported ih mem

/-- The same roots lead to the same names, in whatever order and however often they are given. -/
theorem reachable_congr {imports : Text → List Text} (same : ∀ r, r ∈ roots ↔ r ∈ roots') (n : Text) :
    Reachable imports roots n ↔ Reachable imports roots' n := by
  constructor
  · exact .of_subset fun r mem => (same r).mp mem
  · exact .of_subset fun r mem => (same r).mpr mem

/-! ## Graphs that were loaded -/

/-- The modules of a graph are those that imports lead to from roots, each once. -/
structure ModuleGraph.Closure (load : Text → Logged SchemaModule) (roots : List Text) (g : ModuleGraph) :
    Prop where
  nodup : (g.modules.map SchemaModule.name).Nodup
  members : ∀ x, x ∈ g.modules ↔
    Reachable (importsOf load) roots x.name ∧ (load x.name).outcome = .ok x

/-- Two graphs of the same roots have the same modules. -/
theorem ModuleGraph.Closure.perm {load : Text → Logged SchemaModule} {g g' : ModuleGraph}
    (h : g.Closure load roots) (h' : g'.Closure load roots') (same : ∀ r, r ∈ roots ↔ r ∈ roots') :
    g.modules.Perm g'.modules := by
  refine (List.perm_ext_iff_of_nodup (List.Nodup.of_map _ h.nodup) (List.Nodup.of_map _ h'.nodup)).mpr fun x => ?_
  rw [h.members, h'.members, reachable_congr same]

section

variable (tree : FileTree) (loadPath : List Text)

/-- Roots are loaded exactly when every module that imports lead to can be. -/
theorem exists_loadGraph_iff (roots : List Text) :
    (∃ g, (loadGraph tree loadPath roots).outcome = .ok g) ↔
      ∀ n, Reachable (importsOf (loadModule tree.lookup loadPath)) roots n →
        ∃ x, (loadModule tree.lookup loadPath n).outcome = .ok x := by
  obtain ⟨order, first, -⟩ := existsUnique_breadthFirst fun n => mem_of_reachable tree loadPath roots
  simp only [← first.members, loadGraph_eq_loadAll tree loadPath roots first]
  rw [← exists_loadAll_iff]
  cases (loadAll (loadModule tree.lookup loadPath) order).outcome with
  | error e => simp [Except.map]
  | ok xs => simp [Except.map]

variable {tree loadPath} {g : ModuleGraph}

/-- What a loading gives: the modules that imports lead to, and a note on each. -/
theorem loadGraph_closure (h : (loadGraph tree loadPath roots).outcome = .ok g) :
    g.Closure (loadModule tree.lookup loadPath) roots ∧
      (loadGraph tree loadPath roots).log = g.modules.map fun x => loadingNote x.name x.file := by
  obtain ⟨order, first, -⟩ := existsUnique_breadthFirst fun n => mem_of_reachable tree loadPath roots
  rw [loadGraph_eq_loadAll tree loadPath roots first] at h ⊢
  dsimp only at h
  cases all : (loadAll (loadModule tree.lookup loadPath) order).outcome with
  | error e =>
    rw [all] at h
    cases h
  | ok xs =>
    rw [all] at h
    cases h
    obtain ⟨named, loads, log⟩ := loadAll_ok loadModule_ok all
    refine ⟨⟨named.symm ▸ first.nodup, fun x => ?_⟩, log⟩
    rw [← first.members, ← named]
    constructor
    · exact fun mem => ⟨List.mem_map_of_mem mem, loads x mem⟩
    · rintro ⟨mem, loaded⟩
      obtain ⟨y, inside, sameName⟩ := List.mem_map.mp mem
      have found := loads y inside
      rw [sameName, loaded] at found
      cases found
      exact inside

/-- Roots in another order are loaded to the same modules in another order. -/
theorem loadGraph_perm (same : ∀ r, r ∈ roots ↔ r ∈ roots')
    (h : (loadGraph tree loadPath roots).outcome = .ok g) :
    ∃ g', (loadGraph tree loadPath roots').outcome = .ok g' ∧ g.modules.Perm g'.modules := by
  have loads := (exists_loadGraph_iff tree loadPath roots).mp ⟨g, h⟩
  obtain ⟨g', h'⟩ := (exists_loadGraph_iff tree loadPath roots').mpr fun n reachable =>
    loads n ((reachable_congr same n).mpr reachable)
  exact ⟨g', h', (loadGraph_closure h).1.perm (loadGraph_closure h').1 same⟩

end

end ThetaSchema
