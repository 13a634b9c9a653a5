import ThetaSchema.Loading.Closure
import ThetaSchema.Proofs.Loading.BreadthFirst
import ThetaSchema.Proofs.Loading.Places

/-!
# Loading follows the imports

Loading roots with everything they import is loading the names that imports lead to one after the other,
in breadth-first order, up to the first failure.

Main definitions:

- `importsOf`: what the module with a name imports.
- `loadAll`: one name after the other is loaded.
- `Loading.Follows`: what holds at every time of a loading.

Main results:

- `Loading.Follows.absorb`: it still holds after one more module is loaded.
- `Loading.run_eq_loadAll`: a loading loads the names that remain of the breadth-first order.
- `loadGraph_importClosure`: what loading a graph gives.
-/

namespace ThetaSchema

variable {load : Text → Logged SchemaModule}

/-- The names that the module with a name imports.  A name that cannot be loaded imports nothing. -/
def importsOf (load : Text → Logged SchemaModule) (name : Text) : List Text :=
  (load name).outcome.toOption.elim [] SchemaModule.imports

/-- What a name imports is what its module does, once this is loaded. -/
theorem importsOf_eq {name : Text} {x : SchemaModule} (h : (load name).outcome = .ok x) :
    importsOf load name = x.imports := by
  rw [importsOf, h]
  rfl

/-! ## One name after the other -/

/-- Loads names one after the other, up to the first failure. -/
def loadAll (load : Text → Logged SchemaModule) : List Text → Logged (List SchemaModule)
  | [] => .succeed []
  | name :: others => (load name).andThen fun x => (loadAll load others).andThen fun xs => .succeed (x :: xs)

/-- A first name that cannot be loaded ends the loading. -/
theorem loadAll_cons_error {name : Text} {others : List Text} {e : SchemaError}
    (h : (load name).outcome = .error e) : loadAll load (name :: others) = ⟨(load name).log, .error e⟩ :=
  Logged.andThen_error h

/-- A first name that can be loaded stands in front of what the others give. -/
theorem loadAll_cons_ok {name : Text} {others : List Text} {x : SchemaModule}
    (h : (load name).outcome = .ok x) :
    loadAll load (name :: others) =
      ⟨(load name).log ++ (loadAll load others).log, (loadAll load others).outcome.map (x :: ·)⟩ := by
  rw [loadAll, Logged.andThen_ok h, Logged.andThen_succeed]

/-- Names are all loaded exactly when each of them can be. -/
theorem exists_loadAll_iff {names : List Text} :
    (∃ xs, (loadAll load names).outcome = .ok xs) ↔ ∀ n ∈ names, ∃ x, (load n).outcome = .ok x := by
  induction names with
  | nil => simp [loadAll, Logged.succeed]
  | cons n others ih =>
    rw [List.forall_mem_cons, ← ih]
    cases first : (load n).outcome with
    | error e => simp [loadAll_cons_error first]
    | ok x =>
      rw [loadAll_cons_ok first]
      cases (loadAll load others).outcome with
      | error e => simp [Except.map]
      | ok xs => simp [Except.map]

/-- Where one name cannot be loaded, the error is that of the first such name. -/
theorem loadAll_error {names : List Text} {e : SchemaError} (h : (loadAll load names).outcome = .error e) :
    ∃ before n after, names = before ++ n :: after ∧ (∀ a ∈ before, ∃ x, (load a).outcome = .ok x) ∧
      (load n).outcome = .error e := by
  induction names with
  | nil => cases h
  | cons n others ih =>
    cases first : (load n).outcome with
    | error e' =>
      rw [loadAll_cons_error first] at h
      cases h
      exact ⟨[], n, others, rfl, by simp, first⟩
    | ok x =>
      rw [loadAll_cons_ok first] at h
      cases rest : (loadAll load others).outcome with
      | ok xs =>
        rw [rest] at h
        cases h
      | error e' =>
        rw [rest] at h
        cases h
        rcases ih rest with ⟨before, m, after, split, loaded, failed⟩
        refine ⟨n :: before, m, after, by rw [split, List.cons_append], ?_, failed⟩
        exact List.forall_mem_cons.mpr ⟨⟨x, first⟩, loaded⟩

/-- Names that are all loaded give modules with these names, and one note for each. -/
theorem loadAll_ok
    (noted : ∀ {n x}, (load n).outcome = .ok x → x.name = n ∧ load n = ⟨[loadingNote x.name x.file], .ok x⟩)
    {names : List Text} {xs : List SchemaModule} (h : (loadAll load names).outcome = .ok xs) :
    xs.map SchemaModule.name = names ∧ (∀ x ∈ xs, (load x.name).outcome = .ok x) ∧
      (loadAll load names).log = xs.map fun x => loadingNote x.name x.file := by
  induction names generalizing xs with
  | nil =>
    cases h
    exact ⟨rfl, by simp, rfl⟩
  | cons n others ih =>
    cases first : (load n).outcome with
    | error e =>
      rw [loadAll_cons_error first] at h
      cases h
    | ok x =>
      rcases noted first with ⟨rfl, note⟩
      rw [loadAll_cons_ok first] at h ⊢
      cases rest : (loadAll load others).outcome with
      | error e =>
        rw [rest] at h
        cases h
      | ok ys =>
        rw [rest] at h
        cases h
        rcases ih rest with ⟨named, loaded, log⟩
        refine ⟨congrArg (x.name :: ·) named, List.forall_mem_cons.mpr ⟨first, loaded⟩, ?_⟩
        dsimp only
        rw [log, note]
        rfl

/-! ## The state of a loading -/

namespace Loading

variable {roots : List Text} {l : Loading}

/-- Scheduling names loads nothing. -/
@[simp]
theorem loaded_schedule (names : List Text) : (l.schedule names).loaded = l.loaded := by
  fun_induction schedule l names with
  | case1 => rfl
  | case2 _ _ _ _ ih => exact ih
  | case3 _ _ _ _ ih => exact ih

/-- What is scheduled is the first occurrences in everything that was to be scheduled so far. -/
theorem scheduled_schedule (names earlier : List Text) (h : l.scheduled = earlier.eraseDups) :
    (l.schedule names).scheduled = (earlier ++ names).eraseDups := by
  fun_induction schedule l names generalizing earlier with
  | case1 => rw [List.append_nil, h]
  | case2 l n others known ih =>
    have old : n ∈ earlier := by simpa [h] using known
    rw [List.append_cons earlier]
    refine ih _ ?_
    rw [eraseDups_concat, if_pos old, h]
  | case3 l n others unknown ih =>
    have new : n ∉ earlier := by simpa [h] using unknown
    rw [List.append_cons earlier]
    refine ih _ ?_
    dsimp only
    rw [eraseDups_concat, if_neg new, h]

/-- Scheduling puts names at the end of those that are pending. -/
theorem scheduled_eq_schedule (names settled : List Text) (h : l.scheduled = settled ++ l.pending) :
    (l.schedule names).scheduled = settled ++ (l.schedule names).pending := by
  fun_induction schedule l names with
  | case1 => exact h
  | case2 l n others known ih => exact ih h
  | case3 l n others unknown ih =>
    refine ih ?_
    dsimp only
    rw [h, List.append_assoc]

/-- At any time of a loading the scheduled names are those of the loaded modules and then the pending ones,
and they are what the roots and the imports of the loaded modules bring up, in the order in which it comes
up. -/
structure Follows (load : Text → Logged SchemaModule) (roots : List Text) (l : Loading) : Prop where
  queue : l.scheduled = l.loaded.map SchemaModule.name ++ l.pending
  discovery : l.scheduled = (roots ++ (l.loaded.map SchemaModule.name).flatMap (importsOf load)).eraseDups
  loads : ∀ x ∈ l.loaded, (load x.name).outcome = .ok x

@[simp]
theorem loaded_start (roots : List Text) : (start roots).loaded = [] :=
  loaded_schedule roots

/-- A loading starts in step with the search. -/
theorem Follows.start (load : Text → Logged SchemaModule) (roots : List Text) :
    (start roots).Follows load roots where
  queue := by
    rw [loaded_start]
    exact scheduled_eq_schedule roots [] rfl
  discovery := by
    rw [loaded_start, List.map_nil, List.flatMap_nil, List.append_nil]
    exact scheduled_schedule roots [] rfl
  loads := by simp

variable {n : Text} {others : List Text} {x : SchemaModule}

/-- Loading a pending module and scheduling what it imports keeps a loading on its way. -/
theorem Follows.absorb (h : l.Follows load roots) (next : l.pending = n :: others)
    (loaded : (load n).outcome = .ok x) (named : x.name = n) : (l.absorb others x).Follows load roots where
  queue := by
    rw [Loading.absorb, loaded_schedule]
    refine scheduled_eq_schedule _ _ ?_
    rw [h.queue, next, List.map_append, List.map_singleton, named, List.append_assoc, List.singleton_append]
  discovery := by
    have discovery := scheduled_schedule (l := { l with pending := others, loaded := l.loaded ++ [x] })
      x.imports _ h.discovery
    rw [Loading.absorb, loaded_schedule, discovery]
    dsimp only
    rw [List.map_append, List.map_singleton, List.flatMap_append, List.flatMap_singleton, named,
      importsOf_eq loaded, List.append_assoc]
  loads := by
    rw [Loading.absorb, loaded_schedule]
    intro y mem
    rcases List.mem_append.mp mem with early | late
    · exact h.loads y early
    · rw [List.mem_singleton.mp late, named]
      exact loaded

/-- Every name is scheduled once. -/
theorem Follows.nodup (h : l.Follows load roots) : (l.loaded.map SchemaModule.name ++ l.pending).Nodup := by
  rw [← h.queue, h.discovery]
  exact nodup_eraseDups _

/-- The loaded modules have different names, so there are at most as many as names that can be loaded. -/
theorem Follows.length_loaded_le {bound : Nat} (h : l.Follows load roots)
    (bounded : ∀ names : List Text, names.Nodup → (∀ n ∈ names, ∃ x, (load n).outcome = .ok x) →
      names.length ≤ bound) : l.loaded.length ≤ bound := by
  have few := bounded _ (List.nodup_append.mp h.nodup).1 fun m mem => by
    rcases List.mem_map.mp mem with ⟨x, inside, rfl⟩
    exact ⟨x, h.loads x inside⟩
  rwa [List.length_map] at few

/-- Absorbing a module adds one to those that are loaded. -/
theorem length_loaded_absorb : (l.absorb others x).loaded.length = l.loaded.length + 1 := by
  rw [absorb, loaded_schedule, List.length_append, List.length_singleton]

variable {order rest : List Text}

/-- The names scheduled so far are the first ones of the breadth-first order. -/
theorem Follows.scheduled_isPrefix (h : l.Follows load roots)
    (first : BreadthFirst (importsOf load) roots order)
    (remaining : order = l.loaded.map SchemaModule.name ++ rest) : l.scheduled <+: order := by
  rw [h.discovery, first.discovery]
  refine isPrefix_discovery ?_
  rw [remaining]
  exact List.prefix_append _ _

/-- The first pending name is the next one of the breadth-first order. -/
theorem Follows.next (h : l.Follows load roots) (first : BreadthFirst (importsOf load) roots order)
    (remaining : order = l.loaded.map SchemaModule.name ++ rest) (next : l.pending = n :: others) :
    ∃ later, rest = n :: later := by
  have scheduled := h.scheduled_isPrefix first remaining
  rw [h.queue, next, remaining, List.prefix_append_right_inj] at scheduled
  rcases scheduled with ⟨later, split⟩
  exact ⟨others ++ later, split.symm⟩

/-- When nothing is pending, nothing remains of the breadth-first order. -/
theorem Follows.finished (h : l.Follows load roots) (first : BreadthFirst (importsOf load) roots order)
    (remaining : order = l.loaded.map SchemaModule.name ++ rest) (done : l.pending = []) : rest = [] := by
  have closed : l.loaded.map SchemaModule.name =
      (roots ++ (l.loaded.map SchemaModule.name).flatMap (importsOf load)).eraseDups := by
    rw [← h.discovery, h.queue, done, List.append_nil]
  have start : ∀ m ∈ roots, m ∈ l.loaded.map SchemaModule.name := by
    intro m mem
    rw [closed, List.mem_eraseDups]
    exact List.mem_append_left _ mem
  have imported : ∀ a ∈ l.loaded.map SchemaModule.name, ∀ m ∈ importsOf load a,
      m ∈ l.loaded.map SchemaModule.name := by
    intro a inside m mem
    rw [closed, List.mem_eraseDups]
    exact List.mem_append_right _ (List.mem_flatMap.mpr ⟨a, inside, mem⟩)
  have nodup := first.nodup
  rw [remaining, List.nodup_append] at nodup
  refine List.eq_nil_iff_forall_not_mem.mpr fun m mem => ?_
  have reachable := (first.members m).mp (remaining ▸ List.mem_append_right _ mem)
  exact nodup.2.2 m (reachable.mem_of_closed start imported) m mem rfl

/-- A loading with enough steps loads what remains of the breadth-first order.  The loaded modules have
different names, so if there are at most `bound` names to be loaded, one more step than that suffices. -/
theorem run_eq_loadAll {bound : Nat}
    (named : ∀ {n x}, (load n).outcome = .ok x → x.name = n)
    (bounded : ∀ names : List Text, names.Nodup → (∀ n ∈ names, ∃ x, (load n).outcome = .ok x) →
      names.length ≤ bound)
    (first : BreadthFirst (importsOf load) roots order) {steps : Nat} (h : l.Follows load roots)
    (enough : steps + l.loaded.length = bound + 1)
    (remaining : order = l.loaded.map SchemaModule.name ++ rest) :
    run load steps l =
      ⟨(loadAll load rest).log, (loadAll load rest).outcome.map fun xs => ⟨l.loaded ++ xs⟩⟩ := by
  induction steps generalizing l rest with
  | zero =>
    have few := h.length_loaded_le bounded
    omega
  | succ steps ih =>
    rw [run]
    cases next : l.pending with
    | nil =>
      rw [h.finished first remaining next]
      simp [loadAll, Logged.succeed, Except.map]
    | cons n others =>
      rcases h.next first remaining next with ⟨later, rfl⟩
      dsimp only
      cases outcome : (load n).outcome with
      | error e =>
        rw [loadAll_cons_error outcome, Logged.andThen_error outcome]
        rfl
      | ok x =>
        rw [loadAll_cons_ok outcome, Logged.andThen_ok outcome,
          ih (h.absorb next outcome (named outcome)) (by rw [length_loaded_absorb]; omega)
            (show order = (l.absorb others x).loaded.map SchemaModule.name ++ later by
              simp [remaining, Loading.absorb, named outcome])]
        dsimp only
        cases (loadAll load later).outcome with
        | error e => rfl
        | ok xs => simp [Loading.absorb, Except.map]

end Loading

/-! ## Graphs -/

variable (tree : FileTree) (loadPath roots : List Text)

/-- The names that imports lead to are among the roots and what the modules of the tree import. -/
theorem mem_of_reachable {n : Text}
    (h : Reachable (importsOf (loadModule tree.lookup loadPath)) roots n) :
    n ∈ roots ++ (keptModules tree loadPath).flatMap (importsOf (loadModule tree.lookup loadPath)) := by
  rcases h with ⟨k, near⟩
  cases near with
  | root _ mem => exact List.mem_append_left _ mem
  | @imported k a _ near mem =>
    cases outcome : (loadModule tree.lookup loadPath a).outcome with
    | error e => simp [importsOf, outcome, Except.toOption] at mem
    | ok x => exact List.mem_append_right _ (List.mem_flatMap.mpr ⟨a, mem_keptModules outcome, mem⟩)

/-- Loading a graph loads the names of the search one after the other, with the same reports. -/
theorem loadGraph_eq_loadAll {order : List Text}
    (first : BreadthFirst (importsOf (loadModule tree.lookup loadPath)) roots order) :
    loadGraph tree loadPath roots = ⟨(loadAll (loadModule tree.lookup loadPath) order).log,
      (loadAll (loadModule tree.lookup loadPath) order).outcome.map ModuleGraph.mk⟩ := by
  have enough : loadPath.length * tree.files.length + 1 + (Loading.start roots).loaded.length =
      loadPath.length * tree.files.length + 1 := by
    rw [Loading.loaded_start, List.length_nil, Nat.add_zero]
  have remaining : order = (Loading.start roots).loaded.map SchemaModule.name ++ order := by simp
  have ran := Loading.run_eq_loadAll (fun loaded => (loadModule_ok loaded).1) (fun _ => length_le_of_found)
    first (Loading.Follows.start _ roots) enough remaining
  rw [loadGraph, ran, Loading.loaded_start]
  rfl

/-- Loading a graph computes the import closure of its roots.  The reachable names have exactly one
breadth-first order, and the loading succeeds exactly when all of them can be loaded.  On success the graph
has their modules in that order, and there is one note for each; on failure the error is that of the first
name in the order that cannot be loaded. -/
theorem loadGraph_importClosure :
    ∃ order, (∀ other, BreadthFirst (importsOf (loadModule tree.lookup loadPath)) roots other ↔
        other = order) ∧
      ((∃ g, (loadGraph tree loadPath roots).outcome = .ok g) ↔
        ∀ n, Reachable (importsOf (loadModule tree.lookup loadPath)) roots n →
          ∃ x, (loadModule tree.lookup loadPath n).outcome = .ok x) ∧
      (∀ g, (loadGraph tree loadPath roots).outcome = .ok g →
        g.modules.map SchemaModule.name = order ∧
        (∀ x ∈ g.modules, (loadModule tree.lookup loadPath x.name).outcome = .ok x) ∧
        (loadGraph tree loadPath roots).log = g.modules.map fun x => loadingNote x.name x.file) ∧
      (∀ e, (loadGraph tree loadPath roots).outcome = .error e →
        ∃ before n after, order = before ++ n :: after ∧
          (∀ a ∈ before, ∃ x, (loadModule tree.lookup loadPath a).outcome = .ok x) ∧
          (loadModule tree.lookup loadPath n).outcome = .error e) := by
  rcases existsUnique_breadthFirst fun n => mem_of_reachable tree loadPath roots with ⟨order, first, unique⟩
  refine ⟨order, fun other => ⟨unique other, fun same => same ▸ first⟩, ?_⟩
  simp only [← first.members, loadGraph_eq_loadAll tree loadPath roots first]
  rw [← exists_loadAll_iff]
  cases all : (loadAll (loadModule tree.lookup loadPath) order).outcome with
  | error e =>
    refine ⟨by simp [Except.map], by simp [Except.map], ?_⟩
    intro e' failed
    cases failed
    exact loadAll_error all
  | ok xs =>
    have loaded := loadAll_ok loadModule_ok all
    refine ⟨by simp [Except.map], ?_, by simp [Except.map]⟩
    intro g success
    cases success
    exact loaded

/-- A schema that only imports. -/
def importingSource (imports : Text) : Text :=
  "language-version: 1.0.0\nencoding-version: 1.0.0\n---\n" ++ imports

/-- Three schemas of which two import each other, below a directory. -/
def importingTree : FileTree :=
  ((({} : FileTree).insert "lib/a.theta" (.file (importingSource "import b\nimport c.d"))).insert
    "lib/b.theta" (.file (importingSource "import c.d\nimport a"))).insert
    "lib/c/d.theta" (.file (importingSource ""))

example : (loadGraph importingTree ["lib/c/..", "lib"] ["a"]).outcome.toOption.map
    (fun g => g.modules.map SchemaModule.name) = some (["a", "b", "c.d"].map Text.ofString) := by
  decide +kernel

end ThetaSchema
