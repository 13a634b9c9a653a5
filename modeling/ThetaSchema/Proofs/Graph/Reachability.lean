import Mathlib.Logic.Function.Iterate
import Mathlib.Logic.Relation
import ThetaSchema.Graph.Basic

/-!
# Reachability in module graphs

The modules that are accessible from a module are those that import edges lead to.  The search keeps the
indices that it has not seen; what is left of them at the end is exactly what no edge leads to.  Each of its
steps settles one index, so it takes no more steps than there are modules, whatever cycles they form.

Main definitions:

- `ModuleGraph.Imports`: the edges, from a module to every module with a name that it imports.
- `ModuleGraph.Reaches`: zero or more edges.
- `ModuleGraph.Search.step`: the step of the search that settles one pending index.

Main results:

- `ModuleGraph.unreached_closed`: no edge leads from what the search has seen to what it has not.
- `ModuleGraph.mem_accessible_iff`: the search finds exactly the reachable indices.
- `ModuleGraph.Search.iterate_step`: the steps of the search come to its result.
- `ModuleGraph.accessible_exact`: the search ends, and lists the reachable indices in ascending order.
-/

namespace ThetaSchema
namespace ModuleGraph

/-- An edge from the module at an index to the module at another: the first imports the name of the
second. -/
def Imports (g : ModuleGraph) (i j : Nat) : Prop :=
  ∃ a b, g.modules[i]? = some a ∧ g.modules[j]? = some b ∧ b.name ∈ a.imports

/-- Zero or more edges lead from an index to another. -/
def Reaches (g : ModuleGraph) : Nat → Nat → Prop :=
  Relation.ReflTransGen g.Imports

variable {g : ModuleGraph}

/-- The check of an import decides whether there is one. -/
theorem importsFrom_eq_true_iff {i j : Nat} : g.importsFrom i j = true ↔ g.Imports i j := by
  unfold importsFrom Imports
  constructor
  · intro edge
    split at edge
    · next a b first second => exact ⟨a, b, first, second, List.contains_iff_mem.mp edge⟩
    · cases edge
  · rintro ⟨a, b, first, second, mem⟩
    rw [first, second]
    exact List.contains_iff_mem.mpr mem

/-- The imported indices are those that an edge leads to. -/
theorem mem_imported_iff {i j : Nat} {indices : List Nat} :
    j ∈ g.imported i indices ↔ j ∈ indices ∧ g.Imports i j := by
  rw [imported, List.mem_filter, importsFrom_eq_true_iff]

/-- The other indices are those that no edge leads to. -/
theorem mem_notImported_iff {i j : Nat} {indices : List Nat} :
    j ∈ g.notImported i indices ↔ j ∈ indices ∧ ¬ g.Imports i j := by
  rw [notImported, List.mem_filter, Bool.not_eq_true', ← Bool.not_eq_true, importsFrom_eq_true_iff]

/-! ## The search -/

/-- What is never reached was not seen before. -/
theorem unreached_subset {unseen pending : List Nat} :
    ∀ j ∈ g.unreached unseen pending, j ∈ unseen := by
  fun_induction unreached g unseen pending with
  | case1 unseen => exact fun j mem => mem
  | case2 unseen i others ih =>
    intro j mem
    exact (mem_notImported_iff.mp (ih j mem)).1

/-- What the search removes from the unseen indices is reachable from a pending one. -/
theorem reaches_of_not_mem_unreached {unseen pending : List Nat} :
    ∀ j ∈ unseen, j ∉ g.unreached unseen pending → ∃ p ∈ pending, g.Reaches p j := by
  fun_induction unreached g unseen pending with
  | case1 unseen => exact fun j mem out => absurd mem out
  | case2 unseen i others ih =>
    intro j mem out
    by_cases edge : g.Imports i j
    · exact ⟨i, List.mem_cons_self, .single edge⟩
    · rcases ih j (mem_notImported_iff.mpr ⟨mem, edge⟩) out with ⟨p, inside, path⟩
      rcases List.mem_append.mp inside with new | old
      · exact ⟨i, List.mem_cons_self, .head (mem_imported_iff.mp new).2 path⟩
      · exact ⟨p, List.mem_cons_of_mem i old, path⟩

/-- No edge leads from what the search has seen to what it has not: neither from a pending index nor from
one that it removes. -/
theorem unreached_closed {unseen pending : List Nat} :
    ∀ j ∈ g.unreached unseen pending, (∀ p ∈ pending, ¬ g.Imports p j) ∧
      ∀ a ∈ unseen, g.Imports a j → a ∈ g.unreached unseen pending := by
  fun_induction unreached g unseen pending with
  | case1 unseen =>
    intro j mem
    exact ⟨by simp, fun a inside _ => inside⟩
  | case2 unseen i others ih =>
    intro j mem
    rcases ih j mem with ⟨noPending, closed⟩
    constructor
    · intro p inside
      rcases List.mem_cons.mp inside with rfl | old
      · exact (mem_notImported_iff.mp (unreached_subset j mem)).2
      · exact noPending p (List.mem_append_right _ old)
    · intro a inside edge
      by_cases new : g.Imports i a
      · exact absurd edge (noPending a (List.mem_append_left _ (mem_imported_iff.mpr ⟨inside, new⟩)))
      · exact closed a (mem_notImported_iff.mpr ⟨inside, new⟩) edge

/-! ## Accessible modules -/

/-- Imports stay in the graph. -/
theorem Imports.lt_size {i j : Nat} (h : g.Imports i j) : j < g.size := by
  rcases h with ⟨a, b, -, second, -⟩
  rcases List.getElem?_eq_some_iff.mp second with ⟨bound, -⟩
  exact bound

/-- Paths along imports stay in the graph. -/
theorem Reaches.lt_size {i j : Nat} (h : g.Reaches i j) (valid : i < g.size) : j < g.size := by
  induction h with
  | refl => exact valid
  | tail path edge ih => exact edge.lt_size

/-- The search finds exactly the indices that import edges lead to. -/
theorem mem_accessible_iff {i j : Nat} (valid : i < g.size) : j ∈ g.accessible i ↔ g.Reaches i j := by
  have start : ∀ k, k ∈ (List.range g.size).filter (· != i) ↔ k < g.size ∧ k ≠ i := by
    intro k
    rw [List.mem_filter, List.mem_range, bne_iff_ne]
  rw [accessible, List.mem_filter, List.mem_range, Bool.not_eq_true', ← Bool.not_eq_true,
    List.contains_iff_mem]
  constructor
  · rintro ⟨bound, found⟩
    by_cases same : j = i
    · rw [same]
      exact .refl
    · rcases reaches_of_not_mem_unreached j ((start j).mpr ⟨bound, same⟩) found with ⟨p, mem, path⟩
      rwa [List.mem_singleton.mp mem] at path
  · intro path
    refine ⟨path.lt_size valid, ?_⟩
    induction path with
    | refl =>
      intro mem
      exact ((start i).mp (unreached_subset i mem)).2 rfl
    | @tail a b path edge ih =>
      intro mem
      rcases unreached_closed b mem with ⟨noPending, closed⟩
      by_cases same : a = i
      · rw [same] at edge
        exact noPending i List.mem_cons_self edge
      · exact ih (closed a ((start a).mpr ⟨Reaches.lt_size path valid, same⟩) edge)

/-- The accessible indices ascend. -/
theorem accessible_pairwise (g : ModuleGraph) (i : Nat) : (g.accessible i).Pairwise (· < ·) :=
  List.pairwise_lt_range.filter _

/-! ## The course of the search -/

/-- Where a search stands: the indices that it has not met, and those that it has met but not settled. -/
structure Search where
  unseen : List Nat
  pending : List Nat

namespace Search

/-- A search that has met nothing but the index it starts from. -/
def start (g : ModuleGraph) (i : Nat) : Search :=
  ⟨(List.range g.size).filter (· != i), [i]⟩

/-- One step settles a pending index: what it imports and was not met before becomes pending. -/
def step (g : ModuleGraph) (s : Search) : Search :=
  match s.pending with
  | [] => s
  | i :: others => ⟨g.notImported i s.unseen, g.imported i s.unseen ++ others⟩

/-- The number of indices that are not settled. -/
def unsettled (s : Search) : Nat :=
  s.unseen.length + s.pending.length

/-- A step settles exactly one index: those that it makes pending leave the unseen ones. -/
theorem unsettled_step {s : Search} (h : s.pending ≠ []) : (s.step g).unsettled + 1 = s.unsettled := by
  rcases s with ⟨unseen, _ | ⟨i, others⟩⟩
  · exact absurd rfl h
  · have total := g.length_imported_add_length_notImported i unseen
    simp only [step, unsettled, List.length_append, List.length_cons]
    omega

/-- As many steps as there are unsettled indices leave nothing pending, and the result of the search. -/
theorem iterate_step {n : Nat} {s : Search} (enough : s.unsettled ≤ n) :
    (step g)^[n] s = ⟨g.unreached s.unseen s.pending, []⟩ := by
  induction n generalizing s with
  | zero =>
    rcases s with ⟨unseen, pending⟩
    rw [unsettled, Nat.le_zero, Nat.add_eq_zero_iff, List.length_eq_zero_iff,
      List.length_eq_zero_iff] at enough
    rcases enough with ⟨rfl, rfl⟩
    rw [unreached]
    rfl
  | succ n ih =>
    rw [Function.iterate_succ_apply]
    rcases s with ⟨unseen, _ | ⟨i, others⟩⟩
    · have stays : step g ⟨unseen, []⟩ = ⟨unseen, []⟩ := rfl
      rw [stays, Function.iterate_fixed stays, unreached]
    · have settled := unsettled_step (g := g) (s := ⟨unseen, i :: others⟩) (List.cons_ne_nil i others)
      rw [ih (by omega), unreached]
      rfl

/-- At its start a search has as many unsettled indices as there are modules. -/
theorem unsettled_start {i : Nat} (valid : i < g.size) : (start g i).unsettled = g.size := by
  have others : ((List.range g.size).filter (· != i)).length + 1 = g.size := by
    rw [← List.nodup_range.erase_eq_filter, List.length_erase_of_mem (List.mem_range.mpr valid),
      List.length_range]
    omega
  exact others

end Search

/-! ## Reachability by import statements -/

/-- An edge leads from a module to another when one of its import statements names the other one. -/
theorem imports_iff_statement {i j : Nat} :
    g.Imports i j ↔ ∃ a b l, g.modules[i]? = some a ∧ g.modules[j]? = some b ∧
      Statement.imports l b.name ∈ a.statements := by
  have stated : ∀ (a : SchemaModule) (name : Text),
      name ∈ a.imports ↔ ∃ l, Statement.imports l name ∈ a.statements := by
    intro a name
    rw [SchemaModule.imports, List.mem_filterMap]
    constructor
    · rintro ⟨s, mem, names⟩
      cases s with
      | imports l moduleName =>
        cases names
        exact ⟨l, mem⟩
      | defines d => cases names
    · rintro ⟨l, mem⟩
      exact ⟨_, mem, rfl⟩
  simp only [Imports, stated]
  constructor
  · rintro ⟨a, b, first, second, l, mem⟩
    exact ⟨a, b, l, first, second, mem⟩
  · rintro ⟨a, b, l, first, second, mem⟩
    exact ⟨a, b, first, second, l, mem⟩

/-- From every index the search ends after at most as many steps as there are modules.  What it has met by
then is listed in strictly ascending order, and it is exactly what zero or more edges lead to, where an edge
goes from a module to every module whose name one of its import statements names. -/
theorem accessible_exact (g : ModuleGraph) {i : Nat} (valid : i < g.size) :
    (∃ unseen, (Search.step g)^[g.size] (Search.start g i) = ⟨unseen, []⟩ ∧
        ∀ j, j ∈ g.accessible i ↔ j < g.size ∧ j ∉ unseen) ∧
      (g.accessible i).Pairwise (· < ·) ∧
      ∀ j, j ∈ g.accessible i ↔ Relation.ReflTransGen (fun k k' => ∃ a b l,
        g.modules[k]? = some a ∧ g.modules[k']? = some b ∧ Statement.imports l b.name ∈ a.statements) i j := by
  refine ⟨⟨_, Search.iterate_step (Nat.le_of_eq (Search.unsettled_start valid)), ?_⟩, ?_, ?_⟩
  · intro j
    simp only [accessible, List.mem_filter, List.mem_range, Bool.not_eq_true', ← Bool.not_eq_true,
      List.contains_iff_mem]
    rfl
  · exact accessible_pairwise g i
  · intro j
    rw [mem_accessible_iff valid, Reaches]
    have edges : g.Imports = fun k k' => ∃ a b l, g.modules[k]? = some a ∧ g.modules[k']? = some b ∧
        Statement.imports l b.name ∈ a.statements := by
      funext k k'
      exact propext imports_iff_statement
    rw [edges]

/-- Five modules, two of them with the same name: imports go round in circles, to the importing module
itself, to no module at all, and twice to the same name. -/
def circularGraph : ModuleGraph :=
  let named (name : Text) (imported : List Text) : SchemaModule :=
    ⟨[], ⟨⟨1, 0, 0⟩, ⟨1, 0, 0⟩, name⟩, imported.map (Statement.imports {})⟩
  ⟨[named "apart" ["a"], named "a" ["b", "none", "b"], named "b" ["b"], named "c" [], named "b" ["c", "a"]]⟩

/-- From the second module everything but the first one is reached, each index once. -/
theorem accessible_exact_circular :
    1 < circularGraph.size ∧ circularGraph.accessible 1 = [1, 2, 3, 4] ∧
      (∃ unseen, (Search.step circularGraph)^[circularGraph.size] (Search.start circularGraph 1) = ⟨unseen, []⟩ ∧
        ∀ j, j ∈ circularGraph.accessible 1 ↔ j < circularGraph.size ∧ j ∉ unseen) ∧
      (circularGraph.accessible 1).Pairwise (· < ·) ∧
      ∀ j, j ∈ circularGraph.accessible 1 ↔ Relation.ReflTransGen (fun k k' => ∃ a b l,
        circularGraph.modules[k]? = some a ∧ circularGraph.modules[k']? = some b ∧
          Statement.imports l b.name ∈ a.statements) 1 j :=
  ⟨by decide, by decide +kernel, accessible_exact circularGraph (by decide)⟩

end ModuleGraph
end ThetaSchema
