import Mathlib.Data.List.Infix
import Mathlib.Data.List.Perm.Subperm
import Mathlib.Order.Lattice
import ThetaSchema.Text.Basic

/-!
# Breadth-first order of imports

Root names and what every name imports determine the names that imports lead to, and an order in which to
meet them: the roots first, then what they import, then what these import, each name where it comes up for
the first time.

Main definitions:

- `Within`, `Reachable`: the names that so many imports, or any number of imports, lead to.
- `BreadthFirst`: the reachable names, each once, in the order in which they come up.
- `discovered`: the names that come up in a number of rounds.

Main results:

- `BreadthFirst.discovered_isPrefix`: the order begins with the names of the first rounds.
- `existsUnique_breadthFirst`: if all reachable names are on some list, they have one breadth-first order.
-/

namespace ThetaSchema

/-! ## First occurrences -/

theorem nodup_eraseDups (names : List Text) : names.eraseDups.Nodup := by
  match names with
  | [] => exact List.nodup_nil
  | n :: others =>
    rw [List.eraseDups_cons, List.nodup_cons]
    refine ⟨?_, nodup_eraseDups _⟩
    intro mem
    simpa using (List.mem_filter.mp (List.mem_eraseDups.mp mem)).2
termination_by names.length
decreasing_by exact Nat.lt_succ_of_le (List.length_filter_le _ _)

/-- More names at the end leave the first occurrences of the others where they are. -/
theorem eraseDups_isPrefix {names more : List Text} (h : names <+: more) :
    names.eraseDups <+: more.eraseDups := by
  rcases h with ⟨added, rfl⟩
  rw [List.eraseDups_append]
  exact List.prefix_append _ _

/-- One more name at the end comes up for the first time there if it is new. -/
theorem eraseDups_concat (names : List Text) (n : Text) :
    (names ++ [n]).eraseDups = if n ∈ names then names.eraseDups else names.eraseDups ++ [n] := by
  rw [List.eraseDups_append, List.cons_removeAll, List.nil_removeAll]
  by_cases mem : n ∈ names
  · simp [mem]
  · simp [mem, List.eraseDups_cons]

/-! ## Names that imports lead to -/

/-- A name is within so many imports of the roots if it is a root or imported by a name that is nearer. -/
inductive Within (imports : Text → List Text) (roots : List Text) : Nat → Text → Prop
  | root {n : Text} (k : Nat) (mem : n ∈ roots) : Within imports roots k n
  | imported {k : Nat} {a n : Text} (near : Within imports roots k a) (mem : n ∈ imports a) :
      Within imports roots (k + 1) n

/-- A name is reachable if imports lead from a root to it. -/
def Reachable (imports : Text → List Text) (roots : List Text) (n : Text) : Prop :=
  ∃ k, Within imports roots k n

/-- The reachable names, each once, in the order of a breadth-first search: those within fewer imports of
the roots come first, and among all of them each stands where it comes up first in the list of the roots
and then the imports of every name in turn. -/
structure BreadthFirst (imports : Text → List Text) (roots order : List Text) : Prop where
  nodup : order.Nodup
  members : ∀ n, n ∈ order ↔ Reachable imports roots n
  layers : ∀ k, ∃ near, near <+: order ∧ ∀ n, n ∈ near ↔ Within imports roots k n
  discovery : order = (roots ++ order.flatMap imports).eraseDups

variable {imports : Text → List Text} {roots : List Text}

theorem Within.succ {k : Nat} {n : Text} (h : Within imports roots k n) :
    Within imports roots (k + 1) n := by
  induction h with
  | root k mem => exact .root (k + 1) mem
  | imported near mem ih => exact .imported ih mem

/-- What is within some steps is within more of them. -/
theorem Within.mono {j k : Nat} {n : Text} (h : Within imports roots j n) (le : j ≤ k) :
    Within imports roots k n := by
  induction le with
  | refl => exact h
  | step le ih => exact ih.succ

/-- Names that include the roots and everything they import include every reachable name. -/
theorem Reachable.mem_of_closed {names : List Text} (start : ∀ n ∈ roots, n ∈ names)
    (closed : ∀ a ∈ names, ∀ n ∈ imports a, n ∈ names) {n : Text} (h : Reachable imports roots n) :
    n ∈ names := by
  rcases h with ⟨k, near⟩
  induction near with
  | root k mem => exact start _ mem
  | imported near mem ih => exact closed _ ih _ mem

/-- Finitely many reachable names are within a common number of imports. -/
theorem exists_within {names : List Text} (reachable : ∀ n ∈ names, Reachable imports roots n) :
    ∃ k, ∀ n ∈ names, Within imports roots k n := by
  induction names with
  | nil => exact ⟨0, by simp⟩
  | cons n names ih =>
    rcases reachable n (List.mem_cons_self) with ⟨j, near⟩
    rcases ih fun m mem => reachable m (List.mem_cons_of_mem n mem) with ⟨k, others⟩
    refine ⟨max j k, fun m mem => ?_⟩
    rcases List.mem_cons.mp mem with rfl | later
    · exact near.mono (le_max_left j k)
    · exact (others m later).mono (le_max_right j k)

/-! ## Rounds of discovery -/

/-- The names that come up in so many rounds, each round going over the names of the one before. -/
def discovered (imports : Text → List Text) (roots : List Text) : Nat → List Text
  | 0 => roots.eraseDups
  | k + 1 => (roots ++ (discovered imports roots k).flatMap imports).eraseDups

/-- No name is discovered twice. -/
theorem nodup_discovered (k : Nat) : (discovered imports roots k).Nodup := by
  cases k with
  | zero => exact nodup_eraseDups roots
  | succ k => exact nodup_eraseDups _

/-- The rounds discover the names within as many imports. -/
theorem mem_discovered_iff {k : Nat} {n : Text} :
    n ∈ discovered imports roots k ↔ Within imports roots k n := by
  induction k generalizing n with
  | zero =>
    rw [discovered, List.mem_eraseDups]
    constructor
    · exact .root 0
    · rintro ⟨_, mem⟩
      exact mem
  | succ k ih =>
    rw [discovered, List.mem_eraseDups, List.mem_append, List.mem_flatMap]
    constructor
    · rintro (mem | ⟨a, near, mem⟩)
      · exact .root (k + 1) mem
      · exact .imported (ih.mp near) mem
    · intro within
      cases within with
      | root _ mem => exact .inl mem
      | imported near mem => exact .inr ⟨_, ih.mpr near, mem⟩

/-- What names import comes up in the same order when further names follow. -/
theorem isPrefix_discovery {names more : List Text} (h : names <+: more) :
    (roots ++ names.flatMap imports).eraseDups <+: (roots ++ more.flatMap imports).eraseDups :=
  eraseDups_isPrefix ((List.prefix_append_right_inj roots).mpr (h.flatMap imports))

/-- One step more discovers names behind those discovered before. -/
theorem discovered_isPrefix_succ (k : Nat) :
    discovered imports roots k <+: discovered imports roots (k + 1) := by
  induction k with
  | zero => exact eraseDups_isPrefix (List.prefix_append _ _)
  | succ k ih => exact isPrefix_discovery ih

/-- More steps discover names behind those discovered before. -/
theorem discovered_isPrefix {j k : Nat} (le : j ≤ k) :
    discovered imports roots j <+: discovered imports roots k := by
  induction le with
  | refl => exact List.prefix_rfl
  | step le ih => exact ih.trans (discovered_isPrefix_succ _)

/-- A round without new names is the last one with any. -/
theorem discovered_eq_of_stable {k : Nat}
    (stable : discovered imports roots (k + 1) = discovered imports roots k) {j : Nat} (le : k ≤ j) :
    discovered imports roots j = discovered imports roots k := by
  induction le with
  | refl => rfl
  | step le ih =>
    rw [discovered, ih]
    exact stable

/-! ## The order -/

namespace BreadthFirst

variable {order : List Text}

/-- A breadth-first order begins with the names of the first rounds. -/
theorem discovered_isPrefix (h : BreadthFirst imports roots order) (k : Nat) :
    discovered imports roots k <+: order := by
  induction k with
  | zero =>
    rw [h.discovery]
    exact eraseDups_isPrefix (List.prefix_append _ _)
  | succ k ih =>
    rw [h.discovery]
    exact isPrefix_discovery ih

/-- A breadth-first order consists of the names of some number of rounds. -/
theorem exists_eq_discovered (h : BreadthFirst imports roots order) :
    ∃ k, order = discovered imports roots k := by
  rcases exists_within fun n mem => (h.members n).mp mem with ⟨k, within⟩
  have subset : order ⊆ discovered imports roots k := fun n mem => mem_discovered_iff.mpr (within n mem)
  have short := (h.nodup.subperm subset).length_le
  exact ⟨k, ((h.discovered_isPrefix k).eq_of_length_le short).symm⟩

/-- There is no other breadth-first order. -/
theorem unique {other : List Text} (h : BreadthFirst imports roots order)
    (h' : BreadthFirst imports roots other) : order = other := by
  rcases h.exists_eq_discovered with ⟨j, rfl⟩
  rcases h'.exists_eq_discovered with ⟨k, rfl⟩
  have forth := (h'.discovered_isPrefix j).length_le
  exact (h.discovered_isPrefix k).eq_of_length_le forth |>.symm

/-- The names of all rounds are in breadth-first order if the last round adds none. -/
theorem of_stable {k : Nat} (stable : discovered imports roots (k + 1) = discovered imports roots k) :
    BreadthFirst imports roots (discovered imports roots k) where
  nodup := nodup_discovered k
  members n := by
    constructor
    · exact fun mem => ⟨k, mem_discovered_iff.mp mem⟩
    · rintro ⟨j, within⟩
      have mem := mem_discovered_iff.mpr (within.mono (le_max_left j k))
      rwa [discovered_eq_of_stable stable (le_max_right j k)] at mem
  layers j := by
    refine ⟨discovered imports roots j, ?_, fun n => mem_discovered_iff⟩
    rcases le_total j k with before | after
    · exact ThetaSchema.discovered_isPrefix before
    · rw [discovered_eq_of_stable stable after]
  discovery := stable.symm

end BreadthFirst

/-- Rounds that go on finding names find at least one each. -/
theorem le_length_discovered
    (grows : ∀ k, discovered imports roots (k + 1) ≠ discovered imports roots k) (k : Nat) :
    k ≤ (discovered imports roots k).length := by
  induction k with
  | zero => exact Nat.zero_le _
  | succ k ih =>
    have grown : discovered imports roots k <+: discovered imports roots (k + 1) := discovered_isPrefix_succ k
    have longer := grown.length_le
    by_contra short
    exact grows k (grown.eq_of_length (by omega)).symm

/-- If all reachable names are on some list, there is exactly one breadth-first order of them. -/
theorem existsUnique_breadthFirst {names : List Text}
    (finite : ∀ n, Reachable imports roots n → n ∈ names) :
    ∃! order, BreadthFirst imports roots order := by
  have stops : ∃ k, discovered imports roots (k + 1) = discovered imports roots k := by
    by_contra never
    have long := le_length_discovered (not_exists.mp never) (names.length + 1)
    have subset : discovered imports roots (names.length + 1) ⊆ names :=
      fun n mem => finite n ⟨_, mem_discovered_iff.mp mem⟩
    have short := ((nodup_discovered _).subperm subset).length_le
    omega
  rcases stops with ⟨k, stable⟩
  exact ⟨_, .of_stable stable, fun other h => h.unique (.of_stable stable)⟩

end ThetaSchema
