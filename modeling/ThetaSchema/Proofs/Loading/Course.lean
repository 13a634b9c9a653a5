import ThetaSchema.Proofs.Loading.Closure

/-!
# The course of a loading

A loading ends when nothing is pending or when the first pending name fails, and nothing else decides how it
goes on.  Said without a number of steps, its course is determined by what loading a name gives, and two ways
of loading names that agree wherever it matters take the same course.

Main definitions:

- `Loading.Ends`: the result with which a loading ends.

Main results:

- `Loading.Ends.unique`: there is one such result.
- `Loading.Ends.of_agree`: it is the same where names are loaded alike.
- `loadGraph_ends`: loading a graph gives the result with which the loading of its roots ends.
-/

namespace ThetaSchema
namespace Loading

/-- The result with which a loading ends: the modules loaded so far if nothing is pending, the error of the
first pending name if that fails, and otherwise what the loading ends with once that name is loaded. -/
inductive Ends (load : Text → Logged SchemaModule) : Loading → Logged ModuleGraph → Prop
  | done {l : Loading} (next : l.pending = []) : Ends load l (.succeed ⟨l.loaded⟩)
  | failed {l : Loading} {n : Text} {others : List Text} {e : SchemaError} (next : l.pending = n :: others)
      (outcome : (load n).outcome = .error e) : Ends load l ⟨(load n).log, .error e⟩
  | loaded {l : Loading} {n : Text} {others : List Text} {x : SchemaModule} {r : Logged ModuleGraph}
      (next : l.pending = n :: others) (outcome : (load n).outcome = .ok x)
      (rest : Ends load (l.absorb others x) r) : Ends load l (r.after (load n).log)

variable {load load' : Text → Logged SchemaModule} {l : Loading} {r r' : Logged ModuleGraph}

/-- A loading ends with one result. -/
theorem Ends.unique (h : Ends load l r) (h' : Ends load l r') : r = r' := by
  induction h generalizing r' with
  | done next =>
    cases h' with
    | done => rfl
    | failed next' | loaded next' =>
      rw [next] at next'
      cases next'
  | failed next outcome =>
    cases h' with
    | done next' =>
      rw [next] at next'
      cases next'
    | failed next' outcome' =>
      cases next.symm.trans next'
      rw [outcome] at outcome'
      cases outcome'
      rfl
    | loaded next' outcome' =>
      cases next.symm.trans next'
      rw [outcome] at outcome'
      cases outcome'
  | loaded next outcome rest ih =>
    cases h' with
    | done next' =>
      rw [next] at next'
      cases next'
    | failed next' outcome' =>
      cases next.symm.trans next'
      rw [outcome] at outcome'
      cases outcome'
    | loaded next' outcome' rest' =>
      cases next.symm.trans next'
      rw [outcome] at outcome'
      cases outcome'
      rw [ih rest']

/-- Names may be loaded in another way if that makes no difference except where there are certain errors, and
the loading does not end with one of these. -/
theorem Ends.of_agree {lost : SchemaError → Prop}
    (agree : ∀ n, (∀ e, lost e → (load n).outcome ≠ .error e) → load' n = load n) (h : Ends load l r)
    (kept : ∀ e, lost e → r.outcome ≠ .error e) : Ends load' l r := by
  induction h with
  | done next => exact .done next
  | @failed l n others e next outcome =>
    have other : ∀ e', lost e' → (load n).outcome ≠ .error e' := by
      intro e' isLost failed
      rw [outcome] at failed
      cases failed
      exact kept e isLost rfl
    have same := agree n other
    rw [← same] at outcome ⊢
    exact .failed next outcome
  | @loaded l n others x r next outcome rest ih =>
    have loads : ∀ e, lost e → (load n).outcome ≠ .error e := by
      intro e _ failed
      rw [outcome] at failed
      cases failed
    have same := agree n loads
    rw [← same] at outcome ⊢
    exact .loaded next outcome (ih kept)

/-- A loading with enough steps gives the result with which it ends: the loaded modules have different names,
so with one step more than there are names to be loaded it does not run out of steps. -/
theorem Follows.ends_run {roots : List Text} {bound : Nat}
    (named : ∀ {n x}, (load n).outcome = .ok x → x.name = n)
    (bounded : ∀ names : List Text, names.Nodup → (∀ n ∈ names, ∃ x, (load n).outcome = .ok x) →
      names.length ≤ bound)
    {steps : Nat} (h : l.Follows load roots) (enough : steps + l.loaded.length = bound + 1) :
    Ends load l (run load steps l) := by
  induction steps generalizing l with
  | zero =>
    have few := h.length_loaded_le bounded
    omega
  | succ steps ih =>
    rw [run]
    cases next : l.pending with
    | nil => exact .done next
    | cons n others =>
      dsimp only
      cases outcome : (load n).outcome with
      | error e =>
        rw [Logged.andThen_error outcome]
        exact .failed next outcome
      | ok x =>
        rw [Logged.andThen_ok outcome]
        have count : steps + (l.absorb others x).loaded.length = bound + 1 := by
          rw [length_loaded_absorb]
          omega
        exact .loaded next outcome (ih (h.absorb next outcome (named outcome)) count)

end Loading

/-- Loading a graph gives the result with which the loading of its roots ends. -/
theorem loadGraph_ends (tree : FileTree) (loadPath roots : List Text) :
    Loading.Ends (loadModule tree.lookup loadPath) (Loading.start roots) (loadGraph tree loadPath roots) := by
  have enough : loadPath.length * tree.files.length + 1 + (Loading.start roots).loaded.length =
      loadPath.length * tree.files.length + 1 := by
    rw [Loading.loaded_start, List.length_nil, Nat.add_zero]
  exact (Loading.Follows.start _ roots).ends_run (fun loaded => (loadModule_ok loaded).1)
    (fun _ => length_le_of_found) enough

end ThetaSchema
