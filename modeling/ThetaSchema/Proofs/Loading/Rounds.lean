import ThetaSchema.Proofs.Loading.Course

/-!
# The rounds of a loading

A loading goes round by round: it loads its first pending name, and schedules what the module imports.  Nothing
bounds the number of pending names, since every round may schedule further ones.  But each round loads another
name, and the modules of a tree are finitely many; so a loading is over after as many rounds at most, also where
modules import each other or themselves.

Main definitions:

- `Loading.Round`, `Loading.Rounds`: one round, and any number of them with the names that they load.
- `Loading.Over`: a loading that cannot go on, and its result.

Main results:

- `Loading.Rounds.follows`: what holds at every time of a loading holds after any number of rounds.
- `Loading.Rounds.isPrefix`: a loading takes the same rounds until it is over.
- `Loading.Ends.exists_rounds`: a loading that ends is over after a number of rounds.
- `loadGraph_terminates`: every loading of a file tree is over after a bounded number of rounds.
-/

namespace ThetaSchema
namespace Loading

/-- A round of a loading, in which the first pending name is loaded. -/
inductive Round (load : Text → Logged SchemaModule) : Loading → Text → Loading → Prop
  | loads {l : Loading} {n : Text} {others : List Text} {x : SchemaModule} (next : l.pending = n :: others)
      (outcome : (load n).outcome = .ok x) : Round load l n (l.absorb others x)

/-- Rounds one after the other, with the names that are loaded in them. -/
inductive Rounds (load : Text → Logged SchemaModule) : Loading → List Text → Loading → Prop
  | none {l : Loading} : Rounds load l [] l
  | more {l next last : Loading} {n : Text} {names : List Text} (first : Round load l n next)
      (rest : Rounds load next names last) : Rounds load l (n :: names) last

/-- A loading is over when nothing is pending or the first pending name cannot be loaded. -/
inductive Over (load : Text → Logged SchemaModule) : Loading → Logged ModuleGraph → Prop
  | done {l : Loading} (next : l.pending = []) : Over load l (.succeed ⟨l.loaded⟩)
  | failed {l : Loading} {n : Text} {others : List Text} {e : SchemaError} (next : l.pending = n :: others)
      (outcome : (load n).outcome = .error e) : Over load l ⟨(load n).log, .error e⟩

variable {load : Text → Logged SchemaModule} {l l' : Loading} {n : Text} {names : List Text}
  {r : Logged ModuleGraph}

/-! ## One round -/

/-- A loading takes one round and no other. -/
theorem Round.unique {n' : Text} {k k' : Loading} (h : Round load l n k) (h' : Round load l n' k') :
    n = n' ∧ k = k' := by
  cases h with
  | loads next outcome =>
    cases h' with
    | loads next' outcome' =>
      cases next.symm.trans next'
      cases outcome.symm.trans outcome'
      exact ⟨rfl, rfl⟩

/-- There are no rounds once a loading is over. -/
theorem Over.not_round (h : Over load l r) : ¬ Round load l n l' := by
  intro round
  cases round with
  | loads next outcome =>
    cases h with
    | done none => cases none.symm.trans next
    | failed next' failure =>
      cases next'.symm.trans next
      cases failure.symm.trans outcome

/-- A round adds the module with the name that it loads. -/
theorem Round.map_name_loaded (named : ∀ {n x}, (load n).outcome = .ok x → x.name = n)
    (h : Round load l n l') : l'.loaded.map SchemaModule.name = l.loaded.map SchemaModule.name ++ [n] := by
  cases h with
  | loads next outcome => simp [absorb, named outcome]

theorem Round.follows {roots : List Text} (named : ∀ {n x}, (load n).outcome = .ok x → x.name = n)
    (h : Round load l n l') (follows : l.Follows load roots) : l'.Follows load roots := by
  cases h with
  | loads next outcome => exact follows.absorb next outcome (named outcome)

/-! ## Any number of rounds -/

/-- What holds at every time of a loading holds after any number of rounds. -/
theorem Rounds.follows {roots : List Text} (named : ∀ {n x}, (load n).outcome = .ok x → x.name = n)
    (h : Rounds load l names l') (follows : l.Follows load roots) : l'.Follows load roots := by
  induction h with
  | none => exact follows
  | more first rest ih => exact ih (first.follows named follows)

/-- Rounds add the modules with the names that they load, in the same order. -/
theorem Rounds.map_name_loaded (named : ∀ {n x}, (load n).outcome = .ok x → x.name = n)
    (h : Rounds load l names l') :
    l'.loaded.map SchemaModule.name = l.loaded.map SchemaModule.name ++ names := by
  induction h with
  | none => simp
  | more first rest ih => rw [ih, first.map_name_loaded named, List.append_assoc, List.singleton_append]

/-- Until a loading is over it takes the same rounds. -/
theorem Rounds.isPrefix {k : Loading} {names' : List Text} (h : Rounds load l names l') (stopped : Over load l' r)
    (h' : Rounds load l names' k) : names' <+: names := by
  induction h' generalizing names with
  | none => exact List.nil_prefix
  | more first' rest' ih =>
    cases h with
    | none => exact absurd first' stopped.not_round
    | more first rest =>
      obtain ⟨rfl, rfl⟩ := first.unique first'
      exact (List.prefix_cons_inj _).mpr (ih rest)

/-- A loading that ends is over after a number of rounds, and its diagnostics are those of the rounds and then
those of the name with which it fails. -/
theorem Ends.exists_rounds (h : Ends load l r) :
    ∃ names last result, Rounds load l names last ∧ Over load last result ∧
      r = result.after (names.flatMap fun n => (load n).log) := by
  induction h with
  | done next => exact ⟨[], _, _, .none, .done next, rfl⟩
  | failed next outcome => exact ⟨[], _, _, .none, .failed next outcome, rfl⟩
  | @loaded l n others x r next outcome rest ih =>
    obtain ⟨names, last, result, rounds, stopped, rfl⟩ := ih
    refine ⟨n :: names, last, result, .more (.loads next outcome) rounds, stopped, ?_⟩
    simp [Logged.after]

end Loading

/-! ## File trees -/

variable (tree : FileTree) (loadPath roots : List Text)

/-- Every loading of a file tree is over after some rounds, which are the only ones it can take.  The names that
are loaded in them, and the one that then cannot be loaded if there is one, are all different; and there are at
most as many rounds as pairs of a directory of the load path and a file.  The graph is the one that the loading
has when it is over. -/
theorem loadGraph_terminates :
    ∃ names last result,
      Loading.Rounds (loadModule tree.lookup loadPath) (Loading.start roots) names last ∧
      Loading.Over (loadModule tree.lookup loadPath) last result ∧
      (∀ names' l, Loading.Rounds (loadModule tree.lookup loadPath) (Loading.start roots) names' l →
        names' <+: names) ∧
      (names ++ last.pending.take 1).Nodup ∧
      names.length ≤ loadPath.length * tree.files.length ∧
      loadGraph tree loadPath roots =
        result.after (names.flatMap fun n => (loadModule tree.lookup loadPath n).log) := by
  have named : ∀ {n x}, (loadModule tree.lookup loadPath n).outcome = .ok x → x.name = n :=
    fun loaded => (loadModule_ok loaded).1
  obtain ⟨names, last, result, rounds, stopped, same⟩ := (loadGraph_ends tree loadPath roots).exists_rounds
  have follows := rounds.follows named (.start _ roots)
  have loaded : last.loaded.map SchemaModule.name = names := by simpa using rounds.map_name_loaded named
  have different := follows.nodup
  rw [loaded] at different
  have few := follows.length_loaded_le fun _ => length_le_of_found
  rw [← List.length_map (f := SchemaModule.name), loaded] at few
  refine ⟨names, last, result, rounds, stopped, fun _ _ => rounds.isPrefix stopped, ?_, few, same⟩
  exact different.sublist ((List.take_sublist 1 last.pending).append_left names)

/-- Two schemas that import each other and themselves. -/
def circularTree : FileTree :=
  (({} : FileTree).insert "lib/a.theta" (.file (importingSource "import a\nimport b"))).insert
    "lib/b.theta" (.file (importingSource "import b\nimport a"))

/-- Two rounds load the two schemas, and nothing is left to be loaded then. -/
theorem loadGraph_terminates_circular :
    ∃ (first last : Loading) (result : Logged ModuleGraph),
      Loading.Rounds (loadModule circularTree.lookup ["lib"]) (Loading.start ["a"]) ["a"] first ∧
      Loading.Rounds (loadModule circularTree.lookup ["lib"]) (Loading.start ["a"]) ["a", "b"] last ∧
      (["a"] : List Text) <+: ["a", "b"] ∧
      Loading.Over (loadModule circularTree.lookup ["lib"]) last result ∧ last.pending = [] ∧
      (loadGraph circularTree ["lib"] ["a"]).outcome = result.outcome := by
  obtain ⟨names, last, result, rounds, stopped, only, -, -, same⟩ :=
    loadGraph_terminates circularTree ["lib"] ["a"]
  have loads : (loadGraph circularTree ["lib"] ["a"]).outcome.toOption.any
      (fun g => g.modules.map SchemaModule.name = (["a", "b"] : List Text)) = true := by
    decide +kernel
  obtain ⟨g, loaded, named⟩ := exists_ok_of_any loads
  have outcome : (loadGraph circularTree ["lib"] ["a"]).outcome = result.outcome := by
    rw [same]
    rfl
  have final := rounds.map_name_loaded fun loaded => (loadModule_ok loaded).1
  cases stopped with
  | failed next failure =>
    rw [loaded] at outcome
    cases outcome
  | done next =>
    have graph : g = ⟨last.loaded⟩ := by
      rw [loaded] at outcome
      exact Except.ok.inj outcome
    rw [graph] at named
    have names' : names = ["a", "b"] := by
      rw [of_decide_eq_true named, Loading.loaded_start] at final
      exact final.symm
    subst names'
    cases rounds with
    | more first rest =>
      have alone := Loading.Rounds.more first .none
      exact ⟨_, last, _, alone, .more first rest, only _ _ alone, .done next, next, outcome⟩

end ThetaSchema
