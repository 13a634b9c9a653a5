import ThetaSchema.Graph.Basic
import ThetaSchema.Loading.Module

/-!
# Loading with imports

Root modules are loaded together with everything they import.  Names are scheduled when they are first
seen, roots before imports, and loaded in that order; the first failure ends the loading.

Main definitions:

- `Loading`: the names still to load, all names ever scheduled, and the modules loaded so far.
- `loadGraph`: the graph of everything that roots lead to in a file tree.
-/

namespace ThetaSchema

/-- The state of a loading: a name is pending from the time it is scheduled until its module is loaded. -/
structure Loading where
  pending : List Text
  scheduled : List Text
  loaded : List SchemaModule
  deriving Repr

namespace Loading

/-- Schedules the names of a list that were not scheduled before. -/
def schedule (l : Loading) : List Text → Loading
  | [] => l
  | name :: others =>
    if l.scheduled.contains name then l.schedule others
    else schedule { l with pending := l.pending ++ [name], scheduled := l.scheduled ++ [name] } others

/-- A loading in which only the roots are scheduled. -/
def start (roots : List Text) : Loading :=
  schedule ⟨[], [], []⟩ roots

/-- The state after a pending module is loaded, where `others` are still pending: its imports are
scheduled. -/
def absorb (l : Loading) (others : List Text) (m : SchemaModule) : Loading :=
  schedule { l with pending := others, loaded := l.loaded ++ [m] } m.imports

/-- Loads pending modules until none is left or one fails, `steps` of them at most. -/
def run (load : Text → Logged SchemaModule) : Nat → Loading → Logged ModuleGraph
  | 0, l => .succeed ⟨l.loaded⟩
  | steps + 1, l =>
    match l.pending with
    | [] => .succeed ⟨l.loaded⟩
    | name :: others => (load name).andThen fun m => run load steps (l.absorb others m)

end Loading

/-- Loads root modules and everything they import from a file tree.  Under each directory of the load path
different names have different files, so no more modules can be loaded than there are pairs of a
directory and a file; one more step meets the failure of the next one. -/
def loadGraph (tree : FileTree) (loadPath roots : List Text) : Logged ModuleGraph :=
  Loading.run (loadModule tree.lookup loadPath) (loadPath.length * tree.files.length + 1) (Loading.start roots)

end ThetaSchema
