import ThetaSchema.Error
import ThetaSchema.Schema.Basic

/-!
# Module graphs

A module graph is a list of modules; a module is known by its index.  Imports go from a module to every
module with the imported name, of which there may be several or none.

Main definitions:

- `ModuleGraph.named`: the indices of the modules with a name.
- `ModuleGraph.accessible`: the indices that imports lead to from an index.
- `ModuleGraph.lookup`: the definition with a qualified name.
-/

namespace ThetaSchema

/-- Modules in the order in which they were added. -/
structure ModuleGraph where
  modules : List SchemaModule := []
  deriving Repr

namespace ModuleGraph

/-- The number of modules. -/
def size (g : ModuleGraph) : Nat :=
  g.modules.length

/-- A graph with one more module, which gets the next index. -/
def add (g : ModuleGraph) (m : SchemaModule) : ModuleGraph :=
  ⟨g.modules ++ [m]⟩

/-- Whether a module has a name. -/
def contains (g : ModuleGraph) (name : Text) : Bool :=
  g.modules.any (·.name == name)

/-- The indices of the modules with a name, in ascending order. -/
def named (g : ModuleGraph) (name : Text) : List Nat :=
  (List.range g.size).filter fun i => g.modules[i]?.any (·.name == name)

/-! ## Imports -/

/-- Whether a module imports a module by its name. -/
def importsFrom (g : ModuleGraph) (i j : Nat) : Bool :=
  match g.modules[i]?, g.modules[j]? with
  | some a, some b => a.imports.contains b.name
  | _, _ => false

/-- The indices of a list that a module imports. -/
def imported (g : ModuleGraph) (i : Nat) (indices : List Nat) : List Nat :=
  indices.filter (g.importsFrom i)

/-- The indices of a list that a module does not import. -/
def notImported (g : ModuleGraph) (i : Nat) (indices : List Nat) : List Nat :=
  indices.filter fun j => !g.importsFrom i j

/-- Every index of a list is imported or is not. -/
theorem length_imported_add_length_notImported (g : ModuleGraph) (i : Nat) (indices : List Nat) :
    (g.imported i indices).length + (g.notImported i indices).length = indices.length := by
  induction indices with
  | nil => rfl
  | cons j rest ih =>
    unfold imported notImported at ih ⊢
    cases h : g.importsFrom i j <;> simp [h] <;> omega

/-- Follows imports from pending indices, and gives the indices of `unseen` that they never lead to.  Each
step settles one pending index; an index that becomes pending leaves `unseen`. -/
def unreached (g : ModuleGraph) (unseen pending : List Nat) : List Nat :=
  match pending with
  | [] => unseen
  | i :: others => unreached g (g.notImported i unseen) (g.imported i unseen ++ others)
termination_by unseen.length + pending.length
decreasing_by
  have total := g.length_imported_add_length_notImported i unseen
  simp only [List.length_append, List.length_cons]
  omega

/-- The indices that imports lead to from an index, the index itself included, in ascending order. -/
def accessible (g : ModuleGraph) (i : Nat) : List Nat :=
  let others := g.unreached ((List.range g.size).filter (· != i)) [i]
  (List.range g.size).filter fun j => !others.contains j

/-! ## Definitions -/

/-- The definitions of the module at an index. -/
def definitionsAt (g : ModuleGraph) (i : Nat) : List Definition :=
  g.modules[i]?.elim [] SchemaModule.definitions

/-- Finds the definition with a qualified name: the first one in the modules that the name points to. -/
def lookup (g : ModuleGraph) (text : Text) : Except SchemaError Definition :=
  match QualifiedName.parse text with
  | .error e => .error e
  | .ok name =>
    match ((g.named name.moduleName).flatMap g.definitionsAt).find? (·.name = name) with
    | some d => .ok d
    | none => .error (.missingName name)

end ModuleGraph

end ThetaSchema
