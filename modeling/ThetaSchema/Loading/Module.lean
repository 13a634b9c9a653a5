import ThetaSchema.Grammar.Module
import ThetaSchema.Loading.FileTree

/-!
# Loading a module

The module `a.b.c` is kept in the file `a/b/c.theta` below a directory of the load path.  The first
directory that has the file counts, also when the file cannot be read there.

Main definitions:

- `modulePath`: the file of a module, relative to a directory of the load path.
- `loadModule`: the module itself, found through whatever tells where paths lead.
-/

namespace ThetaSchema

/-- The end of the name of every schema file. -/
def moduleExtension : Text :=
  ".theta"

/-- The file of a module below a directory of the load path. -/
def modulePath (name : Text) : Except SchemaError Text :=
  if isModuleName name then
    .ok (Text.join [Byte.slash] (nameComponents name) ++ moduleExtension)
  else .error (.invalidName name)

/-- The paths at which a module may be, in the order in which they are tried. -/
def candidatePaths (loadPath : List Text) (relative : Text) : List Text :=
  loadPath.map (Path.append · relative)

/-- The first path that leads somewhere, and where it leads. -/
def firstEntry? (look : Text → Option Entry) (paths : List Text) : Option (Text × Entry) :=
  paths.findSome? fun path => (look path).map (path, ·)

/-- The note on a module that is about to be read. -/
def loadingNote (name path : Text) : Diagnostic :=
  ⟨.note, ⟨path, 1, 1⟩, "loading module " ++ Text.quoted name, 1⟩

/-- Reads a module from what its path leads to. -/
def readEntryOf (name path : Text) : Entry → Logged SchemaModule
  | .directory => .fail (.unreadable path "Is a directory")
  | .unreadable reason => .fail (.unreadable path reason)
  | .file content => (SchemaModule.parse name path content).after [(loadingNote name path).recorded]

/-- Finds a module on the load path and reads it. -/
def loadModule (look : Text → Option Entry) (loadPath : List Text) (name : Text) : Logged SchemaModule :=
  match modulePath name with
  | .error e => .fail e
  | .ok relative =>
    match firstEntry? look (candidatePaths loadPath relative) with
    | none => .fail (.missingModule (Text.join ":" loadPath) name)
    | some (path, entry) => readEntryOf name path entry

end ThetaSchema
