import ThetaSchema.Text.Basic

/-!
# File trees

A file tree is a finite set of files and directories below a root, one of which is the working directory.
A path that starts with a slash leads on from the root, any other one from the working directory.  It leads
through directories only; empty components and single dots stay where they are, and two dots go to the
enclosing directory, which for the root is the root itself.

Main definitions:

- `Path.append`: a path put behind a directory.
- `FileTree.lookup`: the file or directory that a path leads to.
-/

namespace ThetaSchema

/-- What a path leads to: a directory, a file with what it holds, or a file that cannot be read, with the
system's reason. -/
inductive Entry where
  | directory
  | file (content : Text)
  | unreadable (reason : Text)
  deriving DecidableEq, Repr

/-- The components of a path. -/
def Path.components (path : Text) : List Text :=
  path.splitOn Byte.slash

/-- A relative path put behind a directory: a slash goes between them, unless the directory is the empty
text or already ends with one. -/
def Path.append (directory path : Text) : Text :=
  if directory = [] then path
  else if directory.getLast? = some Byte.slash then directory ++ path
  else directory ++ Byte.slash :: path

/-- Files and explicit directories by their places, which are lists of proper components from the root, and
the place of the working directory.  Of two entries for one place the earlier one counts. -/
structure FileTree where
  entries : List (List Text × Entry) := []
  current : List Text := []
  deriving Repr

namespace FileTree

/-- Whether a component stays in its directory. -/
def isStationary (component : Text) : Bool :=
  component.isEmpty || component == [Byte.dot]

/-- The place from which a path leads on. -/
def startOf (t : FileTree) (path : Text) : List Text :=
  if path.head? = some Byte.slash then [] else t.current

/-- The place that a path of proper components names. -/
def placeOf (t : FileTree) (path : Text) : List Text :=
  t.startOf path ++ (Path.components path).filter fun c => !isStationary c

/-- A tree with one more entry, which hides an older one at its place. -/
def insert (t : FileTree) (path : Text) (e : Entry) : FileTree :=
  { t with entries := (t.placeOf path, e) :: t.entries }

/-- Whether something in the tree lies at or below a place; the root and the working directory are always
there. -/
def hasBelow (t : FileTree) (place : List Text) : Bool :=
  place.isPrefixOf t.current || t.entries.any fun e => place.isPrefixOf e.1

/-- What is at a place: the entry there, or a directory if something lies below. -/
def entryAt (t : FileTree) (place : List Text) : Option Entry :=
  match t.entries.find? fun e => e.1 == place with
  | some (_, e) => some e
  | none => if t.hasBelow place then some .directory else none

/-- Follows components from a place.  Every place on the way has to be a directory. -/
def walk (t : FileTree) (place : List Text) : List Text → Option Entry
  | [] => t.entryAt place
  | c :: others =>
    if t.entryAt place = some .directory then
      if isStationary c then t.walk place others
      else if c = [Byte.dot, Byte.dot] then t.walk place.dropLast others
      else t.walk (place ++ [c]) others
    else none

/-- What a path leads to.  The empty path leads nowhere. -/
def lookup (t : FileTree) (path : Text) : Option Entry :=
  if path = [] then none else t.walk (t.startOf path) (Path.components path)

/-- Whether an entry is a file that can be read. -/
def isFile : Entry → Bool
  | .file _ => true
  | .directory | .unreadable _ => false

/-- The places of the files in a tree, each once. -/
def files (t : FileTree) : List (List Text) :=
  (t.entries.map Prod.fst).eraseDups.filter fun place => (t.entryAt place).any isFile

end FileTree

end ThetaSchema
