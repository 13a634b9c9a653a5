import Mathlib.Data.List.Perm.Subperm
import ThetaSchema.Loading.Module
import ThetaSchema.Proofs.Grammar.Parsed
import ThetaSchema.Proofs.Schema.Names
import ThetaSchema.Proofs.Text.Parts

/-!
# Where modules are kept

The components of a path lead to a place, and below a directory the place of a module's file determines
the name of the module.  So a tree holds no more modules than there are pairs of a directory of the load
path and a file, however paths go through it.

Main definitions:

- `FileTree.resolve`: the place to which components lead.
- `keptModules`: the names under which modules can be found.

Main results:

- `loadModule_ok`: a module that is found has the name asked for, and one note is reported.
- `mem_keptModules`, `length_le_of_found`: the names under which modules are found are few.
-/

namespace ThetaSchema

/-! ## Places -/

namespace FileTree

variable {t : FileTree} {place : List Text} {e : Entry}

/-- The place to which one component leads. -/
def enter (place : List Text) (c : Text) : List Text :=
  if isStationary c then place
  else if c = [Byte.dot, Byte.dot] then place.dropLast
  else place ++ [c]

/-- The place to which components lead one after the other. -/
def resolve (place : List Text) (components : List Text) : List Text :=
  components.foldl enter place

/-- From a directory one goes on where a component leads. -/
theorem walk_cons (t : FileTree) (place : List Text) (c : Text) (others : List Text) :
    t.walk place (c :: others) =
      if t.entryAt place = some .directory then t.walk (enter place c) others else none := by
  rw [walk, enter]
  split
  · split
    · rfl
    · split <;> rfl
  · rfl

/-- What is found along components is at the place to which they lead. -/
theorem entryAt_resolve {components : List Text} (h : t.walk place components = some e) :
    t.entryAt (resolve place components) = some e := by
  induction components generalizing place with
  | nil => exact h
  | cons c others ih =>
    rw [walk_cons] at h
    split at h
    · exact ih h
    · cases h

/-- A path from the root does not depend on the working directory, and two dots stay at the root. -/
example : (⟨[(["work", "a"], .file "x")], ["work"]⟩ : FileTree).lookup "/../work/./a" = some (.file "x") := by
  decide +kernel

/-- Components that are names of entries lead below a place. -/
theorem resolve_of_proper {components : List Text}
    (proper : ∀ c ∈ components, isStationary c = false ∧ c ≠ [Byte.dot, Byte.dot]) :
    resolve place components = place ++ components := by
  induction components generalizing place with
  | nil => exact (List.append_nil place).symm
  | cons c others ih =>
    have named := proper c List.mem_cons_self
    rw [resolve, List.foldl_cons, enter, named.1, if_neg Bool.false_ne_true, if_neg named.2]
    have rest : resolve (place ++ [c]) others = place ++ [c] ++ others :=
      ih fun d mem => proper d (List.mem_cons_of_mem c mem)
    rw [resolve] at rest
    rw [rest, List.append_assoc, List.singleton_append]

/-- A file that can be read is counted among the files. -/
theorem mem_files {content : Text} (h : t.entryAt place = some (.file content)) : place ∈ t.files := by
  have isFileHere : (t.entryAt place).any isFile = true := by
    rw [h]
    rfl
  rw [files, List.mem_filter, List.mem_eraseDups]
  refine ⟨?_, isFileHere⟩
  unfold entryAt at h
  split at h
  · rename_i p found found?
    have here : p = place := by simpa using List.find?_some found?
    exact List.mem_map.mpr ⟨_, List.mem_of_find?_eq_some found?, here⟩
  · split at h <;> cases h

end FileTree

/-! ## Paths -/

/-- The components of a path behind a directory that belong to the directory. -/
def Path.base (directory : Text) : List Text :=
  if directory = [] then []
  else if directory.getLast? = some Byte.slash then components directory.dropLast
  else components directory

/-- A path behind a directory has the components of the directory and then its own. -/
theorem Path.components_append (directory path : Text) :
    components (Path.append directory path) = base directory ++ components path := by
  unfold Path.append base
  by_cases empty : directory = []
  · rw [if_pos empty, if_pos empty, List.nil_append]
  · rw [if_neg empty, if_neg empty]
    by_cases ended : directory.getLast? = some Byte.slash
    · rw [if_pos ended, if_pos ended]
      have split : directory = directory.dropLast ++ [Byte.slash] :=
        (List.dropLast_append_getLast? _ ended).symm
      conv => lhs; rw [split]
      rw [List.append_assoc, List.singleton_append]
      exact List.splitOn_append_cons_self _ _
    · rw [if_neg ended, if_neg ended]
      exact List.splitOn_append_cons_self _ _

/-- Identifiers have no slash. -/
theorem slash_not_mem_identifier {w : Text} (h : isIdentifier w = true) : Byte.slash ∉ w := by
  intro mem
  have inClass := all_isIdentifierByte h _ mem
  exact absurd inClass (by decide)

/-- An identifier, also with more behind it, names an entry of a directory. -/
theorem proper_of_identifier {w : Text} (h : isIdentifier w = true) (ending : Text) :
    FileTree.isStationary (w ++ ending) = false ∧ w ++ ending ≠ [Byte.dot, Byte.dot] := by
  cases w with
  | nil => cases h
  | cons b w =>
    have start : Byte.isIdentifierStart b = true := (Bool.and_eq_true _ _ ▸ h).1
    have noDot : b ≠ Byte.dot := (Byte.isIdentifierStart_only start).2.2.2.1
    simp [FileTree.isStationary, noDot]

/-! ## Files of modules -/

/-- A name of a module has a path: its components with slashes between them, and the extension behind. -/
theorem modulePath_eq_ok_iff {name path : Text} :
    modulePath name = .ok path ↔
      isModuleName name = true ∧ path = Text.join [Byte.slash] (nameComponents name) ++ moduleExtension := by
  unfold modulePath
  by_cases named : isModuleName name = true
  · simp [named, eq_comm]
  · simp [named]

/-- A text that is no name of a module is refused. -/
theorem modulePath_eq_error_iff {name : Text} {e : SchemaError} :
    modulePath name = .error e ↔ isModuleName name = false ∧ e = .invalidName name := by
  unfold modulePath
  by_cases named : isModuleName name = true
  · simp [named]
  · simp [named, eq_comm]

/-- The file of a module has the components of the module's name, the last one with the extension. -/
theorem components_modulePath {name relative : Text} (h : modulePath name = .ok relative) :
    ∃ inner last, nameComponents name = inner ++ [last] ∧ (∀ w ∈ inner ++ [last], isIdentifier w = true) ∧
      Path.components relative = inner ++ [last ++ moduleExtension] := by
  obtain ⟨named, rfl⟩ := modulePath_eq_ok_iff.mp h
  have nonempty : nameComponents name ≠ [] := List.splitOn_ne_nil _ _
  have split := List.dropLast_append_getLast nonempty
  have identifiers : ∀ w ∈ nameComponents name, isIdentifier w = true := List.all_eq_true.mp named
  rw [← split] at identifiers
  refine ⟨_, _, split.symm, identifiers, ?_⟩
  conv => lhs; rw [← split]
  rw [Text.join_append]
  refine List.splitOn_intercalate _ ?_ (by simp)
  intro c mem
  rcases List.mem_append.mp mem with early | late
  · exact slash_not_mem_identifier (identifiers c (List.mem_append_left _ early))
  · rw [List.mem_singleton.mp late, List.mem_append, not_or]
    exact ⟨slash_not_mem_identifier (identifiers _ (by simp)), by decide⟩

/-- The components of a module's file are names of entries. -/
theorem proper_components_modulePath {name relative : Text} (h : modulePath name = .ok relative) :
    ∀ c ∈ Path.components relative, FileTree.isStationary c = false ∧ c ≠ [Byte.dot, Byte.dot] := by
  rcases components_modulePath h with ⟨inner, last, -, identifiers, components⟩
  rw [components]
  intro c mem
  rcases List.mem_append.mp mem with early | late
  · simpa using proper_of_identifier (identifiers c (List.mem_append_left _ early)) []
  · rw [List.mem_singleton.mp late]
    exact proper_of_identifier (identifiers last (by simp)) moduleExtension

/-- The path of a module does not start from the root. -/
theorem head?_modulePath {name relative : Text} (h : modulePath name = .ok relative) :
    relative.head? ≠ some Byte.slash := by
  -- A slash in front would leave the first component empty.
  intro slash
  obtain ⟨rest, rfl⟩ := List.head?_eq_some_iff.mp slash
  have first : [] ∈ Path.components (Byte.slash :: rest) := by
    simp [Path.components, List.splitOn_cons_eq_if_modifyHead]
  exact absurd (proper_components_modulePath h [] first).1 (by decide)

/-- The file of a module is looked for from where its directory is. -/
theorem startOf_append_modulePath {name relative : Text} (h : modulePath name = .ok relative) (tree : FileTree)
    (directory : Text) : tree.startOf (Path.append directory relative) = tree.startOf directory := by
  cases directory with
  | nil =>
    rw [show Path.append [] relative = relative from rfl, FileTree.startOf, if_neg (head?_modulePath h)]
    rfl
  | cons b others =>
    have first : (Path.append (b :: others) relative).head? = some b := by
      unfold Path.append
      rw [if_neg (List.cons_ne_nil b others)]
      split <;> rfl
    rw [FileTree.startOf, first]
    rfl

/-- The name of the module whose file is at a place, when it is looked for below a directory. -/
def keptModule (tree : FileTree) (directory : Text) (place : List Text) : Text :=
  let file := dotted (place.drop (FileTree.resolve (tree.startOf directory) (Path.base directory)).length)
  file.take (file.length - moduleExtension.length)

/-- The place of a module's file below a directory tells the name of the module. -/
theorem keptModule_resolve {name relative : Text} (h : modulePath name = .ok relative) (tree : FileTree)
    (directory : Text) :
    keptModule tree directory (FileTree.resolve (tree.startOf (Path.append directory relative))
      (Path.components (Path.append directory relative))) = name := by
  rcases components_modulePath h with ⟨inner, last, split, -, components⟩
  have place : FileTree.resolve (tree.startOf (Path.append directory relative))
        (Path.components (Path.append directory relative)) =
      FileTree.resolve (tree.startOf directory) (Path.base directory) ++ (inner ++ [last ++ moduleExtension]) := by
    rw [startOf_append_modulePath h, Path.components_append, FileTree.resolve, List.foldl_append, ← components]
    exact FileTree.resolve_of_proper (proper_components_modulePath h)
  have file : dotted (inner ++ [last ++ moduleExtension]) = name ++ moduleExtension := by
    rw [dotted, ← Text.join_append, ← split]
    exact congrArg (· ++ moduleExtension) (dotted_nameComponents name)
  rw [place, keptModule, List.drop_left, file]
  simp

/-! ## Modules that are found -/

/-- The names under which modules can be found: one for every directory of the load path and every file. -/
def keptModules (tree : FileTree) (loadPath : List Text) : List Text :=
  loadPath.flatMap fun directory => tree.files.map (keptModule tree directory)

theorem length_keptModules (tree : FileTree) (loadPath : List Text) :
    (keptModules tree loadPath).length = loadPath.length * tree.files.length := by
  simp [keptModules, List.length_flatMap]

/-- A module that is found is read from a file behind a directory of the load path. -/
theorem loadModule_ok_iff {look : Text → Option Entry} {loadPath : List Text} {name : Text}
    {x : SchemaModule} :
    (loadModule look loadPath name).outcome = .ok x ↔
      ∃ relative path content, modulePath name = .ok relative ∧
        firstEntry? look (candidatePaths loadPath relative) = some (path, .file content) ∧
          (SchemaModule.parse name path content).outcome = .ok x := by
  unfold loadModule
  cases modulePath name with
  | error e => simp [Logged.fail]
  | ok relative =>
    cases found : firstEntry? look (candidatePaths loadPath relative) with
    | none => simp [Logged.fail, found]
    | some entry =>
      rcases entry with ⟨path, _ | content | reason⟩
      · simp [readEntryOf, Logged.fail, found]
      · simp [readEntryOf, Logged.after, found]
      · simp [readEntryOf, Logged.fail, found]

/-- A module that is found has the name asked for, and loading it reports one note. -/
theorem loadModule_ok {look : Text → Option Entry} {loadPath : List Text} {name : Text} {x : SchemaModule}
    (h : (loadModule look loadPath name).outcome = .ok x) :
    x.name = name ∧ loadModule look loadPath name = ⟨[loadingNote x.name x.file], .ok x⟩ := by
  rcases loadModule_ok_iff.mp h with ⟨relative, path, content, file, found, read⟩
  rcases SchemaModule.parse_ok_iff.mp read with ⟨metadata, tokens, statements, header, supported, body, rfl⟩
  have named : metadata.moduleName = name := SchemaModule.moduleName_of_readHeader header
  refine ⟨named, ?_⟩
  unfold loadModule
  rw [file]
  dsimp only
  rw [found]
  dsimp only
  rw [readEntryOf, SchemaModule.parse_eq_of_accepted header supported body, SchemaModule.name, named]
  rfl

variable {tree : FileTree} {loadPath : List Text}

/-- The names under which modules are found are among those that the files of the tree allow. -/
theorem mem_keptModules {name : Text} {x : SchemaModule}
    (h : (loadModule tree.lookup loadPath name).outcome = .ok x) : name ∈ keptModules tree loadPath := by
  rcases loadModule_ok_iff.mp h with ⟨relative, path, content, file, found, -⟩
  rcases List.exists_of_findSome?_eq_some found with ⟨candidate, mem, here⟩
  rcases List.mem_map.mp mem with ⟨directory, onPath, rfl⟩
  have there : tree.lookup (Path.append directory relative) = some (.file content) := by
    cases entry : tree.lookup (Path.append directory relative) with
    | none => simp [entry] at here
    | some e =>
      rw [entry] at here
      cases here
      rfl
  unfold FileTree.lookup at there
  split at there
  · cases there
  · have place := FileTree.mem_files (FileTree.entryAt_resolve there)
    refine List.mem_flatMap.mpr ⟨directory, onPath, List.mem_map.mpr ⟨_, place, ?_⟩⟩
    exact keptModule_resolve file tree directory

/-- There are at most as many modules as pairs of a directory of the load path and a file. -/
theorem length_le_of_found {names : List Text} (nodup : names.Nodup)
    (found : ∀ n ∈ names, ∃ x, (loadModule tree.lookup loadPath n).outcome = .ok x) :
    names.length ≤ loadPath.length * tree.files.length := by
  rw [← length_keptModules]
  refine (nodup.subperm fun n mem => ?_).length_le
  rcases found n mem with ⟨x, read⟩
  exact mem_keptModules read

end ThetaSchema
