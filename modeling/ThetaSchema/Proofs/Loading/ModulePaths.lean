import ThetaSchema.Proofs.Loading.Places

/-!
# The paths of modules

The path of a module leads from a directory down to a schema file, through entries that are named by
identifiers.  So it names nothing outside of the directory, and the name of the module can be read off it.

Main definitions:

- `Path.Appends`: what is relied on when one component after the other is put behind a path.
- `Path.Descends`: a path that leads down to a schema file.

Main results:

- `Path.Appends.foldl_eq_join`: components are put together with a slash between neighbours.
- `Path.descends_modulePath`: the path of a module leads down to a schema file.
- `modulePath_contained_injective`: which texts have a path as names of modules, and what it is like.
-/

namespace ThetaSchema
namespace Path

/-! ## Components one after the other -/

/-- What is relied on when a component is put behind a path: the first component stands alone, any other one
behind a slash, which is written unless the path ends with it.  What becomes of slashes at the start of a
component is left open behind such a path. -/
structure Appends (append : Text → Text → Text) : Prop where
  first : ∀ c, append [] c = c
  ended : ∀ p c, p.getLast? = some Byte.slash → c.head? ≠ some Byte.slash → append p c = p ++ c
  between : ∀ p c, p ≠ [] → p.getLast? ≠ some Byte.slash → append p c = p ++ Byte.slash :: c

theorem appends_append : Appends append where
  first c := by simp [append]
  ended p c last _ := by
    have nonempty : p ≠ [] := by
      rintro rfl
      cases last
    simp [append, nonempty, last]
  between p c nonempty last := by simp [append, nonempty, last]

variable {append : Text → Text → Text}

/-- Components behind a path that does not end with a slash each get one in front. -/
theorem Appends.foldl_eq_append (h : Appends append) {parts : List Text}
    (named : ∀ c ∈ parts, c ≠ [] ∧ Byte.slash ∉ c) {p : Text} (nonempty : p ≠ [])
    (last : p.getLast? ≠ some Byte.slash) :
    parts.foldl append p = p ++ parts.flatMap ([Byte.slash] ++ ·) := by
  induction parts generalizing p with
  | nil => simp
  | cons c parts ih =>
    obtain ⟨component, slashless⟩ := named c List.mem_cons_self
    have step : append p c = p ++ Byte.slash :: c := h.between p c nonempty last
    have last' : (p ++ Byte.slash :: c).getLast? ≠ some Byte.slash := by
      intro ends
      rw [List.getLast?_append_of_ne_nil _ (List.cons_ne_nil _ _), List.getLast?_cons_of_ne_nil component] at ends
      exact slashless (List.mem_of_getLast? ends)
    rw [List.foldl_cons, step, ih (fun d mem => named d (List.mem_cons_of_mem c mem)) (by simp) last']
    simp

/-- Components that are put behind the empty path one after the other have a slash between neighbours. -/
theorem Appends.foldl_eq_join (h : Appends append) {parts : List Text}
    (named : ∀ c ∈ parts, c ≠ [] ∧ Byte.slash ∉ c) :
    parts.foldl append [] = Text.join [Byte.slash] parts := by
  cases parts with
  | nil => rfl
  | cons c parts =>
    obtain ⟨component, slashless⟩ := named c List.mem_cons_self
    have last : c.getLast? ≠ some Byte.slash := fun ends => slashless (List.mem_of_getLast? ends)
    rw [List.foldl_cons, h.first, Text.join_cons]
    exact h.foldl_eq_append (fun d mem => named d (List.mem_cons_of_mem c mem)) component last

/-! ## Paths that lead down -/

/-- A path that leads down to a schema file: it starts below the directory that it is put behind, each of its
components names an entry, it ends with the extension, and apart from the dot of the extension its bytes are
slashes and those of identifiers. -/
structure Descends (path : Text) : Prop where
  relative : path.head? ≠ some Byte.slash
  extension : moduleExtension <:+ path
  proper : ∀ c ∈ components path, c ≠ [] ∧ c ≠ [Byte.dot] ∧ c ≠ [Byte.dot, Byte.dot]
  bytes : ∀ b ∈ path, Byte.isIdentifierByte b = true ∨ b = Byte.slash ∨ b = Byte.dot
  dots : path.count Byte.dot = 1

/-- Whatever place such a path starts from, it leads to one below. -/
theorem Descends.resolve {path : Text} (h : Descends path) (place : List Text) :
    FileTree.resolve place (components path) = place ++ components path := by
  apply FileTree.resolve_of_proper
  intro c mem
  obtain ⟨component, noDot, noDots⟩ := h.proper c mem
  exact ⟨by simp [FileTree.isStationary, component, noDot], noDots⟩

end Path

/-! ## Modules -/

variable {name path : Text}

/-- In front of the extension there are identifiers and slashes. -/
theorem mem_join_components {b : UInt8} (named : isModuleName name = true)
    (mem : b ∈ Text.join [Byte.slash] (nameComponents name)) :
    Byte.isIdentifierByte b = true ∨ b = Byte.slash := by
  rcases Text.mem_join mem with between | ⟨w, component, inside⟩
  · exact .inr (List.mem_singleton.mp between)
  · have identifier : isIdentifier w = true := List.all_eq_true.mp named w component
    exact .inl (all_isIdentifierByte identifier b inside)

/-- The components of a module's path are neither empty nor made of dots. -/
theorem named_components_modulePath (h : modulePath name = .ok path) :
    ∀ c ∈ Path.components path, c ≠ [] ∧ c ≠ [Byte.dot] ∧ c ≠ [Byte.dot, Byte.dot] := by
  intro c mem
  obtain ⟨moves, noDots⟩ := proper_components_modulePath h c mem
  simp only [FileTree.isStationary, Bool.or_eq_false_iff, List.isEmpty_eq_false_iff,
    beq_eq_false_iff_ne] at moves
  exact ⟨moves.1, moves.2, noDots⟩

/-- The path of a module leads down to a schema file. -/
theorem Path.descends_modulePath (h : modulePath name = .ok path) : Descends path where
  relative := head?_modulePath h
  extension := by
    obtain ⟨-, split⟩ := modulePath_eq_ok_iff.mp h
    exact ⟨_, split.symm⟩
  proper := named_components_modulePath h
  bytes := by
    obtain ⟨named, split⟩ := modulePath_eq_ok_iff.mp h
    have known : ∀ b ∈ moduleExtension, Byte.isIdentifierByte b = true ∨ b = Byte.dot := by
      decide +kernel
    intro b mem
    rw [split, List.mem_append] at mem
    rcases mem with stem | ending
    · exact (mem_join_components named stem).imp_right .inl
    · exact (known b ending).imp_right .inr
  dots := by
    obtain ⟨named, split⟩ := modulePath_eq_ok_iff.mp h
    have stem : Byte.dot ∉ Text.join [Byte.slash] (nameComponents name) := by
      intro mem
      rcases mem_join_components named mem with identifier | slash
      · exact absurd identifier (by decide)
      · exact absurd slash (by decide)
    have one : List.count Byte.dot moduleExtension = 1 := by decide
    rw [split, List.count_append, List.count_eq_zero_of_not_mem stem, one]

/-- The name of a module can be read off its path. -/
theorem modulePath_injective {name' : Text} (h : modulePath name = .ok path)
    (h' : modulePath name' = .ok path) : name = name' :=
  (keptModule_resolve h {} []).symm.trans (keptModule_resolve h' {} [])

/-- The path of a module is what its components make up, put one behind the other. -/
theorem modulePath_eq_foldl (h : modulePath name = .ok path) {append : Text → Text → Text}
    (appends : Path.Appends append) : path = (nameComponents name).foldl append [] ++ moduleExtension := by
  obtain ⟨named, split⟩ := modulePath_eq_ok_iff.mp h
  have components : ∀ c ∈ nameComponents name, c ≠ [] ∧ Byte.slash ∉ c := by
    intro c mem
    have identifier : isIdentifier c = true := List.all_eq_true.mp named c mem
    refine ⟨?_, slash_not_mem_identifier identifier⟩
    rintro rfl
    cases identifier
  rw [split, appends.foldl_eq_join components]

/-- Exactly the names of modules have paths.  A path consists of the components of the name, put one behind the
other, and the extension; it leads from any place down to a schema file below; and no other name has it. -/
theorem modulePath_contained_injective :
    (∀ name, (∃ path, modulePath name = .ok path) ↔ isModuleName name = true) ∧
    (∀ name path, modulePath name = .ok path →
      (∀ append, Path.Appends append →
        path = (nameComponents name).foldl append [] ++ moduleExtension) ∧
      Path.Descends path ∧
      ∀ place, FileTree.resolve place (Path.components path) = place ++ Path.components path) ∧
    ∀ name name' path, modulePath name = .ok path → modulePath name' = .ok path → name = name' := by
  refine ⟨fun name => ?_, fun name path h => ?_, fun name name' path => modulePath_injective⟩
  · simp [modulePath_eq_ok_iff]
  · have descends := Path.descends_modulePath h
    exact ⟨fun append => modulePath_eq_foldl h, descends, descends.resolve⟩

/-- A module with three components; its path is that of no other module. -/
theorem modulePath_contained_injective_nested :
    modulePath "com.example.foo_1" = .ok "com/example/foo_1.theta" ∧
      Path.Appends Path.append ∧
      (nameComponents "com.example.foo_1").foldl Path.append [] ++ moduleExtension = "com/example/foo_1.theta" ∧
      Path.Descends "com/example/foo_1.theta" ∧
      FileTree.resolve ["lib"] ["com", "example", "foo_1.theta"] = ["lib", "com", "example", "foo_1.theta"] ∧
      ∀ name, modulePath name = .ok "com/example/foo_1.theta" → name = "com.example.foo_1" := by
  have path : modulePath "com.example.foo_1" = .ok "com/example/foo_1.theta" := by rfl
  obtain ⟨-, contained, injective⟩ := modulePath_contained_injective
  obtain ⟨composed, descends, below⟩ := contained _ _ path
  exact ⟨path, Path.appends_append, (composed _ Path.appends_append).symm, descends, below ["lib"],
    fun name h => injective name _ _ h path⟩

end ThetaSchema
