import ThetaSchema.Error
import ThetaSchema.Proofs.Token.Words

/-!
# Dotted names

Putting identifiers together to a dotted name and taking the name apart again are inverse to each other,
and a qualified name is read back from its written form.

Main results:

- `nameComponents_dotted`, `dotted_nameComponents`: the two directions.
- `QualifiedName.exists_path_of_parse`: a qualified name is a path of identifiers.
- `QualifiedName.parse_render`: a written qualified name is read as the name.
- `QualifiedName.parse_exact`: which texts are read as which qualified name, and what is wrong with the others.
-/

namespace ThetaSchema

theorem dotted_singleton (w : Text) : dotted [w] = w := by
  rw [dotted, Text.join, List.intercalate_singleton]

/-- A dot goes between the first part of a path and the others. -/
theorem dotted_cons (w : Text) {parts : List Text} (h : parts ≠ []) :
    dotted (w :: parts) = w ++ Byte.dot :: dotted parts := by
  rw [dotted, Text.join, List.intercalate_cons_of_ne_nil h, List.append_assoc, List.singleton_append]
  rfl

/-- A dot goes between the last part of a path and the others. -/
theorem dotted_append_singleton {parts : List Text} (h : parts ≠ []) (w : Text) :
    dotted (parts ++ [w]) = dotted parts ++ Byte.dot :: w := by
  induction parts with
  | nil => exact absurd rfl h
  | cons u parts ih =>
    cases parts with
    | nil =>
      rw [List.singleton_append, dotted_cons u (List.cons_ne_nil w []), dotted_singleton, dotted_singleton]
    | cons v parts =>
      rw [List.cons_append, dotted_cons u (by simp), ih (List.cons_ne_nil v parts),
        dotted_cons u (List.cons_ne_nil v parts), List.append_assoc, List.cons_append]

theorem dotted_nameComponents (t : Text) : dotted (nameComponents t) = t :=
  List.intercalate_splitOn _

/-- The components of a dotted name are the identifiers it is made of. -/
theorem nameComponents_dotted {parts : List Text} (nonempty : parts ≠ [])
    (identifiers : ∀ w ∈ parts, isIdentifier w = true) : nameComponents (dotted parts) = parts :=
  List.splitOn_intercalate _ (fun w mem => (not_mem_identifier (identifiers w mem)).1) nonempty

/-- Identifiers with dots between them are the name of a module. -/
theorem isModuleName_dotted {parts : List Text} (nonempty : parts ≠ [])
    (identifiers : ∀ w ∈ parts, isIdentifier w = true) : isModuleName (dotted parts) = true := by
  rw [isModuleName, nameComponents_dotted nonempty identifiers, List.all_eq_true]
  exact identifiers

/-- An identifier is a dotted name with one component. -/
theorem isIdentifier_iff {t : Text} :
    isIdentifier t = true ↔ isModuleName t = true ∧ ∃ w, nameComponents t = [w] := by
  constructor
  · intro identifier
    have components : nameComponents t = [t] := by
      simpa [dotted_singleton] using nameComponents_dotted (List.cons_ne_nil t []) (by simpa using identifier)
    exact ⟨by simpa [isModuleName, components] using identifier, t, components⟩
  · rintro ⟨named, w, components⟩
    have same : w = t := by rw [← dotted_nameComponents t, components, dotted_singleton]
    simpa [isModuleName, components, same] using named

/-! ## Qualified names -/

namespace QualifiedName

variable {n : QualifiedName}

/-- The components of a written name are those of its module and then the local name. -/
theorem nameComponents_render (named : isModuleName n.moduleName = true)
    (identifier : isIdentifier n.localName = true) :
    nameComponents n.render = nameComponents n.moduleName ++ [n.localName] := by
  have nonempty : nameComponents n.moduleName ≠ [] := List.splitOn_ne_nil _ _
  have identifiers : ∀ w ∈ nameComponents n.moduleName ++ [n.localName], isIdentifier w = true := by
    intro w mem
    rcases List.mem_append.mp mem with inner | last
    · exact List.all_eq_true.mp named w inner
    · rwa [List.mem_singleton.mp last]
  have written : n.render = dotted (nameComponents n.moduleName ++ [n.localName]) := by
    rw [dotted_append_singleton nonempty, dotted_nameComponents, render, List.append_assoc]
    rfl
  rw [written, nameComponents_dotted (by simp) identifiers]

/-- A written name is read as the name. -/
theorem parse_render (named : isModuleName n.moduleName = true)
    (identifier : isIdentifier n.localName = true) : QualifiedName.parse n.render = .ok n := by
  have components := nameComponents_render named identifier
  have isName : isModuleName n.render = true := by
    rw [isModuleName, components, List.all_append, Bool.and_eq_true]
    exact ⟨named, by simp [identifier]⟩
  rw [QualifiedName.parse, if_pos isName, components, List.reverse_append, List.reverse_singleton,
    List.singleton_append]
  cases inner : (nameComponents n.moduleName).reverse with
  | nil => exact absurd (List.reverse_eq_nil_iff.mp inner) (List.splitOn_ne_nil _ _)
  | cons c cs =>
    have whole : (c :: cs).reverse = nameComponents n.moduleName := by
      rw [← inner, List.reverse_reverse]
    dsimp only
    rw [whole, dotted_nameComponents]

/-- A qualified name is a path of two or more identifiers, of which the last is the local name. -/
theorem exists_path_of_parse {t : Text} {n : QualifiedName}
    (h : QualifiedName.parse t = .ok n) :
    ∃ first inner last, nameComponents t = first :: inner ++ [last] ∧
      (∀ w ∈ first :: inner ++ [last], isIdentifier w = true) ∧ n = ⟨dotted (first :: inner), last⟩ := by
  unfold QualifiedName.parse at h
  split at h
  · next isName =>
    split at h
    · cases h
    · cases h
    · next last others qualified split =>
      cases h
      have components : nameComponents t = others.reverse ++ [last] := by
        rw [← List.reverse_reverse (nameComponents t), split, List.reverse_cons]
      rw [isModuleName, components, List.all_eq_true] at isName
      cases inner : others.reverse with
      | nil => exact absurd (List.reverse_eq_nil_iff.mp inner) qualified
      | cons first inner' =>
        rw [inner] at components isName
        exact ⟨first, inner', last, components, isName, rfl⟩
  · cases h

/-- Exactly the written forms of a name are read as the name. -/
theorem parse_eq_ok_iff {t : Text} :
    QualifiedName.parse t = .ok n ↔
      isModuleName n.moduleName = true ∧ isIdentifier n.localName = true ∧ n.render = t := by
  constructor
  · intro read
    obtain ⟨first, inner, last, components, identifiers, rfl⟩ := exists_path_of_parse read
    have front : ∀ w ∈ first :: inner, isIdentifier w = true :=
      fun w mem => identifiers w (List.mem_append_left _ mem)
    refine ⟨isModuleName_dotted (List.cons_ne_nil first inner) front, identifiers last (by simp), ?_⟩
    have written : render ⟨dotted (first :: inner), last⟩ = dotted (first :: inner ++ [last]) := by
      rw [dotted_append_singleton (List.cons_ne_nil first inner), render, List.append_assoc]
      rfl
    rw [written, ← components, dotted_nameComponents]
  · rintro ⟨named, identifier, rfl⟩
    exact parse_render named identifier

/-- A text that is not read as a qualified name is an identifier or no dotted name at all. -/
theorem parse_eq_error_iff {t : Text} {e : SchemaError} :
    QualifiedName.parse t = .error e ↔
      (isIdentifier t = true ∧ e = .unqualifiedName t) ∨ (isModuleName t = false ∧ e = .invalidName t) := by
  unfold QualifiedName.parse
  by_cases named : isModuleName t = true
  · rw [if_pos named, isIdentifier_iff]
    split
    · next none => exact absurd (List.reverse_eq_nil_iff.mp none) (List.splitOn_ne_nil _ _)
    · next w single =>
      have components : nameComponents t = [w] := List.reverse_eq_iff.mp single
      simp [named, components, eq_comm]
    · next last inner qualified split =>
      have several : ∀ w, nameComponents t ≠ [w] := by
        intro w single
        rw [single, List.reverse_singleton, List.cons.injEq] at split
        exact qualified split.2.symm
      simp [named, several]
  · rw [if_neg named, isIdentifier_iff]
    simp [named, eq_comm]

/-- A text is read as a name exactly when it is the written form of the name, whose module has a dotted name and
which is itself an identifier in it; so different names are written differently.  Of the other texts, exactly the
identifiers are refused for the lack of a module, and the rest as no names at all. -/
theorem parse_exact :
    (∀ (t : Text) (n : QualifiedName), QualifiedName.parse t = .ok n ↔
      isModuleName n.moduleName = true ∧ isIdentifier n.localName = true ∧ n.render = t) ∧
    (∀ n n' : QualifiedName,
      isModuleName n.moduleName = true → isIdentifier n.localName = true →
      isModuleName n'.moduleName = true → isIdentifier n'.localName = true →
        n.render = n'.render → n = n') ∧
    ∀ (t : Text) (e : SchemaError), QualifiedName.parse t = .error e →
      (e = .unqualifiedName t ↔ isIdentifier t = true) ∧ (isIdentifier t = false → e = .invalidName t) := by
  refine ⟨fun t n => parse_eq_ok_iff, fun n n' named identifier named' identifier' same => ?_, fun t e h => ?_⟩
  · have read := parse_render named identifier
    rw [same, parse_render named' identifier'] at read
    exact (Except.ok.inj read).symm
  · rcases parse_eq_error_iff.mp h with ⟨identifier, rfl⟩ | ⟨noName, rfl⟩
    · simp [identifier]
    · have noIdentifier : isIdentifier t = false := by
        rw [Bool.eq_false_iff, ne_eq, isIdentifier_iff]
        simp [noName]
      simp [noIdentifier]

/-- A name with three components, an identifier, and a text with an empty component. -/
theorem parse_exact_forms :
    (isModuleName "com.example" = true ∧ isIdentifier "Foo" = true) ∧
      QualifiedName.parse "com.example.Foo" = .ok ⟨"com.example", "Foo"⟩ ∧
      (∀ n : QualifiedName, isModuleName n.moduleName = true → isIdentifier n.localName = true →
        n.render = "com.example.Foo" → n = ⟨"com.example", "Foo"⟩) ∧
      (isIdentifier "Foo" = true ∧ QualifiedName.parse "Foo" = .error (.unqualifiedName "Foo")) ∧
      (isIdentifier "com..Foo" = false ∧ QualifiedName.parse "com..Foo" = .error (.invalidName "com..Foo")) := by
  obtain ⟨reads, injective, refuses⟩ := parse_exact
  have named : isModuleName "com.example" = true := by decide
  have identifier : isIdentifier "Foo" = true := by decide
  refine ⟨⟨named, identifier⟩, (reads _ _).mpr ⟨named, identifier, by decide⟩, ?_, ⟨identifier, ?_⟩,
    by decide, ?_⟩
  · intro n named' identifier' same
    exact injective _ _ named' identifier' named identifier same
  · have refused : ∃ e, QualifiedName.parse "Foo" = .error e := ⟨_, rfl⟩
    obtain ⟨e, refused⟩ := refused
    rw [refused, (refuses _ e refused).1.mpr identifier]
  · have refused : ∃ e, QualifiedName.parse "com..Foo" = .error e := ⟨_, rfl⟩
    obtain ⟨e, refused⟩ := refused
    rw [refused, (refuses _ e refused).2 (by decide)]

end QualifiedName

end ThetaSchema
