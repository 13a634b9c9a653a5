import ThetaSchema.Proofs.Grammar.TypeForms
import ThetaSchema.Proofs.Printing.Types

/-!
# Qualified names as type expressions

A qualified name and a reference are read by different rules: the name is taken apart at its dots, and a
type expression is read from tokens, where a keyword is a type of its own whatever stands behind it.  So a
qualified name is read as a reference unless its first component is reserved; its other components may be
any identifiers.

Main results:

- `readLoneType_of_reserved`: nothing goes on behind a reserved word.
- `TypeExpr.parse_of_qualified`: which qualified names are read as references.
-/

namespace ThetaSchema

variable {m : Metadata}

/-- A reserved word is either a whole atom, or needs a parenthesis; so a path that goes on behind it is
refused. -/
theorem readLoneType_of_reserved {tokens : List Token} {first next : Text} {others : List Text}
    (path : DerivesPath tokens (first :: next :: others)) (reserved : isReservedWord m.language first = true) :
    ∃ f rest, readLoneType m tokens = .rejected f rest ∧ f.mismatch? = none := by
  cases path with
  | @cons t dot u rest _ identifier isDot before behind more =>
    by_cases keyword : t.text = Feature.fixed.keyword
    · have enabled : Feature.fixed.enabledAt m.language = true := by
        simpa [isReservedWord, keyword, ofKeyword?_fixed] using reserved
      have unsized : sizeFollows t (dot :: u :: rest) = false := by simp [sizeFollows, isDot]
      refine ⟨⟨t :: dot :: u :: rest, .missingSize⟩, t :: dot :: u :: rest, ?_, rfl⟩
      simp [readLoneType, readType, readAtom, identifier, readNamed, keyword, enabled, unsized]
    · obtain ⟨kind, primitive⟩ : ∃ kind, Primitive.ofKeyword? m.language t.text = some kind := by
        simpa [isReservedWord, keyword, Option.isSome_iff_exists] using reserved
      refine ⟨⟨dot :: u :: rest, .unexpected .endOfInput⟩, dot :: u :: rest, ?_, rfl⟩
      simp [readLoneType, readType, readAtom, identifier, readNamed, keyword, primitive, readOptionalMark,
        isDot, finish, reject]

/-- A qualified name is read as a reference to it, without a report, if its first component is free at the
language version; if that component is reserved, the text is refused as a type expression. -/
theorem TypeExpr.parse_of_qualified {t : Text} {n : QualifiedName} (named : QualifiedName.parse t = .ok n)
    (m : Metadata) :
    ∃ first, (nameComponents t).head? = some first ∧
      (¬ Reserved m.language first → ∃ l, TypeExpr.parse m t = ⟨[], .ok (.reference l n)⟩) ∧
      (Reserved m.language first → ∃ d, (TypeExpr.parse m t).outcome = .error (.syntaxFault d none)) := by
  obtain ⟨first, inner, last, components, identifiers, rfl⟩ := QualifiedName.exists_path_of_parse named
  have path : DerivesPath (TokenStream.ofText inputLabel t).tokens (first :: inner ++ [last]) := by
    rw [← dotted_nameComponents t, components]
    exact (Spells.dotted (by simp) identifiers (by simp [EndsWord])).tokens_ofText
  refine ⟨first, by rw [components]; rfl, fun free => ?_, fun reserved => ?_⟩
  · have forms : FormsType m .signature _ _ := .plain (.qualifiedReference path free)
    obtain ⟨read, ok, same⟩ := readLoneType_iff.mpr (derivesType_iff_forms.mpr forms)
    cases read <;> cases same
    exact ⟨_, by simp only [TypeExpr.parse, ok]; rfl⟩
  · obtain ⟨next, others, split⟩ := List.exists_cons_of_ne_nil (List.concat_ne_nil last inner)
    rw [List.cons_append, split] at path
    obtain ⟨f, rest, rejected, plain⟩ :=
      readLoneType_of_reserved path (isReservedWord_iff_reserved.mpr reserved)
    refine ⟨f.diagnostic (TokenStream.ofText inputLabel t).stop, ?_⟩
    simp only [TypeExpr.parse, rejected, Outcome.judge, Failure.error, plain]

/-- Below the first version with fixed types their keyword may come first, and other keywords may stand
behind it at every version. -/
theorem TypeExpr.parse_of_qualified_keywords :
    QualifiedName.parse "Fixed.Int.UUID" = .ok ⟨"Fixed.Int", "UUID"⟩ ∧
      (∃ l, TypeExpr.parse ⟨⟨1, 0, 0⟩, ⟨1, 0, 0⟩, "a"⟩ "Fixed.Int.UUID" =
        ⟨[], .ok (.reference l ⟨"Fixed.Int", "UUID"⟩)⟩) ∧
      ∃ d, (TypeExpr.parse ⟨⟨1, 1, 0⟩, ⟨1, 0, 0⟩, "a"⟩ "Fixed.Int.UUID").outcome =
        .error (.syntaxFault d none) := by
  have named : QualifiedName.parse "Fixed.Int.UUID" = .ok ⟨"Fixed.Int", "UUID"⟩ := by rfl
  have head : (nameComponents "Fixed.Int.UUID").head? = some ("Fixed" : Text) := by rfl
  refine ⟨named, ?_, ?_⟩
  · obtain ⟨first, same, free, -⟩ := parse_of_qualified named ⟨⟨1, 0, 0⟩, ⟨1, 0, 0⟩, "a"⟩
    rw [head, Option.some.injEq] at same
    subst same
    exact free (isReservedWord_eq_false_iff_not_reserved.mp (by decide))
  · obtain ⟨first, same, -, refused⟩ := parse_of_qualified named ⟨⟨1, 1, 0⟩, ⟨1, 0, 0⟩, "a"⟩
    rw [head, Option.some.injEq] at same
    subst same
    exact refused (isReservedWord_iff_reserved.mp (by decide))

/-- A qualified name that starts with the keyword of a primitive type is no reference. -/
theorem TypeExpr.parse_qualified_keyword_first :
    QualifiedName.parse "Int.Foo" = .ok ⟨"Int", "Foo"⟩ ∧
      ¬ ∃ l, (TypeExpr.parse ⟨⟨1, 1, 0⟩, ⟨1, 0, 0⟩, "test"⟩ "Int.Foo").outcome =
        .ok (.reference l ⟨"Int", "Foo"⟩) := by
  refine ⟨by rfl, ?_⟩
  have refused : (TypeExpr.parse ⟨⟨1, 1, 0⟩, ⟨1, 0, 0⟩, "test"⟩ "Int.Foo").outcome.toOption.isNone = true := by
    decide +kernel
  rintro ⟨l, read⟩
  rw [read] at refused
  cases refused

end ThetaSchema
