import ThetaSchema.Grammar.Header
import ThetaSchema.Grammar.Statement
import ThetaSchema.Proofs.Schema.Unlocated

/-!
# Derivations of type expressions

The grammar of paths and type expressions as rules on token lists, independent of the order in which a
reader looks at the tokens.  Trees are derived without locations.

Main definitions:

- `DerivesPath`: identifiers and dots of which every neighbouring pair touches.
- `DerivesType`: atoms and signatures, a signature being an atom with an optional question mark.

Main results:

- `readType_sound`: what the reader consumes derives what it returns.
- `readType_complete`: derivable tokens are read, whatever follows that cannot continue a type.
- `readLoneType_iff`: a token list is read as a whole type expression exactly when it derives one.
-/

namespace ThetaSchema

/-! ## Single tokens -/

/-- A token of the expected kind is read. -/
theorem expect_cons {kind : TokenKind} {t : Token} (h : t.kind = kind) (expected : Expectation)
    (rest : List Token) : expect kind expected (t :: rest) = .accepted t rest := by
  simp [expect, h]

@[simp]
theorem startsWith_nil (kind : TokenKind) : startsWith kind [] = false := rfl

@[simp]
theorem startsWith_cons (kind : TokenKind) (t : Token) (rest : List Token) :
    startsWith kind (t :: rest) = decide (t.kind = kind) := rfl

/-! ## Paths -/

/-- Identifiers with a dot between neighbours, where every neighbouring pair of tokens touches, and the
texts of the identifiers. -/
inductive DerivesPath : List Token → List Text → Prop where
  | single {t : Token} (identifier : t.kind = .identifier) : DerivesPath [t] [t.text]
  | cons {t dot next : Token} {rest : List Token} {parts : List Text}
      (identifier : t.kind = .identifier) (isDot : dot.kind = .dot)
      (before : t.adjacentTo dot = true) (behind : dot.adjacentTo next = true)
      (more : DerivesPath (next :: rest) parts) :
      DerivesPath (t :: dot :: next :: rest) (t.text :: parts)

/-- What the reader of a path tail consumes continues the path. -/
theorem readPathTail_sound {last : Token} {tokens rest : List Token} {parts : List Text}
    (identifier : last.kind = .identifier) (h : readPathTail last tokens = .accepted parts rest) :
    ∃ path, tokens = path ++ rest ∧ DerivesPath (last :: path) (last.text :: parts) := by
  fun_induction readPathTail last tokens generalizing parts with
  | case1 =>
    cases h
    exact ⟨[], rfl, .single identifier⟩
  | case2 => cases h
  | case3 last dot isDot next others touches ih =>
    rcases Outcome.map_eq_accepted_iff.mp h with ⟨inner, accepted, rfl⟩
    rcases ih touches.1 accepted with ⟨path, rfl, derived⟩
    exact ⟨dot :: next :: path, rfl, .cons identifier isDot.1 isDot.2 touches.2 derived⟩
  | case4 => cases h
  | case5 =>
    cases h
    exact ⟨[], rfl, .single identifier⟩

/-- A derivable path is read up to its end, unless a dot follows. -/
theorem readPathTail_complete {tokens rest : List Token} {parts : List Text}
    (h : DerivesPath tokens parts) (dot : startsWith .dot rest = false) :
    ∃ first path others, tokens = first :: path ∧ parts = first.text :: others ∧
      first.kind = .identifier ∧ readPathTail first (path ++ rest) = .accepted others rest := by
  induction h with
  | @single t identifier =>
    refine ⟨t, [], [], rfl, rfl, identifier, ?_⟩
    cases rest with
    | nil => rfl
    | cons next others =>
      simp only [startsWith_cons, decide_eq_false_iff_not] at dot
      unfold readPathTail
      simp [dot]
  | @cons t d next tail parts identifier isDot before behind _ ih =>
    rcases ih with ⟨first, path, others, same, rfl, nextIdentifier, accepted⟩
    cases same
    refine ⟨t, d :: next :: tail, next.text :: others, rfl, rfl, identifier, ?_⟩
    simp [readPathTail, isDot, before, behind, nextIdentifier, accepted]

/-- A derived path is read in front of tokens that do not go on with a dot. -/
theorem readPath_complete {tokens rest : List Token} {parts : List Text}
    (h : DerivesPath tokens parts) (dot : startsWith .dot rest = false) :
    ∃ first others, parts = first :: others ∧
      readPath (tokens ++ rest) = .accepted (first, others) rest := by
  rcases readPathTail_complete h dot with ⟨first, path, others, rfl, rfl, identifier, accepted⟩
  refine ⟨first.text, others, rfl, ?_⟩
  simp [readPath, expect_cons identifier, accepted]

/-- What is read as a path is derived from the tokens that were consumed. -/
theorem readPath_sound {tokens rest : List Token} {first : Text} {others : List Text}
    (h : readPath tokens = .accepted (first, others) rest) :
    ∃ path, tokens = path ++ rest ∧ DerivesPath path (first :: others) := by
  rcases Outcome.andThen_eq_accepted_iff.mp h with ⟨t, behind, isIdentifier, tail⟩
  rcases expect_accepted isIdentifier with ⟨rfl, identifier⟩
  rcases Outcome.map_eq_accepted_iff.mp tail with ⟨parts, accepted, same⟩
  cases same
  rcases readPathTail_sound identifier accepted with ⟨path, rfl, derived⟩
  exact ⟨t :: path, rfl, derived⟩

/-! ## Keywords of primitive types -/

/-- The keyword of a primitive type that the language version has is read as the type. -/
theorem Primitive.ofKeyword?_keyword {language : Version} {kind : Primitive}
    (enabled : kind.enabledAt language = true) : ofKeyword? language kind.keyword = some kind := by
  have distinct : ∀ p ∈ all, ∀ q ∈ all, p.keyword = q.keyword → p = q := by decide
  have listed : ∀ p, p ∈ all := by
    intro p
    cases p <;> decide
  have found : (ofKeyword? language kind.keyword).isSome = true := by
    rw [ofKeyword?, List.find?_isSome]
    exact ⟨kind, listed kind, by simp [enabled]⟩
  rcases Option.isSome_iff_exists.mp found with ⟨p, same⟩
  have keyword := List.find?_some same
  rw [Bool.and_eq_true, beq_iff_eq] at keyword
  rw [same, distinct p (listed p) kind (listed kind) keyword.2]

/-- A text is read as a primitive type exactly when it is the keyword of one that the language version
has. -/
theorem Primitive.ofKeyword?_eq_some_iff {language : Version} {t : Text} {kind : Primitive} :
    ofKeyword? language t = some kind ↔ kind.enabledAt language = true ∧ kind.keyword = t := by
  constructor
  · intro found
    simpa using List.find?_some found
  · rintro ⟨enabled, rfl⟩
    exact ofKeyword?_keyword enabled

/-! ## Type expressions -/

/-- The two levels of a type expression. -/
inductive TypeLevel where
  | atom
  | signature
  deriving DecidableEq, Repr

/-- The rules of type expressions, at the language version and module of some metadata. -/
inductive DerivesType (m : Metadata) : TypeLevel → List Token → TypeExpr → Prop where
  | primitive {t : Token} {kind : Primitive} (identifier : t.kind = .identifier)
      (keyword : Primitive.ofKeyword? m.language t.text = some kind) :
      DerivesType m .atom [t] (.primitive {} kind)
  | fixed {t opening size closing : Token} {n : Nat} (identifier : t.kind = .identifier)
      (keyword : t.text = Feature.fixed.keyword) (enabled : Feature.fixed.enabledAt m.language = true)
      (isOpening : opening.kind = .parenOpen) (touches : t.adjacentTo opening = true)
      (isSize : size.kind = .integer) (value : Decimal.read? UInt64.size size.text = some n)
      (isClosing : closing.kind = .parenClose) :
      DerivesType m .atom [t, opening, size, closing] (.fixed {} n.toUInt64)
  | array {opening closing : Token} {tokens : List Token} {e : TypeExpr}
      (isOpening : opening.kind = .bracketOpen) (element : DerivesType m .signature tokens e)
      (isClosing : closing.kind = .bracketClose) :
      DerivesType m .atom (opening :: tokens ++ [closing]) (.array {} e)
  | map {opening closing : Token} {tokens : List Token} {e : TypeExpr}
      (isOpening : opening.kind = .braceOpen) (value : DerivesType m .signature tokens e)
      (isClosing : closing.kind = .braceClose) :
      DerivesType m .atom (opening :: tokens ++ [closing]) (.map {} e)
  | reference {tokens : List Token} {first : Text} {others : List Text}
      (path : DerivesPath tokens (first :: others)) (free : isReservedWord m.language first = false) :
      DerivesType m .atom tokens (.reference {} (.ofPath m.moduleName first others))
  | plain {tokens : List Token} {e : TypeExpr} (atom : DerivesType m .atom tokens e) :
      DerivesType m .signature tokens e
  | optional {tokens : List Token} {mark : Token} {e : TypeExpr} (atom : DerivesType m .atom tokens e)
      (isMark : mark.kind = .question) : DerivesType m .signature (tokens ++ [mark]) (.optional {} e)

variable {m : Metadata}

/-! ### What is read is derivable -/

/-- A question mark that is read belongs to the signature. -/
theorem readOptionalMark_sound {e e' : TypeExpr} {atom tokens rest : List Token}
    (derived : DerivesType m .atom atom e.unlocated)
    (h : readOptionalMark e tokens = .accepted e' rest) :
    ∃ mark, tokens = mark ++ rest ∧ DerivesType m .signature (atom ++ mark) e'.unlocated := by
  unfold readOptionalMark at h
  split at h
  · cases h
    exact ⟨[], rfl, by simpa using derived.plain⟩
  · split at h
    · next t _ isMark =>
      cases h
      exact ⟨[t], rfl, derived.optional isMark⟩
    · cases h
      exact ⟨[], rfl, by simpa using derived.plain⟩

/-- The keyword of fixed types is reserved where fixed types exist, and names no primitive type. -/
theorem isReservedWord_eq_false_iff {language : Version} {t : Text} :
    isReservedWord language t = false ↔
      Primitive.ofKeyword? language t = none ∧
        ¬ (Feature.fixed.enabledAt language = true ∧ t = Feature.fixed.keyword) := by
  simp [isReservedWord]

/-- The keyword of fixed types is the keyword of no primitive type. -/
theorem ofKeyword?_fixed (language : Version) :
    Primitive.ofKeyword? language Feature.fixed.keyword = none := by
  have other : ∀ p ∈ Primitive.all, (p.keyword == Feature.fixed.keyword) = false := by decide
  refine List.find?_eq_none.mpr fun p inAll => ?_
  simp [other p inAll]

/-- A size that is read is a numeral in front of a closing parenthesis. -/
theorem readSize_sound {location : Location} {tokens rest : List Token} {e : TypeExpr}
    (h : readSize location tokens = .accepted e rest) :
    ∃ size closing n, tokens = size :: closing :: rest ∧ size.kind = .integer ∧
      closing.kind = .parenClose ∧ Decimal.read? UInt64.size size.text = some n ∧
      e = .fixed location n.toUInt64 := by
  rcases Outcome.andThen_eq_accepted_iff.mp h with ⟨size, behind, isSize, h⟩
  rcases expect_accepted isSize with ⟨rfl, sizeKind⟩
  split at h
  · cases h
  · next n value =>
    rcases Outcome.map_eq_accepted_iff.mp h with ⟨closing, isClosing, rfl⟩
    rcases expect_accepted isClosing with ⟨rfl, closingKind⟩
    exact ⟨size, closing, n, rfl, sizeKind, closingKind, value, rfl⟩

/-- What is read as a reference is a path that starts with a free word. -/
theorem readReference_sound {t : Token} {tokens rest : List Token} {e : TypeExpr}
    (identifier : t.kind = .identifier) (free : isReservedWord m.language t.text = false)
    (h : readReference m t tokens = .accepted e rest) :
    ∃ path, tokens = path ++ rest ∧ DerivesType m .atom (t :: path) e.unlocated := by
  rcases Outcome.map_eq_accepted_iff.mp h with ⟨others, accepted, rfl⟩
  rcases readPathTail_sound identifier accepted with ⟨path, rfl, derived⟩
  exact ⟨path, rfl, .reference derived free⟩

/-- What is read behind an identifier is derived together with it. -/
theorem readNamed_sound {t : Token} {tokens rest : List Token} {e : TypeExpr}
    (identifier : t.kind = .identifier) (h : readNamed m t tokens = .accepted e rest) :
    ∃ atom, tokens = atom ++ rest ∧ DerivesType m .atom (t :: atom) e.unlocated := by
  unfold readNamed at h
  split at h
  · next keyword =>
    split at h
    · next enabled =>
      split at h
      · next follows =>
        cases tokens with
        | nil => cases follows
        | cons opening behind =>
          simp only [sizeFollows, List.head?_cons, Option.any_some, Bool.and_eq_true,
            decide_eq_true_eq] at follows
          rcases readSize_sound h with ⟨size, closing, n, same, sizeKind, closingKind, value, rfl⟩
          cases same
          exact ⟨[opening, size, closing], rfl,
            .fixed identifier keyword enabled follows.1 follows.2 sizeKind value closingKind⟩
      · cases h
    · next disabled =>
      split at h
      · cases h
      · refine readReference_sound identifier ?_ h
        rw [isReservedWord_eq_false_iff, keyword]
        exact ⟨ofKeyword?_fixed m.language, fun both => disabled both.1⟩
  · next other =>
    split at h
    · next kind keyword =>
      cases h
      exact ⟨[], rfl, .primitive identifier keyword⟩
    · next none =>
      refine readReference_sound identifier ?_ h
      exact isReservedWord_eq_false_iff.mpr ⟨none, fun both => other both.2⟩

/-- What is read as an atom is derived from the tokens that were consumed. -/
theorem readAtom_sound {tokens rest : List Token} {e : TypeExpr}
    (h : readAtom m tokens = .accepted e rest) :
    ∃ atom, tokens = atom ++ rest ∧ DerivesType m .atom atom e.unlocated := by
  induction tokens generalizing e rest with
  | nil => cases h
  | cons t others ih =>
    -- The signature between brackets or braces is an atom with its mark, so the hypothesis is enough.
    have inner : ∀ {e' : TypeExpr} {left : List Token},
        (readAtom m others).andThen readOptionalMark = .accepted e' left →
        ∃ signature, others = signature ++ left ∧ DerivesType m .signature signature e'.unlocated := by
      intro e' left accepted
      rcases Outcome.andThen_eq_accepted_iff.mp accepted with ⟨a, mid, atomAccepted, markAccepted⟩
      rcases ih atomAccepted with ⟨atom, rfl, derived⟩
      rcases readOptionalMark_sound derived markAccepted with ⟨mark, rfl, signature⟩
      exact ⟨atom ++ mark, by rw [List.append_assoc], signature⟩
    unfold readAtom at h
    split at h
    · next isOpening =>
      rcases Outcome.andThen_eq_accepted_iff.mp h with ⟨element, left, accepted, h⟩
      rcases Outcome.map_eq_accepted_iff.mp h with ⟨closing, isClosing, rfl⟩
      rcases expect_accepted isClosing with ⟨rfl, closingKind⟩
      rcases inner accepted with ⟨signature, rfl, derived⟩
      exact ⟨t :: signature ++ [closing], by simp, .array isOpening derived closingKind⟩
    · next isOpening =>
      rcases Outcome.andThen_eq_accepted_iff.mp h with ⟨value, left, accepted, h⟩
      rcases Outcome.map_eq_accepted_iff.mp h with ⟨closing, isClosing, rfl⟩
      rcases expect_accepted isClosing with ⟨rfl, closingKind⟩
      rcases inner accepted with ⟨signature, rfl, derived⟩
      exact ⟨t :: signature ++ [closing], by simp, .map isOpening derived closingKind⟩
    · next identifier =>
      rcases readNamed_sound identifier h with ⟨atom, rfl, derived⟩
      exact ⟨t :: atom, rfl, derived⟩
    · cases h

/-- What the reader of type expressions consumes derives what it returns. -/
theorem readType_sound {tokens rest : List Token} {e : TypeExpr}
    (h : readType m tokens = .accepted e rest) :
    ∃ signature, tokens = signature ++ rest ∧ DerivesType m .signature signature e.unlocated := by
  rcases Outcome.andThen_eq_accepted_iff.mp h with ⟨a, mid, atomAccepted, markAccepted⟩
  rcases readAtom_sound atomAccepted with ⟨atom, rfl, derived⟩
  rcases readOptionalMark_sound derived markAccepted with ⟨mark, rfl, signature⟩
  exact ⟨atom ++ mark, by rw [List.append_assoc], signature⟩

/-! ### What is derivable is read -/

/-- Tokens that do not continue a type expression: no dot lengthens its path, no parenthesis turns it into
a fixed type and no question mark makes it optional. -/
structure EndsType (rest : List Token) : Prop where
  dot : startsWith .dot rest = false
  paren : startsWith .parenOpen rest = false
  question : startsWith .question rest = false

/-- Nothing continues a type expression at the end of the input. -/
theorem EndsType.nil : EndsType [] := ⟨rfl, rfl, rfl⟩

/-- A token of another kind does not continue a type expression. -/
theorem EndsType.cons {t : Token} {kind : TokenKind} (h : t.kind = kind) (dot : kind ≠ .dot)
    (paren : kind ≠ .parenOpen) (question : kind ≠ .question) (rest : List Token) :
    EndsType (t :: rest) := by
  subst h
  exact ⟨by simpa using dot, by simpa using paren, by simpa using question⟩

/-- The tokens of a path are read as a reference, unless a dot or a parenthesis follows. -/
theorem DerivesPath.accepted {tokens : List Token} {first : Text} {others : List Text}
    (path : DerivesPath tokens (first :: others)) (free : isReservedWord m.language first = false)
    {rest : List Token} (dot : startsWith .dot rest = false) (paren : startsWith .parenOpen rest = false) :
    ∃ e', readAtom m (tokens ++ rest) = .accepted e' rest ∧
      e'.unlocated = .reference {} (.ofPath m.moduleName first others) := by
  rcases readPathTail_complete path dot with ⟨t, tail, parts, rfl, same, identifier, accepted⟩
  rcases List.cons.inj same with ⟨rfl, rfl⟩
  rcases isReservedWord_eq_false_iff.mp free with ⟨none, unfixed⟩
  refine ⟨.reference t.location (.ofPath m.moduleName t.text others), ?_, rfl⟩
  have read : readReference m t (tail ++ rest) =
      .accepted (.reference t.location (.ofPath m.moduleName t.text others)) rest := by
    simp [readReference, accepted]
  by_cases keyword : t.text = Feature.fixed.keyword
  · have disabled : Feature.fixed.enabledAt m.language = false := by
      simpa [keyword] using unfixed
    -- Below the first version with fixed types only a parenthesis behind the keyword is refused.
    have unsized : sizeFollows t (tail ++ rest) = false := by
      cases path with
      | single => cases rest with
        | nil => rfl
        | cons next _ =>
          simp only [startsWith_cons, decide_eq_false_iff_not] at paren
          simp [sizeFollows, paren]
      | cons _ isDot => simp [sizeFollows, isDot]
    simp [readAtom, identifier, readNamed, keyword, disabled, unsized, read]
  · simp [readAtom, identifier, readNamed, keyword, none, read]

/-- The tokens of a derivable atom are read as the atom, unless a dot or a parenthesis follows; those of a
signature, unless a question mark follows either. -/
theorem DerivesType.accepted {level : TypeLevel} {tokens : List Token} {e : TypeExpr}
    (h : DerivesType m level tokens e) (rest : List Token) (dot : startsWith .dot rest = false)
    (paren : startsWith .parenOpen rest = false) :
    match level with
    | .atom => ∃ e', readAtom m (tokens ++ rest) = .accepted e' rest ∧ e'.unlocated = e
    | .signature => startsWith .question rest = false →
        ∃ e', readType m (tokens ++ rest) = .accepted e' rest ∧ e'.unlocated = e := by
  induction h generalizing rest with
  | @primitive t kind identifier keyword =>
    have other : t.text ≠ Feature.fixed.keyword := by
      intro same
      rw [same, ofKeyword?_fixed] at keyword
      cases keyword
    exact ⟨.primitive t.location kind, by simp [readAtom, identifier, readNamed, other, keyword], rfl⟩
  | @fixed t opening size closing n identifier keyword enabled isOpening touches isSize value isClosing =>
    refine ⟨.fixed t.location n.toUInt64, ?_, rfl⟩
    simp [readAtom, identifier, readNamed, keyword, enabled, sizeFollows, isOpening, touches, readSize,
      expect_cons isSize, value, expect_cons isClosing]
  | @array opening closing tokens e isOpening element isClosing ih =>
    obtain ⟨e', accepted, same⟩ := ih (closing :: rest) (by simp [isClosing]) (by simp [isClosing])
      (by simp [isClosing])
    refine ⟨.array opening.location e', ?_, by rw [TypeExpr.unlocated, same]⟩
    have inner : (readAtom m (tokens ++ closing :: rest)).andThen readOptionalMark =
        .accepted e' (closing :: rest) := accepted
    simp [readAtom, isOpening, inner, expect_cons isClosing]
  | @map opening closing tokens e isOpening value isClosing ih =>
    obtain ⟨e', accepted, same⟩ := ih (closing :: rest) (by simp [isClosing]) (by simp [isClosing])
      (by simp [isClosing])
    refine ⟨.map opening.location e', ?_, by rw [TypeExpr.unlocated, same]⟩
    have inner : (readAtom m (tokens ++ closing :: rest)).andThen readOptionalMark =
        .accepted e' (closing :: rest) := accepted
    simp [readAtom, isOpening, inner, expect_cons isClosing]
  | reference path free => exact path.accepted free dot paren
  | plain atom ih =>
    intro question
    rcases ih rest dot paren with ⟨e', accepted, same⟩
    refine ⟨e', ?_, same⟩
    rw [readType, accepted, Outcome.andThen_accepted]
    cases rest with
    | nil => rfl
    | cons next _ =>
      simp only [startsWith_cons, decide_eq_false_iff_not] at question
      simp [readOptionalMark, question]
  | @optional tokens mark e atom isMark ih =>
    intro _
    rcases ih (mark :: rest) (by simp [isMark]) (by simp [isMark]) with ⟨e', accepted, same⟩
    refine ⟨.optional e'.location e', ?_, by rw [TypeExpr.unlocated, same]⟩
    rw [readType, List.append_assoc, List.singleton_append, accepted, Outcome.andThen_accepted]
    simp [readOptionalMark, isMark]

/-- Derivable tokens are read, whatever follows that cannot continue a type. -/
theorem readType_complete {tokens rest : List Token} {e : TypeExpr}
    (h : DerivesType m .signature tokens e) (ends : EndsType rest) :
    ∃ e', readType m (tokens ++ rest) = .accepted e' rest ∧ e'.unlocated = e :=
  h.accepted rest ends.dot ends.paren ends.question

/-! ### Whole type expressions -/

/-- Finishing accepts nothing but the end of the input. -/
theorem finish_eq_accepted_iff {α : Type} {a b : α} {tokens rest : List Token} :
    finish a tokens = .accepted b rest ↔ tokens = [] ∧ a = b ∧ rest = [] := by
  unfold finish
  split
  · next isEmpty =>
    have empty := List.isEmpty_iff.mp isEmpty
    simp [empty, eq_comm]
  · next nonempty =>
    have some : tokens ≠ [] := fun h => nonempty (List.isEmpty_iff.mpr h)
    split <;> simp [some, reject]

/-- A token list is read as a whole type expression exactly when it derives one. -/
theorem readLoneType_iff {tokens : List Token} {e : TypeExpr} :
    (∃ e', readLoneType m tokens = .accepted e' [] ∧ e'.unlocated = e) ↔
      DerivesType m .signature tokens e := by
  constructor
  · rintro ⟨e', accepted, rfl⟩
    rcases Outcome.andThen_eq_accepted_iff.mp accepted with ⟨a, mid, typeAccepted, finished⟩
    rcases finish_eq_accepted_iff.mp finished with ⟨rfl, rfl, -⟩
    rcases readType_sound typeAccepted with ⟨signature, rfl, derived⟩
    simpa using derived
  · intro derived
    rcases readType_complete derived EndsType.nil with ⟨e', accepted, same⟩
    rw [List.append_nil] at accepted
    exact ⟨e', by rw [readLoneType, accepted, Outcome.andThen_accepted]; rfl, same⟩

end ThetaSchema
