import ThetaSchema.Proofs.Grammar.Parsed
import ThetaSchema.Proofs.Printing.Spells

/-!
# Written types are derivable

The compact form of a type expression spells the type expression, as long as no word goes on behind it.
References are written with the name of their module, so that name has to be a path that starts with a
free identifier.

Main definitions:

- `Metadata.Nameable`: the name of the module can stand in front of a local name.

Main results:

- `Spells.dotted`: a dotted name spells the path of its components.
- `TypeExpr.Fits.spells`: the compact form of a type spells the type.
-/

namespace ThetaSchema

variable {file k : Text} {m : Metadata}

/-! ## Paths -/

/-- Identifiers with dots between them are scanned as a path that starts at the first of them. -/
theorem Scans.dotted (w : Text) (others : List Text)
    (identifiers : ∀ u ∈ w :: others, isIdentifier u = true) (ends : EndsWord k) (p : Position) :
    ∃ ts, Scans file p (dotted (w :: others)) k (Token.place file p .identifier w :: ts) ∧
      DerivesPath (Token.place file p .identifier w :: ts) (w :: others) := by
  induction others generalizing w p with
  | nil =>
    rw [dotted_singleton]
    exact ⟨[], Scans.identifier (identifiers w List.mem_cons_self) ends, .single rfl⟩
  | cons u others ih =>
    rcases ih u (fun v mem => identifiers v (List.mem_cons_of_mem w mem))
      ((p.advance w).advance [Byte.dot]) with ⟨ts, scanned, derived⟩
    rw [dotted_cons w (List.cons_ne_nil u others)]
    have dot : IsMark Byte.dot .dot := by decide
    rcases dot with ⟨blank, slash, dash, start, digit, isDot⟩
    have first : Scans file p w (Byte.dot :: ThetaSchema.dotted (u :: others) ++ k)
        [Token.place file p .identifier w] :=
      Scans.identifier (identifiers w List.mem_cons_self) (EndsWord.cons (by decide) _)
    have second : Scans file (p.advance w) [Byte.dot] (ThetaSchema.dotted (u :: others) ++ k)
        [Token.place file (p.advance w) (Lexeme.punctuation Byte.dot) [Byte.dot]] :=
      Scans.punctuation blank slash dash start digit
    refine ⟨_, first.append (second.append scanned), ?_⟩
    exact .cons rfl isDot (Token.adjacentTo_place _ _ _ _ _ _) (Token.adjacentTo_place _ _ _ _ _ _) derived

/-- A dotted name spells the path of its components. -/
theorem Spells.dotted {parts : List Text} (nonempty : parts ≠ [])
    (identifiers : ∀ w ∈ parts, isIdentifier w = true) (ends : EndsWord k) :
    Spells file (dotted parts) k (DerivesPath · parts) := by
  cases parts with
  | nil => exact absurd rfl nonempty
  | cons w others =>
    intro p
    rcases Scans.dotted w others identifiers ends p with ⟨ts, scanned, derived⟩
    exact ⟨_, scanned, derived⟩

/-! ## References -/

/-- Metadata of a module whose name can stand in front of a local name. -/
structure Metadata.Nameable (m : Metadata) : Prop where
  moduleName : isModuleName m.moduleName = true
  free : ∀ c ∈ (nameComponents m.moduleName).head?, isReservedWord m.language c = false

/-- A name that a path denotes is written as a path that denotes it. -/
theorem QualifiedName.ReferredIn.path {n : QualifiedName} (h : n.ReferredIn m) (nameable : m.Nameable) :
    ∃ first others, (∀ w ∈ first :: others, isIdentifier w = true) ∧
      isReservedWord m.language first = false ∧ n = .ofPath m.moduleName first others ∧
        n.render = dotted (first :: others) := by
  rcases h with ⟨first, others, identifiers, free, rfl⟩
  have point : ("." : Text) = [Byte.dot] := by decide
  by_cases single : others = []
  · subst single
    have modules := nameable.moduleName
    rw [isModuleName, List.all_eq_true] at modules
    have whole := dotted_nameComponents m.moduleName
    have front := nameable.free
    cases split : nameComponents m.moduleName with
    | nil => exact absurd split (List.splitOn_ne_nil _ _)
    | cons c cs =>
      rw [split] at modules whole front
      refine ⟨c, cs ++ [first], ?_, front c rfl, ?_, ?_⟩
      · intro w mem
        rw [← List.cons_append, List.mem_append] at mem
        rcases mem with inside | last
        · exact modules w inside
        · exact identifiers w last
      · rw [ofPath_append_singleton, whole]
        rfl
      · rw [← List.cons_append, dotted_append_singleton (List.cons_ne_nil c cs), whole,
          QualifiedName.render, point, List.append_assoc]
        rfl
  · refine ⟨first, others, identifiers, free, rfl, ?_⟩
    rcases List.eq_nil_or_concat others with none | ⟨inner, last, rfl⟩
    · exact absurd none single
    · rw [List.concat_eq_append, ofPath_append_singleton, ← List.cons_append,
        dotted_append_singleton (List.cons_ne_nil first inner), QualifiedName.render, point,
        List.append_assoc]
      rfl

/-! ## Types -/

theorem Primitive.isIdentifier_keyword (kind : Primitive) : isIdentifier kind.keyword = true := by
  cases kind <;> decide

/-- A fixed type is scanned as its keyword and a size between parentheses. -/
theorem Spells.fixed (location : Location) (size : UInt64)
    (enabled : Feature.fixed.enabledAt m.language = true) :
    Spells file (TypeExpr.fixed location size).render k (DerivesType m .atom · (.fixed {} size)) := by
  have opening : IsMark 40 .parenOpen := by decide
  have closing : IsMark 41 .parenClose := by decide
  rcases opening with ⟨blank, slash, dash, start, digit, isOpening⟩
  rcases closing with ⟨blank', slash', dash', start', digit', isClosing⟩
  intro p
  have written : (TypeExpr.fixed location size).render =
      Feature.fixed.keyword ++ ([40] ++ (Decimal.render size.toNat ++ [41])) := by
    simp only [TypeExpr.render, List.append_assoc]
    rfl
  rw [written]
  have keyword : Scans file p Feature.fixed.keyword ([40] ++ (Decimal.render size.toNat ++ [41]) ++ k)
      [Token.place file p .identifier Feature.fixed.keyword] :=
    Scans.identifier (by decide) (EndsWord.cons (by decide) _)
  have number : Scans file ((p.advance Feature.fixed.keyword).advance [40]) (Decimal.render size.toNat)
      ([41] ++ k) [Token.place file _ .integer (Decimal.render size.toNat)] :=
    Scans.integer size.toNat (EndsNumber.cons (by decide) (by decide) _)
  refine ⟨_, keyword.append ((Scans.punctuation blank slash dash start digit).append
    (number.append (Scans.punctuation blank' slash' dash' start' digit'))), ?_⟩
  have value : Decimal.read? UInt64.size (Decimal.render size.toNat) = some size.toNat :=
    Decimal.read?_eq_some_iff.mpr ⟨Decimal.render_ne_nil _, Decimal.all_isDigit_render _,
      Decimal.spelled_render _, UInt64.toNat_lt_size size⟩
  have size' : TypeExpr.fixed {} size = .fixed {} size.toNat.toUInt64 := by
    rw [Nat.toUInt64_eq, UInt64.ofNat_toNat]
  rw [size']
  exact .fixed rfl rfl enabled isOpening (Token.adjacentTo_place _ _ _ _ _ _) rfl value isClosing

/-- What stands between two marks is spelled between their tokens. -/
theorem Spells.between {opening closing : UInt8} {openingKind closingKind : TokenKind} {t : Text}
    {P : List Token → Prop} (isOpening : IsMark opening openingKind) (isClosing : IsMark closing closingKind)
    (inner : Spells file t ([closing] ++ k) P) :
    Spells file ([opening] ++ t ++ [closing]) k fun ts =>
      ∃ u us v, ts = u :: us ++ [v] ∧ u.kind = openingKind ∧ P us ∧ v.kind = closingKind := by
  refine ((Spells.mark_cons isOpening inner).append (Spells.mark isClosing)).imp ?_
  rintro _ ⟨_, _, rfl, ⟨u, us, rfl, kind, property⟩, v, rfl, kind'⟩
  exact ⟨u, us, v, rfl, kind, property, kind'⟩

/-- An atom stands at every level. -/
theorem DerivesType.ofAtom {tokens : List Token} {e : TypeExpr} (h : DerivesType m .atom tokens e)
    (level : TypeLevel) : DerivesType m level tokens e := by
  cases level with
  | atom => exact h
  | signature => exact h.plain

/-- The compact form of a type spells the type. -/
theorem TypeExpr.spells (nameable : m.Nameable) (e : TypeExpr) : ∀ {level : TypeLevel} {k : Text},
    e.Fits m level → EndsWord k → Spells file e.render k (DerivesType m level · e.unlocated) := by
  intro level k h ends
  cases e with
  | absent | record | variant | enumeration | newtype => cases h
  | primitive location kind =>
    have enabled : kind.enabledAt m.language = true := by cases level <;> exact h
    refine (Spells.word kind.isIdentifier_keyword ends).imp ?_
    rintro _ ⟨t, rfl, identifier, text⟩
    refine DerivesType.ofAtom (.primitive identifier ?_) level
    rw [text, Primitive.ofKeyword?_keyword enabled]
  | fixed location size =>
    have enabled : Feature.fixed.enabledAt m.language = true := by cases level <;> exact h
    exact (Spells.fixed location size enabled).imp fun ts derived => derived.ofAtom level
  | array location element =>
    have fits : element.Fits m .signature := by cases level <;> exact h
    have ends' : EndsWord ([93] ++ k) := EndsWord.cons (by decide) k
    have inner := TypeExpr.spells nameable element fits ends'
    have isOpening : IsMark 91 .bracketOpen := by decide
    have isClosing : IsMark 93 .bracketClose := by decide
    refine (Spells.between isOpening isClosing inner).imp ?_
    rintro _ ⟨u, us, v, rfl, opening, derived, closing⟩
    exact DerivesType.ofAtom (.array opening derived closing) level
  | map location value =>
    have fits : value.Fits m .signature := by cases level <;> exact h
    have ends' : EndsWord ([125] ++ k) := EndsWord.cons (by decide) k
    have inner := TypeExpr.spells nameable value fits ends'
    have isOpening : IsMark 123 .braceOpen := by decide
    have isClosing : IsMark 125 .braceClose := by decide
    refine (Spells.between isOpening isClosing inner).imp ?_
    rintro _ ⟨u, us, v, rfl, opening, derived, closing⟩
    exact DerivesType.ofAtom (.map opening derived closing) level
  | optional location element =>
    cases level with
    | atom => cases h
    | signature =>
      have ends' : EndsWord ([63] ++ k) := EndsWord.cons (by decide) k
      have inner := TypeExpr.spells nameable element (show element.Fits m .atom from h) ends'
      have isQuestion : IsMark 63 .question := by decide
      refine (inner.append (Spells.mark isQuestion)).imp ?_
      rintro _ ⟨us, _, rfl, derived, v, rfl, isMark⟩
      exact .optional derived isMark
  | reference location name =>
    have referred : name.ReferredIn m := by cases level <;> exact h
    rcases referred.path nameable with ⟨first, others, identifiers, free, same, written⟩
    rw [TypeExpr.render, written, TypeExpr.unlocated, same]
    refine (Spells.dotted (List.cons_ne_nil first others) identifiers ends).imp ?_
    intro ts path
    exact DerivesType.ofAtom (.reference path free) level

/-- A written type is accepted as a whole type expression. -/
theorem TypeExpr.Fits.spells_signature {e : TypeExpr} (h : e.Fits m .signature) (nameable : m.Nameable)
    (ends : EndsWord k) : Spells file e.render k (DerivesSignature m · e.unlocated) :=
  (e.spells nameable h ends).imp fun _ derived => readLoneType_iff.mpr derived

end ThetaSchema
