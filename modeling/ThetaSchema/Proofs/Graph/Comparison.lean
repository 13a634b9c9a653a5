import ThetaSchema.Proofs.Graph.ViolationOrder

/-!
# How violations compare

Reports compare violations by their messages, while two violations are equal when their rules and names are.
The order is a strict order, and exactly one of "before", "of the same rank" and "behind" holds of any two
violations.  It is a total order of those violations whose messages can be read back: no local name has a dot
in it, and no name that more of the message comes after has a quote in it.  Other names can make two different
violations that are ranked alike.

Main definitions:

- `ExactlyOne`: one of three statements holds, and the other two do not.
- `BrokenRule.Legible`: the names of a rule can be read off its message.

Main results:

- `BrokenRule.Legible.eq`: a message determines a legible rule.
- `Violation.compares`: which of two violations goes before the other, and when there is no answer.
- `Violation.compares_dotted`: two different violations of which neither goes before the other.
-/

namespace ThetaSchema

/-- One of three statements holds, and the other two do not. -/
def ExactlyOne (p q r : Prop) : Prop :=
  p ∧ ¬ q ∧ ¬ r ∨ ¬ p ∧ q ∧ ¬ r ∨ ¬ p ∧ ¬ q ∧ r

/-! ## Messages that can be read back -/

namespace QualifiedName

/-- A name that ends at the next quote of a text and is split at its last dot. -/
structure Quotable (n : QualifiedName) : Prop where
  undotted : Byte.dot ∉ n.localName
  unquoted : (39 : UInt8) ∉ n.render

/-- What stands in front of the first quote is the name. -/
theorem Quotable.ends {n n' : QualifiedName} {k k' : Text} (h : n.Quotable) (h' : n'.Quotable)
    (same : Text.quoted n.render ++ k = Text.quoted n'.render ++ k') : n = n' ∧ k = k' := by
  simp only [Text.quoted, List.append_assoc, List.append_cancel_left_eq] at same
  rcases split_first h.unquoted h'.unquoted same with ⟨written, rest⟩
  exact ⟨eq_of_render_eq h.undotted h'.undotted written, rest⟩

end QualifiedName

namespace BrokenRule

/-- The names of a rule can be read off its message: local names have no dot, and a name that more of the
message comes after has no quote. -/
def Legible (r : BrokenRule) : Prop :=
  r.NamesAre QualifiedName.Quotable fun n => Byte.dot ∉ n.localName

/-- Legible rules of one rank with one message are the same rule. -/
theorem Legible.eq {r s : BrokenRule} (hr : r.Legible) (hs : s.Legible) (rank : r.rank = s.rank)
    (same : r.message = s.message) : r = s :=
  message_determines QualifiedName.Quotable.ends QualifiedName.eq_of_render_eq hr hs rank same

end BrokenRule

/-! ## Rank -/

namespace Violation

variable {a b : Violation}

theorem SameRank.refl (a : Violation) : a.SameRank a :=
  ⟨rfl, rfl, rfl, rfl⟩

theorem SameRank.not_lt (h : a.SameRank b) : ¬ a < b :=
  fun before => lt_irrefl b (h.symm.lt_of_lt before)

/-- Violations of the same rank are equal if their messages can be read back. -/
theorem SameRank.eq_of_legible (h : a.SameRank b) (ha : a.rule.Legible) (hb : b.rule.Legible) : a = b := by
  have rule := ha.eq hb h.rank h.message
  rcases a with ⟨moduleName, file, r⟩
  rcases b with ⟨moduleName', file', r'⟩
  rw [Violation.mk.injEq]
  exact ⟨h.moduleName, h.file, rule⟩

/-- Of two violations one goes before the other, or they have the same rank. -/
theorem exactlyOne_sameRank (a b : Violation) : ExactlyOne (a < b) (a.SameRank b) (b < a) := by
  rcases trichotomy a b with less | same | greater
  · exact .inl ⟨less, fun same => same.not_lt less, not_lt_of_lt less⟩
  · exact .inr (.inl ⟨same.not_lt, same, same.symm.not_lt⟩)
  · exact .inr (.inr ⟨not_lt_of_lt greater, fun same => same.symm.not_lt greater, greater⟩)

/-- Two violations are in order or equal exactly when they are not different ones of the same rank. -/
theorem exactlyOne_eq_iff (a b : Violation) :
    ExactlyOne (a < b) (a = b) (b < a) ↔ (a.SameRank b → a = b) := by
  constructor
  · rintro (⟨less, -, -⟩ | ⟨-, equal, -⟩ | ⟨-, -, greater⟩) same
    · exact absurd less same.not_lt
    · exact equal
    · exact absurd greater same.symm.not_lt
  · intro told
    have rank : a = b ↔ a.SameRank b := ⟨fun equal => equal ▸ .refl a, told⟩
    rw [rank]
    exact exactlyOne_sameRank a b

/-- Sorting leaves violations where they are when none goes before one in front of it. -/
theorem sorted_eq_self {vs : List Violation} (h : vs.Pairwise fun a b => ¬ b < a) : sorted vs = vs := by
  refine List.mergeSort_of_pairwise (h.imp ?_)
  intro a b notBefore
  rw [Bool.not_eq_true', decide_eq_false_iff_not]
  exact notBefore

/-- Violations are strictly ordered, and of any two of them one goes before the other or they have the same
rank.  So exactly one of "before", "equal" and "behind" holds unless they are different violations of the same
rank, which they never are if their messages can be read back. -/
theorem compares (a b c : Violation) :
    ¬ a < a ∧ (a < b → b < c → a < c) ∧ ExactlyOne (a < b) (a.SameRank b) (b < a) ∧
      (ExactlyOne (a < b) (a = b) (b < a) ↔ (a.SameRank b → a = b)) ∧
      (a.rule.Legible → b.rule.Legible → ExactlyOne (a < b) (a = b) (b < a)) := by
  refine ⟨lt_irrefl a, lt_trans, exactlyOne_sameRank a b, exactlyOne_eq_iff a b, ?_⟩
  intro ha hb
  exact (exactlyOne_eq_iff a b).mpr fun same => same.eq_of_legible ha hb

/-- Three violations in ascending order: a quote in a field, and dots in the names of modules, do no harm. -/
theorem compares_fields :
    let a : Violation := ⟨"m", "m.theta", .duplicateRecordField ⟨"a.b", "R"⟩ "it's"⟩
    let b : Violation := ⟨"m", "m.theta", .duplicateRecordField ⟨"a.b", "R"⟩ "its"⟩
    let c : Violation := ⟨"m", "m.theta", .undefinedType ⟨"a.b", "R"⟩⟩
    a < c ∧ ExactlyOne (a < b) (a = b) (b < a) := by
  intro a b c
  have ha : a.rule.Legible := ⟨by decide, by decide⟩
  have hb : b.rule.Legible := ⟨by decide, by decide⟩
  obtain ⟨-, trans, -, -, total⟩ := compares a b c
  exact ⟨trans (by decide) (by decide), total ha hb⟩

/-- A local name with a dot: the type `b.c` of the module `a` and the type `c` of the module `a.b` have the
same message, so neither violation goes before the other, and sorting leaves them where they are. -/
theorem compares_dotted :
    let a : Violation := ⟨"m", "m.theta", .undefinedType ⟨"a", "b.c"⟩⟩
    let b : Violation := ⟨"m", "m.theta", .undefinedType ⟨"a.b", "c"⟩⟩
    ¬ ExactlyOne (a < b) (a = b) (b < a) ∧ sorted [a, b, a] = [a, b, a] := by
  intro a b
  have same : a.SameRank b := ⟨by decide, by decide, by decide, by decide⟩
  refine ⟨fun one => ?_, sorted_eq_self (by decide)⟩
  have equal := (exactlyOne_eq_iff a b).mp one same
  revert equal
  decide

end Violation
end ThetaSchema
