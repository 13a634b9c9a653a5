import Mathlib.Data.List.Induction
import ThetaSchema.Proofs.Token.Words

/-!
# Numerals

The numerals of a number are built from the left, digit by digit, and zeros may stand in front.  Reading a run
of digits gives the number that it denotes, and writing that number gives the run without these zeros.

Main definitions:

- `Decimal.Denotes`: the numerals of a number.
- `Decimal.stripped`: a run of digits without the zeros in front.

Main results:

- `Decimal.denotes_iff`: the numerals of a number are the runs of digits that spell it.
- `Decimal.read?_eq_some_iff_denotes`: what is read as a number below a bound.
- `Decimal.stripped_eq_render`: what is written for a number that was read.
-/

namespace ThetaSchema
namespace Decimal

/-! ## Numerals of a number -/

/-- The numerals of a number: a single digit, or a numeral of the tens with one digit behind it.  Zeros may
stand in front. -/
inductive Denotes : Text → Nat → Prop where
  | digit {d : Nat} (below : d < 10) : Denotes [Decimal.digit d] d
  | more {t : Text} {n d : Nat} (tens : Denotes t n) (below : d < 10) :
      Denotes (t ++ [Decimal.digit d]) (10 * n + d)

/-- The digits are the bytes of the numbers below ten. -/
theorem digit_of_isDigit :
    ∀ b, Byte.isDigit b = true → b.toNat - 48 < 10 ∧ digit (b.toNat - 48) = b :=
  Byte.forall_of_forall_fin (by decide +kernel)

/-- A text that denotes a number consists of digits that spell it. -/
theorem Denotes.digits {t : Text} {n : Nat} (h : Denotes t n) :
    t ≠ [] ∧ t.all Byte.isDigit = true ∧ spelled t = n := by
  induction h with
  | @digit d below =>
    refine ⟨List.cons_ne_nil _ _, by simp [isDigit_digit below], ?_⟩
    simp [spelled, toNat_digit below]
  | @more t n d _ below ih =>
    rcases ih with ⟨-, digits, value⟩
    refine ⟨List.concat_ne_nil _ _, by simp [digits, isDigit_digit below], ?_⟩
    rw [spelled_append_digit, value, toNat_digit below]
    omega

/-- Digits denote the number that they spell. -/
theorem denotes_spelled {t : Text} (nonempty : t ≠ []) (digits : t.all Byte.isDigit = true) :
    Denotes t (spelled t) := by
  induction t using List.reverseRecOn with
  | nil => exact absurd rfl nonempty
  | append_singleton t b ih =>
    rw [List.all_append, Bool.and_eq_true] at digits
    have last : Byte.isDigit b = true := by simpa using digits.2
    rcases digit_of_isDigit b last with ⟨below, same⟩
    rw [spelled_append_digit, Nat.mul_comm, ← same, toNat_digit below, Nat.add_sub_cancel_left]
    by_cases single : t = []
    · subst single
      simpa [spelled] using Denotes.digit below
    · exact .more (ih single digits.1) below

/-- The numerals of a number are the nonempty runs of digits that spell it. -/
theorem denotes_iff {t : Text} {n : Nat} :
    Denotes t n ↔ t ≠ [] ∧ t.all Byte.isDigit = true ∧ spelled t = n := by
  constructor
  · exact Denotes.digits
  · rintro ⟨nonempty, digits, rfl⟩
    exact denotes_spelled nonempty digits

/-- What is written for a number is a numeral of it. -/
theorem denotes_render (n : Nat) : Denotes (render n) n :=
  denotes_iff.mpr ⟨render_ne_nil n, all_isDigit_render n, spelled_render n⟩

/-- A bounded numeral is read exactly when it denotes a number below the bound. -/
theorem read?_eq_some_iff_denotes {bound n : Nat} {t : Text} :
    read? bound t = some n ↔ Denotes t n ∧ n < bound := by
  rw [read?_eq_some_iff, denotes_iff, and_assoc, and_assoc]

/-! ## Zeros in front -/

/-- The byte of the digit zero. -/
abbrev zero : UInt8 := 48

/-- A run of digits without the zeros in front; of a run of zeros one is left. -/
def stripped (t : Text) : Text :=
  if t.dropWhile (· == zero) = [] then [zero] else t.dropWhile (· == zero)

/-- Only zero is written with the digit of zero. -/
theorem digit_eq_zero_iff {d : Nat} (below : d < 10) : digit d = zero ↔ d = 0 := by
  have : ∀ k : Fin 10, digit k.val = zero ↔ k.val = 0 := by decide
  exact this ⟨d, below⟩

/-- A single digit is left unless it is a zero. -/
theorem dropWhile_zero_digit {d : Nat} (below : d < 10) :
    [digit d].dropWhile (· == zero) = if d = 0 then [] else render d := by
  have written : render d = [digit d] := by rw [render, if_pos below]
  simp only [List.dropWhile_cons, List.dropWhile_nil, beq_iff_eq, digit_eq_zero_iff below, written]

/-- What stands behind the zeros in front of a numeral is the written form of its number; only a numeral of
zero has nothing there. -/
theorem dropWhile_zero_of_denotes {t : Text} {n : Nat} (h : Denotes t n) :
    t.dropWhile (· == zero) = if n = 0 then [] else render n := by
  induction h with
  | digit below => exact dropWhile_zero_digit below
  | @more t n d tens below ih =>
    rw [List.dropWhile_append, ih]
    by_cases none : n = 0
    · -- the numeral of the tens consists of zeros, so the last digit decides
      simp [none, dropWhile_zero_digit below]
    · have large : ¬ 10 * n + d < 10 := by omega
      have quotient : (10 * n + d) / 10 = n := by omega
      have remainder : (10 * n + d) % 10 = d := by omega
      have positive : ¬ 10 * n + d = 0 := by omega
      have written : render (10 * n + d) = render n ++ [digit d] := by
        rw [render, if_neg large, quotient, remainder]
      rw [if_neg none, if_neg positive, if_neg (by simp [render_ne_nil]), written]

/-- A number is written as any of its numerals without the zeros in front. -/
theorem stripped_eq_render {t : Text} {n : Nat} (h : Denotes t n) : stripped t = render n := by
  rw [stripped, dropWhile_zero_of_denotes h]
  by_cases none : n = 0
  · simp [none, render, digit]
  · simp [none, render_ne_nil]

/-- A numeral has no dot. -/
theorem Denotes.dot_not_mem {t : Text} {n : Nat} (h : Denotes t n) : Byte.dot ∉ t := by
  intro mem
  have digit : Byte.isDigit Byte.dot = true := List.all_eq_true.mp h.digits.2.1 _ mem
  exact absurd digit (by decide)

end Decimal
end ThetaSchema
