import ThetaSchema.Text.Basic

/-!
# Decimal numerals

Numbers are written without leading zeros and read with any number of them.

Main results:

- `Decimal.spelled_render`: what was written spells the number.
- `Decimal.read?_eq_some_iff`: a bounded numeral is read exactly when it consists of digits and its value
  is below the bound.
-/

namespace ThetaSchema
namespace Decimal

/-- The byte of a digit. -/
def digit (n : Nat) : UInt8 :=
  (48 + n).toUInt8

/-- The decimal numeral of a number, without leading zeros. -/
def render (n : Nat) : Text :=
  if n < 10 then [digit n] else render (n / 10) ++ [digit (n % 10)]

/-- The number that a run of digits spells, leading zeros included. -/
def spelled (t : Text) : Nat :=
  t.foldl (fun value b => value * 10 + (b.toNat - 48)) 0

/-- The value of a numeral: none for the empty text and for a text with a byte that is no digit. -/
def value? (t : Text) : Option Nat :=
  if t ≠ [] ∧ t.all Byte.isDigit then some (spelled t) else none

/-- The value of a numeral that has to stay below a bound. -/
def read? (bound : Nat) (t : Text) : Option Nat :=
  (value? t).filter (· < bound)

/-! ## Reading what was written -/

/-- The byte of a digit is one. -/
theorem isDigit_digit {n : Nat} (h : n < 10) : Byte.isDigit (digit n) = true := by
  have : ∀ k : Fin 10, Byte.isDigit (digit k.val) = true := by decide
  exact this ⟨n, h⟩

/-- The digits are consecutive bytes, from the one of zero on. -/
theorem toNat_digit {n : Nat} (h : n < 10) : (digit n).toNat = 48 + n := by
  have : ∀ k : Fin 10, (digit k.val).toNat = 48 + k.val := by decide
  exact this ⟨n, h⟩

/-- One more digit moves the other ones up by one place. -/
theorem spelled_append_digit (t : Text) (b : UInt8) :
    spelled (t ++ [b]) = spelled t * 10 + (b.toNat - 48) := by
  simp [spelled]

/-- Every number is written with a digit at least. -/
theorem render_ne_nil (n : Nat) : render n ≠ [] := by
  unfold render
  split <;> simp

/-- Numbers are written with nothing but digits. -/
theorem all_isDigit_render (n : Nat) : (render n).all Byte.isDigit = true := by
  induction n using Nat.strongRecOn with
  | _ n ih =>
    unfold render
    split
    · next h => simp [isDigit_digit h]
    · next h =>
      have low : n % 10 < 10 := Nat.mod_lt _ (by decide)
      simp only [List.all_append, ih (n / 10) (by omega), List.all_cons, List.all_nil,
        isDigit_digit low, Bool.and_self]

/-- What was written spells the number. -/
theorem spelled_render (n : Nat) : spelled (render n) = n := by
  induction n using Nat.strongRecOn with
  | _ n ih =>
    unfold render
    split
    · next h => simp [spelled, toNat_digit h]
    · next h =>
      have low : n % 10 < 10 := Nat.mod_lt _ (by decide)
      rw [spelled_append_digit, ih (n / 10) (by omega), toNat_digit low]
      omega

/-- A bounded numeral is read exactly when it consists of digits and its value is below the bound. -/
theorem read?_eq_some_iff {bound n : Nat} {t : Text} :
    read? bound t = some n ↔
      t ≠ [] ∧ t.all Byte.isDigit = true ∧ spelled t = n ∧ n < bound := by
  unfold read? value?
  split
  · next h =>
    simp only [Option.filter_eq_some_iff, Option.some.injEq, decide_eq_true_eq]
    constructor
    · rintro ⟨rfl, below⟩
      exact ⟨h.1, h.2, rfl, below⟩
    · rintro ⟨-, -, rfl, below⟩
      exact ⟨rfl, below⟩
  · next h =>
    constructor
    · simp
    · rintro ⟨nonempty, digits, -, -⟩
      exact absurd ⟨nonempty, digits⟩ h

end Decimal
end ThetaSchema
