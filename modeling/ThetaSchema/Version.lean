import ThetaSchema.Text.Decimal

/-!
# Versions

A version is a triple of 32-bit numbers, written `major.minor.patch` and ordered lexicographically.
-/

namespace ThetaSchema

/-- A version `major.minor.patch`. -/
structure Version where
  major : UInt32
  minor : UInt32
  patch : UInt32
  deriving DecidableEq, Repr

namespace Version

/-- The written form of a version. -/
def render (v : Version) : Text :=
  Decimal.render v.major.toNat ++ "." ++ Decimal.render v.minor.toNat ++ "." ++ Decimal.render v.patch.toNat

/-- One component of a version: a numeral whose value fits 32 bits. -/
def component? (t : Text) : Option UInt32 :=
  (Decimal.read? UInt32.size t).map Nat.toUInt32

/-- Reads a version: three numerals with a dot between neighbours. -/
def parse? (t : Text) : Option Version :=
  match t.splitOn Byte.dot with
  | [major, minor, patch] => do
    return ⟨← component? major, ← component? minor, ← component? patch⟩
  | _ => none

/-- Versions are compared component by component, the major one first. -/
instance : LT Version where
  lt a b := a.major < b.major ∨ a.major = b.major ∧ (a.minor < b.minor ∨ a.minor = b.minor ∧ a.patch < b.patch)

instance : DecidableLT Version := fun a b =>
  inferInstanceAs (Decidable (a.major < b.major ∨
    a.major = b.major ∧ (a.minor < b.minor ∨ a.minor = b.minor ∧ a.patch < b.patch)))

instance : LE Version where
  le a b := ¬ b < a

instance : DecidableLE Version := fun a b =>
  inferInstanceAs (Decidable (¬ b < a))

/-- The result of comparing two versions. -/
def compare (a b : Version) : Ordering :=
  if a < b then .lt else if a = b then .eq else .gt

end Version

/-- The versions from `lower` on and below `upper` that a metadata key may name. -/
structure VersionRange where
  key : Text
  lower : Version
  upper : Version
  deriving DecidableEq, Repr

/-- Whether a version lies in a range. -/
def VersionRange.contains (r : VersionRange) (v : Version) : Bool :=
  r.lower ≤ v && v < r.upper

end ThetaSchema
