import ThetaSchema.Proofs.Text.Numerals

/-!
# Written versions

A version has many written forms, which differ in the zeros in front of its three numerals.  They are all read
as the version, nothing else is, and the form that is written is the one without these zeros.

Main definitions:

- `Version.IsComponent`: the numerals of which a version may consist.

Main results:

- `Version.parse?_eq_some_iff`: which texts are read as a version.
- `Version.parse?_render`: a written version is read back.
- `Version.parse?_exact`: which texts are versions at all, and how they are written again.
-/

namespace ThetaSchema
namespace Version

/-! ## Components -/

/-- A component is read as a number of 32 bits exactly when it is one of its numerals. -/
theorem component?_eq_some_iff {t : Text} {n : UInt32} :
    component? t = some n ↔ Decimal.Denotes t n.toNat := by
  rw [component?, Option.map_eq_some_iff]
  constructor
  · rintro ⟨k, read, rfl⟩
    obtain ⟨denotes, small⟩ := Decimal.read?_eq_some_iff_denotes.mp read
    have value : k.toUInt32.toNat = k := UInt32.toNat_ofNat_of_lt' small
    rwa [value]
  · intro denotes
    refine ⟨n.toNat, Decimal.read?_eq_some_iff_denotes.mpr ⟨denotes, UInt32.toNat_lt_size n⟩, ?_⟩
    rw [Nat.toUInt32_eq, UInt32.ofNat_toNat]

/-- A component of a version: a nonempty run of digits whose value has 32 bits.  It may start with zeros. -/
structure IsComponent (t : Text) : Prop where
  nonempty : t ≠ []
  digits : ∀ b ∈ t, Byte.isDigit b = true
  small : ∃ n, Decimal.Denotes t n ∧ n ≤ 4294967295

/-- Reading a component fails exactly on the empty text, on a byte that is no digit, and on a value of more
than 32 bits. -/
theorem exists_component?_iff {t : Text} : (∃ n, component? t = some n) ↔ IsComponent t := by
  simp only [component?_eq_some_iff]
  constructor
  · rintro ⟨n, denotes⟩
    obtain ⟨nonempty, digits, -⟩ := denotes.digits
    exact ⟨nonempty, List.all_eq_true.mp digits, n.toNat, denotes, Nat.le_of_lt_succ (UInt32.toNat_lt_size n)⟩
  · intro component
    obtain ⟨n, denotes, small⟩ := component.small
    have value : (UInt32.ofNat n).toNat = n := UInt32.toNat_ofNat_of_lt' (Nat.lt_succ_of_le small)
    exact ⟨UInt32.ofNat n, by rwa [value]⟩

/-! ## Versions -/

/-- The texts that are read as a version are three numerals of its components with a dot between neighbours. -/
theorem parse?_eq_some_iff {t : Text} {v : Version} :
    parse? t = some v ↔ ∃ major minor patch, t = major ++ "." ++ minor ++ "." ++ patch ∧
      Decimal.Denotes major v.major.toNat ∧ Decimal.Denotes minor v.minor.toNat ∧
        Decimal.Denotes patch v.patch.toNat := by
  have point : ("." : Text) = [Byte.dot] := by decide
  simp only [← component?_eq_some_iff]
  constructor
  · intro read
    unfold parse? at read
    split at read
    · rename_i major minor patch split
      have whole : t = major ++ "." ++ minor ++ "." ++ patch := by
        have joined : List.intercalate [Byte.dot] (t.splitOn Byte.dot) = t := List.intercalate_splitOn _
        rw [split] at joined
        simp [← joined, point, List.intercalate_cons_cons]
      refine ⟨major, minor, patch, whole, ?_⟩
      simp only [Option.pure_def, Option.bind_eq_bind, Option.bind_eq_some_iff, Option.some.injEq] at read
      obtain ⟨a, first, b, second, c, third, rfl⟩ := read
      exact ⟨first, second, third⟩
    · cases read
  · rintro ⟨major, minor, patch, rfl, first, second, third⟩
    have dotless : ∀ {part : Text} {n : UInt32}, component? part = some n → Byte.dot ∉ part :=
      fun read => (component?_eq_some_iff.mp read).dot_not_mem
    have split : (major ++ "." ++ minor ++ "." ++ patch : Text).splitOn Byte.dot = [major, minor, patch] := by
      rw [point, List.append_assoc, List.append_assoc, List.append_assoc, List.singleton_append,
        List.splitOn_append_cons_self_of_not_mem (dotless first), List.singleton_append,
        List.splitOn_append_cons_self_of_not_mem (dotless second), List.splitOn_eq_singleton (dotless third)]
    rw [parse?, split]
    simp [first, second, third]

/-- A written version is read back. -/
theorem parse?_render (v : Version) : parse? v.render = some v :=
  parse?_eq_some_iff.mpr ⟨_, _, _, rfl, Decimal.denotes_render _, Decimal.denotes_render _,
    Decimal.denotes_render _⟩

/-- A text that is read as a version consists of three components. -/
theorem exists_components_of_parse? {t : Text} {v : Version} (h : parse? t = some v) :
    ∃ major minor patch, t = major ++ "." ++ minor ++ "." ++ patch ∧
      IsComponent major ∧ IsComponent minor ∧ IsComponent patch := by
  obtain ⟨major, minor, patch, whole, first, second, third⟩ := parse?_eq_some_iff.mp h
  simp only [← component?_eq_some_iff] at first second third
  exact ⟨major, minor, patch, whole, exists_component?_iff.mp ⟨_, first⟩, exists_component?_iff.mp ⟨_, second⟩,
    exists_component?_iff.mp ⟨_, third⟩⟩

/-- Three components are read as a version, which is written without the zeros in front of them. -/
theorem exists_parse?_of_components {major minor patch : Text} (first : IsComponent major)
    (second : IsComponent minor) (third : IsComponent patch) :
    ∃ v, parse? (major ++ "." ++ minor ++ "." ++ patch) = some v ∧
      v.render = Decimal.stripped major ++ "." ++ Decimal.stripped minor ++ "." ++ Decimal.stripped patch := by
  obtain ⟨a, first⟩ := exists_component?_iff.mpr first
  obtain ⟨b, second⟩ := exists_component?_iff.mpr second
  obtain ⟨c, third⟩ := exists_component?_iff.mpr third
  rw [component?_eq_some_iff] at first second third
  refine ⟨⟨a, b, c⟩, parse?_eq_some_iff.mpr ⟨major, minor, patch, rfl, first, second, third⟩, ?_⟩
  rw [render, Decimal.stripped_eq_render first, Decimal.stripped_eq_render second,
    Decimal.stripped_eq_render third]

/-- Versions are read back from their written form.  A text is read as a version exactly when it consists of three
components with dots between them, and the version that is read is written with the zeros in front of each
component left out. -/
theorem parse?_exact :
    (∀ v : Version, parse? v.render = some v) ∧
    (∀ t, (∃ v, parse? t = some v) ↔ ∃ major minor patch, t = major ++ "." ++ minor ++ "." ++ patch ∧
      IsComponent major ∧ IsComponent minor ∧ IsComponent patch) ∧
    ∀ major minor patch, IsComponent major → IsComponent minor → IsComponent patch →
      ∃ v, parse? (major ++ "." ++ minor ++ "." ++ patch) = some v ∧
        v.render = Decimal.stripped major ++ "." ++ Decimal.stripped minor ++ "." ++ Decimal.stripped patch := by
  refine ⟨parse?_render, fun t => ⟨?_, ?_⟩, fun _ _ _ => exists_parse?_of_components⟩
  · rintro ⟨v, read⟩
    exact exists_components_of_parse? read
  · rintro ⟨major, minor, patch, rfl, first, second, third⟩
    obtain ⟨v, read, -⟩ := exists_parse?_of_components first second third
    exact ⟨v, read⟩

/-- Zeros in front, a run of zeros, and the largest number of 32 bits. -/
theorem parse?_exact_zeros :
    IsComponent "0042" ∧ IsComponent "000" ∧ IsComponent "4294967295" ∧
      parse? "0042.000.4294967295" = some ⟨42, 0, 4294967295⟩ ∧
      (⟨42, 0, 4294967295⟩ : Version).render = "42.0.4294967295" := by
  have first : IsComponent "0042" :=
    ⟨by decide, by decide +kernel, 42, Decimal.denotes_spelled (by decide) (by decide), by decide⟩
  have second : IsComponent "000" :=
    ⟨by decide, by decide +kernel, 0, Decimal.denotes_spelled (by decide) (by decide), by decide⟩
  have third : IsComponent "4294967295" :=
    ⟨by decide, by decide +kernel, 4294967295, Decimal.denotes_spelled (by decide) (by decide), by decide⟩
  have read : parse? "0042.000.4294967295" = some ⟨42, 0, 4294967295⟩ := by decide
  obtain ⟨v, same, written⟩ := parse?_exact.2.2 _ _ _ first second third
  cases same.symm.trans read
  exact ⟨first, second, third, read, written⟩

example : parse? "0.1.4294967296" = none := by decide

end Version
end ThetaSchema
