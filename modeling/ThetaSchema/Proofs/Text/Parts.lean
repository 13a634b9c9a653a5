import ThetaSchema.Text.Basic

/-!
# Parts that are put together

A text that is put together from parts with a separator between neighbours is the first part with each of the
others behind a separator.

Main results:

- `Text.join_cons`: the first part, and the others behind it.
- `Text.join_append`: what is put behind the whole is put behind the last part.
- `Text.mem_join`: where the bytes of the whole come from.
-/

namespace ThetaSchema
namespace Text

/-- Joined parts are the first one and the others with a separator in front of each. -/
theorem join_cons (separator first : Text) (others : List Text) :
    join separator (first :: others) = first ++ others.flatMap (separator ++ ·) := by
  induction others generalizing first with
  | nil => rw [join, List.intercalate_singleton, List.flatMap_nil, List.append_nil]
  | cons next others ih =>
    rw [List.flatMap_cons, List.append_assoc, ← ih, join, join,
      List.intercalate_cons_of_ne_nil (List.cons_ne_nil _ _), List.append_assoc]

/-- What is put behind joined parts is put behind the last one. -/
theorem join_append (separator : Text) (inner : List Text) (last ending : Text) :
    join separator (inner ++ [last]) ++ ending = join separator (inner ++ [last ++ ending]) := by
  cases inner with
  | nil => simp [join_cons]
  | cons part inner => simp [join_cons]

/-- Every byte of joined parts is one of the separator or of a part. -/
theorem mem_join {separator : Text} {parts : List Text} {b : UInt8} (h : b ∈ join separator parts) :
    b ∈ separator ∨ ∃ part ∈ parts, b ∈ part := by
  cases parts with
  | nil => simp [join] at h
  | cons first others =>
    rw [join_cons, List.mem_append, List.mem_flatMap] at h
    rcases h with start | ⟨part, later, inside⟩
    · exact .inr ⟨first, List.mem_cons_self, start⟩
    · rcases List.mem_append.mp inside with between | within
      · exact .inl between
      · exact .inr ⟨part, List.mem_cons_of_mem first later, within⟩

end Text
end ThetaSchema
