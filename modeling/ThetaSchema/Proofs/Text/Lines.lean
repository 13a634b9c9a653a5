import Mathlib.Data.List.TakeWhile
import ThetaSchema.Text.Basic

/-!
# Lines, ends and neighbours

What trimming leaves is described by its first and its last byte, and what stands at the ends of lines by
the bytes next to each newline.  Both descriptions pass to any stretch of a text, which relates the lines
of a text to those of the text without its surrounding white space.

Main results:

- `Text.lines_unlines`: texts without newlines come back as the lines of their union.
- `Text.trim_infix`, `Text.trim_eq_self`: trimming leaves a stretch, and trimmed texts as they are.
- `Text.pair_infix_unlines`: neighbouring bytes of joined lines stand in a line or next to a newline.
-/

namespace ThetaSchema
namespace Text

/-! ## Lines -/

theorem lines_ne_nil (t : Text) : lines t ≠ [] :=
  List.splitOn_ne_nil _ _

theorem unlines_lines (t : Text) : unlines (lines t) = t :=
  List.intercalate_splitOn _

theorem unlines_singleton (t : Text) : unlines [t] = t :=
  List.intercalate_singleton

/-- A newline goes between a line and the others. -/
theorem unlines_cons (t : Text) {ls : List Text} (h : ls ≠ []) :
    unlines (t :: ls) = t ++ Byte.newline :: unlines ls := by
  rw [unlines, List.intercalate_cons_of_ne_nil h, List.append_assoc, List.singleton_append]
  rfl

/-- An empty line at the end is a newline at the end of the text. -/
theorem unlines_append_nil {ls : List Text} (h : ls ≠ []) :
    unlines (ls ++ [[]]) = unlines ls ++ [Byte.newline] := by
  induction ls with
  | nil => exact absurd rfl h
  | cons t ls ih =>
    cases ls with
    | nil => rw [List.singleton_append, unlines_cons t (List.cons_ne_nil _ _), unlines_singleton, unlines_singleton]
    | cons u ls =>
      rw [List.cons_append, unlines_cons t (by simp), ih (List.cons_ne_nil u ls),
        unlines_cons t (List.cons_ne_nil u ls), List.append_assoc, List.cons_append]

/-- Texts without newlines come back as the lines of their union. -/
theorem lines_unlines {ls : List Text} (nonempty : ls ≠ []) (h : ∀ l ∈ ls, Byte.newline ∉ l) :
    lines (unlines ls) = ls :=
  List.splitOn_intercalate _ h nonempty

/-- No line has a newline in it. -/
theorem not_mem_of_mem_lines {t l : Text} (h : l ∈ lines t) : Byte.newline ∉ l := by
  induction t generalizing l with
  | nil =>
    rw [lines, List.splitOn_nil, List.mem_singleton] at h
    simp [h]
  | cons b t ih =>
    rw [lines, List.splitOn_cons_eq_if_modifyHead] at h
    rcases List.exists_cons_of_ne_nil (lines_ne_nil t) with ⟨first, others, split⟩
    rw [show t.splitOn Byte.newline = first :: others from split] at h
    rw [split] at ih
    split at h
    · rcases List.mem_cons.mp h with rfl | later
      · simp
      · exact ih later
    · next other =>
      rw [List.modifyHead_cons] at h
      rcases List.mem_cons.mp h with rfl | later
      · rw [List.mem_cons, not_or]
        refine ⟨?_, ih List.mem_cons_self⟩
        rintro rfl
        exact other (by simp)
      · exact ih (List.mem_cons_of_mem _ later)

/-! ## Trimming -/

variable {q : UInt8 → Bool}

/-- Nothing is dropped where the first byte stays. -/
theorem dropWhile_eq_self {t : Text} (h : ∀ b ∈ t.head?, q b = false) : t.dropWhile q = t := by
  cases t with
  | nil => rfl
  | cons b t => simp [h b rfl]

/-- Nothing is trimmed where the last byte stays. -/
theorem trimEnd_eq_self {t : Text} (h : ∀ b ∈ t.getLast?, q b = false) : trimEnd q t = t := by
  rw [trimEnd, dropWhile_eq_self, List.reverse_reverse]
  simpa using h

/-- A text that neither starts nor ends with a class of bytes is trimmed of it. -/
theorem trim_eq_self {t : Text} (first : ∀ b ∈ t.head?, q b = false)
    (last : ∀ b ∈ t.getLast?, q b = false) : trim q t = t := by
  rw [trim, dropWhile_eq_self first, trimEnd_eq_self last]

/-- Trimming leaves the front of a text. -/
theorem trimEnd_isPrefix (q : UInt8 → Bool) (t : Text) : trimEnd q t <+: t := by
  rw [trimEnd, ← List.reverse_suffix, List.reverse_reverse]
  exact List.dropWhile_suffix q

/-- Trimming leaves a stretch of a text. -/
theorem trim_infix (q : UInt8 → Bool) (t : Text) : trim q t <:+: t :=
  (trimEnd_isPrefix q _).isInfix.trans (List.dropWhile_suffix q).isInfix

/-- Behind what is dropped stands a byte that stays. -/
theorem head?_dropWhile {t : Text} : ∀ b ∈ (t.dropWhile q).head?, q b = false := by
  have first := List.head?_dropWhile_not q t
  intro b here
  rw [Option.mem_def.mp here] at first
  simpa using first

/-- In front of what is trimmed stands a byte that stays. -/
theorem getLast?_trimEnd {t : Text} : ∀ b ∈ (trimEnd q t).getLast?, q b = false := by
  rw [trimEnd, List.getLast?_reverse]
  exact head?_dropWhile

/-- What is left by trimming the end starts like the whole. -/
theorem head?_trimEnd {t : Text} {b : UInt8} (h : b ∈ (trimEnd q t).head?) : b ∈ t.head? := by
  rcases trimEnd_isPrefix q t with ⟨rest, same⟩
  rw [← same]
  cases left : trimEnd q t with
  | nil => simp [left] at h
  | cons c cs =>
    rw [left] at h
    exact h

/-- What trimming leaves does not start with the class of bytes. -/
theorem head?_trim {t : Text} : ∀ b ∈ (trim q t).head?, q b = false := by
  intro b here
  exact head?_dropWhile b (head?_trimEnd here)

/-- What trimming leaves does not end with the class of bytes. -/
theorem getLast?_trim {t : Text} : ∀ b ∈ (trim q t).getLast?, q b = false :=
  getLast?_trimEnd

/-- Bytes of the class around a text are trimmed away. -/
theorem trim_surround {s t u : Text} (before : ∀ b ∈ s, q b = true) (behind : ∀ b ∈ u, q b = true) :
    trim q (s ++ t ++ u) = trim q t := by
  have cut : (t ++ u).dropWhile q = t.dropWhile q ++ u ∨
      ((t ++ u).dropWhile q = [] ∧ t.dropWhile q = []) := by
    rw [List.dropWhile_append]
    split
    · next none =>
      rw [List.isEmpty_iff] at none
      exact .inr ⟨List.dropWhile_eq_nil_iff.mpr behind, none⟩
    · exact .inl rfl
  rw [trim, trim, List.append_assoc, List.dropWhile_append_of_pos before]
  rcases cut with cut | ⟨cut, none⟩
  · have reversed : ∀ b ∈ u.reverse, q b = true := by simpa using behind
    rw [cut, trimEnd, List.reverse_append, List.dropWhile_append_of_pos reversed, trimEnd]
  · rw [cut, none]

/-! ## Neighbouring bytes -/

/-- Two neighbours in a text that is put together stand in one of its parts or at the seam. -/
theorem pair_infix_append {a b : UInt8} {s t : Text} :
    [a, b] <:+: s ++ t ↔
      [a, b] <:+: s ∨ (s.getLast? = some a ∧ t.head? = some b) ∨ [a, b] <:+: t := by
  induction s with
  | nil => simp
  | cons c s ih =>
    rw [List.cons_append, List.infix_cons_iff, ih, List.infix_cons_iff]
    cases s with
    | nil =>
      cases t with
      | nil => simp
      | cons d t => simp [@eq_comm _ c a, @eq_comm _ d b]
    | cons d s => simp [List.getLast?_cons_cons, or_assoc]

/-- Neighbours of which the first does not occur in the front part stand in the other part. -/
theorem pair_infix_of_not_mem {a b : UInt8} {s t : Text} (absent : a ∉ s) (h : [a, b] <:+: s ++ t) :
    [a, b] <:+: t := by
  rcases pair_infix_append.mp h with inside | ⟨seam, -⟩ | behind
  · exact absurd (inside.subset (by simp)) absent
  · exact absurd (List.mem_of_getLast? seam) absent
  · exact behind

/-- The first byte of lines that are put together starts the first line or ends an empty one. -/
theorem head?_unlines {t : Text} {ls : List Text} {b : UInt8} (h : (unlines (t :: ls)).head? = some b) :
    b = Byte.newline ∨ t.head? = some b := by
  cases ls with
  | nil =>
    rw [unlines_singleton] at h
    exact .inr h
  | cons u ls =>
    rw [unlines_cons t (List.cons_ne_nil u ls)] at h
    cases t with
    | nil =>
      left
      simpa [eq_comm] using h
    | cons c t => exact .inr h

/-- Neighbours in lines that are put together stand in one of the lines, at the end of a line before a
newline, or at the start of a later line behind one. -/
theorem pair_infix_unlines {a b : UInt8} {ls : List Text} (h : [a, b] <:+: unlines ls) :
    (∃ l ∈ ls, [a, b] <:+: l) ∨
      (b = Byte.newline ∧ (a = Byte.newline ∨ ∃ l ∈ ls, l.getLast? = some a)) ∨
        (a = Byte.newline ∧ (b = Byte.newline ∨ ∃ l ∈ ls.drop 1, l.head? = some b)) := by
  induction ls with
  | nil => simp [unlines] at h
  | cons t ls ih =>
    cases ls with
    | nil =>
      rw [unlines_singleton] at h
      exact .inl ⟨t, List.mem_cons_self, h⟩
    | cons u ls =>
      rw [unlines_cons t (List.cons_ne_nil u ls), pair_infix_append] at h
      rcases h with inside | ⟨last, seam⟩ | behind
      · exact .inl ⟨t, List.mem_cons_self, inside⟩
      · rw [List.head?_cons, Option.some.injEq] at seam
        exact .inr (.inl ⟨seam.symm, .inr ⟨t, List.mem_cons_self, last⟩⟩)
      · rw [List.infix_cons_iff] at behind
        rcases behind with front | later
        · rw [List.cons_prefix_cons] at front
          rcases front with ⟨isNewline, rest, same⟩
          have first : (unlines (u :: ls)).head? = some b := by rw [← same]; rfl
          rcases head?_unlines first with newline | start
          · exact .inr (.inr ⟨isNewline, .inl newline⟩)
          · exact .inr (.inr ⟨isNewline, .inr ⟨u, List.mem_cons_self, start⟩⟩)
        · rcases ih later with ⟨l, mem, inside⟩ | ⟨isNewline, last⟩ | ⟨isNewline, first⟩
          · exact .inl ⟨l, List.mem_cons_of_mem t mem, inside⟩
          · refine .inr (.inl ⟨isNewline, last.imp_right ?_⟩)
            rintro ⟨l, mem, ends⟩
            exact ⟨l, List.mem_cons_of_mem t mem, ends⟩
          · refine .inr (.inr ⟨isNewline, first.imp_right ?_⟩)
            rintro ⟨l, mem, starts⟩
            exact ⟨l, List.mem_of_mem_drop mem, starts⟩

/-- A line is a stretch of the lines that are put together. -/
theorem infix_unlines {l : Text} {ls : List Text} (h : l ∈ ls) : l <:+: unlines ls := by
  induction ls with
  | nil => cases h
  | cons t ls ih =>
    cases ls with
    | nil =>
      rw [List.mem_singleton.mp h]
      exact ⟨[], [], by rw [unlines_singleton, List.nil_append, List.append_nil]⟩
    | cons u ls =>
      rw [unlines_cons t (List.cons_ne_nil u ls)]
      rcases List.mem_cons.mp h with rfl | later
      · exact (List.prefix_append l _).isInfix
      · exact (ih later).trans ((List.suffix_cons _ _).trans (List.suffix_append t _)).isInfix

/-- The last byte of a line ends the text, or a newline follows it. -/
theorem pair_infix_of_getLast? {a : UInt8} {l : Text} {ls : List Text} (mem : l ∈ ls)
    (last : l.getLast? = some a) :
    (unlines ls).getLast? = some a ∨ [a, Byte.newline] <:+: unlines ls := by
  induction ls with
  | nil => cases mem
  | cons t ls ih =>
    cases ls with
    | nil =>
      rw [List.mem_singleton] at mem
      rw [unlines_singleton, ← mem]
      exact .inl last
    | cons u ls =>
      rw [unlines_cons t (List.cons_ne_nil u ls), pair_infix_append]
      rcases List.mem_cons.mp mem with rfl | later
      · exact .inr (.inr (.inl ⟨last, rfl⟩))
      · rcases ih later with ends | inside
        · left
          rw [List.getLast?_append, List.getLast?_cons, ends]
          rfl
        · exact .inr (.inr (.inr (inside.trans (List.suffix_cons _ _).isInfix)))

/-- A newline goes before the first byte of a line behind the first one. -/
theorem pair_infix_of_head? {b : UInt8} {l : Text} {ls : List Text} (mem : l ∈ ls.drop 1)
    (first : l.head? = some b) : [Byte.newline, b] <:+: unlines ls := by
  induction ls with
  | nil => cases mem
  | cons t ls ih =>
    rw [List.drop_one, List.tail_cons] at mem
    rcases List.exists_cons_of_ne_nil (List.ne_nil_of_mem mem) with ⟨u, others, rfl⟩
    rw [unlines_cons t (List.cons_ne_nil u others)]
    rcases List.mem_cons.mp mem with rfl | later
    · rcases List.head?_eq_some_iff.mp first with ⟨rest, rfl⟩
      refine List.IsInfix.trans ?_ (List.suffix_append t _).isInfix
      refine List.IsPrefix.isInfix ?_
      rw [List.prefix_cons_inj]
      cases others with
      | nil => simp [unlines_singleton]
      | cons v others => simp [unlines_cons (b :: rest) (List.cons_ne_nil v others)]
    · have inner := ih (by rwa [List.drop_one, List.tail_cons])
      exact inner.trans ((List.suffix_cons _ _).trans (List.suffix_append t _)).isInfix

end Text
end ThetaSchema
