import ThetaSchema.Proofs.Token.Placement

/-!
# Spans on lines

A token is on the lines on which it has a byte.  Nothing here depends on the length of the text: lines are
counted in newlines, and a location only keeps as much of a line as fits in it.

Main definitions:

- `Text.lineAt`: the line of a byte.
- `Span.OnLine`: a span with a byte on a line.

Main results:

- `Span.FoundIn.lineAt_start_lt`: tokens with different lines start on different lines.
- `Span.FoundIn.eq_lineAt_start_of_onLine`: a token without a newline is on the line where it starts.
-/

namespace ThetaSchema

/-! ## Lines -/

namespace Text

/-- The line of the byte at an index, counted from one. -/
def lineAt (t : Text) (i : Nat) : Nat :=
  lineBehind (t.take i)

/-- Lines do not decrease along a text. -/
theorem lineAt_mono (t : Text) {i j : Nat} (le : i ≤ j) : t.lineAt i ≤ t.lineAt j := by
  have newlines := (List.take_sublist_take_left (l := t) le).count_le Byte.newline
  rw [lineAt, lineAt, lineBehind, lineBehind]
  omega

/-- No line comes behind the last one. -/
theorem lineAt_le_lineBehind (t : Text) (i : Nat) : t.lineAt i ≤ lineBehind t := by
  have newlines := (List.take_sublist i t).count_le Byte.newline
  rw [lineAt, lineBehind, lineBehind]
  omega

/-- Every byte in front starts at most one line. -/
theorem lineAt_le (t : Text) (i : Nat) : t.lineAt i ≤ i + 1 := by
  have lines := lineBehind_le (t.take i)
  rw [List.length_take] at lines
  rw [lineAt]
  omega

/-- The byte behind a newline is on the next line. -/
theorem lineAt_succ {t : Text} {i : Nat} (newline : t[i]? = some Byte.newline) :
    t.lineAt (i + 1) = t.lineAt i + 1 := by
  rw [lineAt, List.take_add_one, newline, Option.toList_some, lineBehind_concat, if_pos rfl]
  rfl

end Text

namespace Span

variable {file t : Text} {s : Span}

/-! ## The lines of a span -/

/-- A byte of the span is on a line of the text. -/
def OnLine (t : Text) (line : Nat) (s : Span) : Prop :=
  ∃ i, s.start ≤ i ∧ i < s.stop ∧ t.lineAt i = line

namespace FoundIn

/-- The byte at the start of a span is the first one that it covers. -/
theorem getElem?_start (h : s.FoundIn file t) : t[s.start]? = s.extent.head? := by
  rw [← h.whole, List.append_assoc, start, List.getElem?_append_right le_rfl, Nat.sub_self,
    List.head?_eq_getElem?, List.getElem?_append_left (List.length_pos_iff.mpr h.nonempty)]

/-- The byte at the stop of a span is the first one of what follows. -/
theorem getElem?_stop (h : s.FoundIn file t) : t[s.stop]? = s.after.head? := by
  rw [← h.whole, stop, ← List.length_append, List.getElem?_append_right le_rfl, Nat.sub_self,
    List.head?_eq_getElem?]

/-- The line of a token is the line of its first byte. -/
theorem location_line (h : s.FoundIn file t) : s.token.location.line = (t.lineAt s.start).toUInt32 := by
  rw [h.location, Text.lineAt, ← h.whole, List.append_assoc, start, List.take_left]
  rfl

/-- Tokens with different lines start on different lines. -/
theorem lineAt_start_ne {u : Span} (h : s.FoundIn file t) (h' : u.FoundIn file t)
    (apart : s.token.location.line ≠ u.token.location.line) : t.lineAt s.start ≠ t.lineAt u.start := by
  rw [h.location_line, h'.location_line] at apart
  exact fun same => apart (by rw [same])

/-- Behind a token, a token with another line starts on a later line. -/
theorem lineAt_start_lt {u : Span} (h : s.FoundIn file t) (h' : u.FoundIn file t) (before : s.stop ≤ u.start)
    (apart : s.token.location.line ≠ u.token.location.line) : t.lineAt s.start < t.lineAt u.start := by
  have positive := h.start_lt_stop
  exact lt_of_le_of_ne (t.lineAt_mono (by omega)) (h.lineAt_start_ne h' apart)

/-- A token without a newline is on the line where it starts, and on no other. -/
theorem eq_lineAt_start_of_onLine (h : s.FoundIn file t) (single : Byte.newline ∉ s.extent) {line : Nat}
    (on : s.OnLine t line) : line = t.lineAt s.start := by
  obtain ⟨i, first, last, rfl⟩ := on
  obtain ⟨n, rfl⟩ := Nat.exists_eq_add_of_le first
  have size : n ≤ s.extent.length := by
    rw [start, stop] at last
    omega
  have noNewline : (s.extent.take n).count Byte.newline = 0 :=
    List.count_eq_zero.mpr fun mem => single (List.mem_of_mem_take mem)
  rw [Text.lineAt, Text.lineAt, ← h.whole, List.append_assoc, start, List.take_left,
    List.take_length_add_append, List.take_append_of_le_length size, Text.lineBehind, List.count_append,
    noNewline]
  rfl

end FoundIn
end Span
end ThetaSchema
