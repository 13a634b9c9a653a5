import ThetaSchema.Proofs.Token.Placement

/-!
# Texts further down

A text that starts in the first column of a later line has the tokens that it has at the start of a file,
that many lines further down.  Moving down is an addition of machine words, so positions can be moved before
a text is scanned, or its tokens afterwards; where the texts are not too long, no word overflows.

Main definitions:

- `Position.lower`, `Token.lower`: the same place a number of lines and bytes further down.
- `Location.Below`: the same column exactly a number of lines further down.

Main results:

- `Token.scan_lower`: tokens from a lower position are lowered tokens.
- `Token.scan_behind_newline`: a text behind another one and a newline has its own tokens, lowered.
- `Token.below_lower`: moving down within a text that is not too long is exact.
-/

namespace ThetaSchema

/-! ## Moving down -/

/-- The same column `n` lines further down in a file. -/
structure Location.Below (n : Nat) (l l' : Location) : Prop where
  file : l'.file = l.file
  line : l'.line.toNat = l.line.toNat + n
  column : l'.column = l.column

/-- The position `n` lines and `d` bytes further down in the same column. -/
def Position.lower (n : UInt32) (d : UInt64) (p : Position) : Position :=
  ⟨p.line + n, p.column, p.offset + d⟩

/-- The token `n` lines and `d` bytes further down in the same column. -/
def Token.lower (n : UInt32) (d : UInt64) (t : Token) : Token :=
  { t with location := { t.location with line := t.location.line + n }, offset := t.offset + d }

namespace Position

/-- A byte leads from a lower position to a lower position. -/
theorem next_lower (n : UInt32) (d : UInt64) (p : Position) (b : UInt8) :
    (p.lower n d).next b = (p.next b).lower n d := by
  unfold next lower
  split <;> simp only [UInt32.add_assoc, UInt64.add_assoc, UInt32.add_comm n, UInt64.add_comm d]

/-- A stretch of bytes leads from a lower position to a lower position. -/
theorem advance_lower (n : UInt32) (d : UInt64) (p : Position) (t : Text) :
    (p.lower n d).advance t = (p.advance t).lower n d := by
  induction t generalizing p with
  | nil => rfl
  | cons b t ih => rw [advance_cons, advance_cons, next_lower, ih]

/-- The position behind a text and a newline is the start of a file, moved down by them. -/
theorem advance_newline_eq_lower (t : Text) :
    ({} : Position).advance (t ++ [Byte.newline]) =
      ({} : Position).lower (1 + t.count Byte.newline).toUInt32 (t.length + 1).toUInt64 := by
  have line := (advance_behind (t ++ [Byte.newline])).1
  have column := (advance_behind (t ++ [Byte.newline])).2
  have offset := advance_offset {} (t ++ [Byte.newline])
  rw [Text.lineBehind_concat, if_pos rfl, Text.lineBehind, Nat.add_comm] at line
  rw [Text.columnBehind_concat, if_pos rfl] at column
  rw [List.length_append, List.length_singleton] at offset
  generalize ({} : Position).advance (t ++ [Byte.newline]) = p at line column offset ⊢
  rcases p with ⟨l, c, o⟩
  simp only at line column offset
  rw [line, column, offset, lower, Nat.toUInt32_eq, UInt32.ofNat_add 1]
  rfl

end Position

namespace Token

/-- Tokens that are moved down together touch as before. -/
theorem adjacentTo_lower (n : UInt32) (d : UInt64) (t u : Token) :
    (t.lower n d).adjacentTo (u.lower n d) = t.adjacentTo u := by
  have limit : (t.lower n d).limit = t.limit + d := by
    rw [limit, limit, lower, UInt64.add_assoc, UInt64.add_comm d, UInt64.add_assoc]
  rw [adjacentTo, adjacentTo, limit, Bool.eq_iff_iff, beq_iff_eq, beq_iff_eq, lower, UInt64.add_left_inj]

/-- Lexemes from a lower position have lowered tokens. -/
theorem scanLexemes_lower (file : Text) (n : UInt32) (d : UInt64) (p : Position) (ls : List Lexeme) :
    scanLexemes file (p.lower n d) ls = (scanLexemes file p ls).map (lower n d) := by
  induction ls generalizing p with
  | nil => rfl
  | cons l others ih =>
    rw [scanLexemes, scanLexemes, Position.advance_lower, ih, List.map_append]
    cases l.token? <;> rfl

/-- A text further down is cut into lowered tokens. -/
theorem scan_lower (file : Text) (n : UInt32) (d : UInt64) (p : Position) (t : Text) :
    scan file (p.lower n d) t = (scan file p t).map (lower n d) :=
  scanLexemes_lower file n d p (Lexeme.ofText t)

/-- A text behind another one and a newline is cut into the same tokens further down. -/
theorem scan_behind_newline (file s t : Text) :
    scan file (({} : Position).advance (s ++ [Byte.newline])) t =
      (scan file {} t).map (lower (1 + s.count Byte.newline).toUInt32 (s.length + 1).toUInt64) := by
  rw [Position.advance_newline_eq_lower, scan_lower]

/-! ## Staying within machine words -/

/-- A token of a text, with the text divided at its place.  Only the end mark stands behind all bytes. -/
theorem exists_place_of_mem_ofText {file t : Text} {token : Token} (mem : token ∈ ofText file t) :
    ∃ before after, before ++ after = t ∧ token.location = .behind file before ∧
      token.offset = before.length.toUInt64 ∧ (token.kind ≠ .endOfInput → after ≠ []) := by
  rw [ofText_eq, List.mem_append, List.mem_singleton] at mem
  rcases mem with inside | rfl
  · rw [← Span.map_token_ofText] at inside
    obtain ⟨s, isSpan, rfl⟩ := List.mem_map.mp inside
    have found := (Span.ofText_tiling file t).found s isSpan
    refine ⟨s.before, s.extent ++ s.after, ?_, found.location, found.offset, fun _ => ?_⟩
    · rw [← List.append_assoc, found.whole]
    · exact List.append_ne_nil_of_left_ne_nil found.nonempty _
  · exact ⟨t, [], List.append_nil t, location_place file t _ _, offset_place file t _ _,
      fun proper => absurd rfl proper⟩

/-- The line of a token that is moved down by a text in front is exact, as long as it fits. -/
theorem toNat_line_lower {file s before : Text} {token : Token} (d : UInt64)
    (place : token.location = .behind file before)
    (fits : Text.lineBehind before + (1 + s.count Byte.newline) < UInt32.size) :
    (token.lower (1 + s.count Byte.newline).toUInt32 d).location.line.toNat =
      token.location.line.toNat + (1 + s.count Byte.newline) := by
  rw [UInt32.size] at fits
  rw [lower, place, Location.behind, UInt32.toNat_add, Nat.toUInt32_eq, Nat.toUInt32_eq, UInt32.toNat_ofNat',
    UInt32.toNat_ofNat']
  omega

/-- Within a text that is not too long, tokens other than the end mark are exactly below their own places. -/
theorem below_lower {file s t : Text} (short : (s ++ Byte.newline :: t).length < UInt32.size) {token : Token}
    (mem : token ∈ scan file {} t) (d : UInt64) :
    token.location.Below (1 + s.count Byte.newline)
      (token.lower (1 + s.count Byte.newline).toUInt32 d).location := by
  rw [← Span.map_token_ofText] at mem
  obtain ⟨u, isSpan, rfl⟩ := List.mem_map.mp mem
  have found := (Span.ofText_tiling file t).found u isSpan
  refine ⟨rfl, toNat_line_lower d found.location ?_, rfl⟩
  have newlines : s.count Byte.newline ≤ s.length := List.count_le_length
  have line := Text.lineBehind_le u.before
  have start : u.before.length < u.stop := found.start_lt_stop
  have stop := found.stop_le
  rw [List.length_append, List.length_cons] at short
  omega

end Token
end ThetaSchema
