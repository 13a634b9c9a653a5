import ThetaSchema.Proofs.Documentation.Written
import ThetaSchema.Proofs.Token.Seam
import ThetaSchema.Proofs.Token.Shift
import ThetaSchema.Proofs.Token.Spans

/-!
# Tokens of texts with a line break between them

A text behind another one and a newline has the tokens that it has as a text of its own, moved down by the
lines and the bytes before it, unless a comment goes on behind the newline.

Main results:

- `Token.scans_of_seam`: no token of the first text reaches over the newline.
- `Token.toNat_lower`: which tokens leave the range of lines when they are moved down.
- `Token.ofText_append_newline`: the tokens of two texts with a newline between them.
- `Token.ofText_append_newline_wraps`: the end mark behind as many newlines as 32 bits can count.
-/

namespace ThetaSchema
namespace Token

/-! ## The tokens of both texts -/

/-- A text with a documentation line behind its blanks starts with documentation. -/
theorem head?_scan_of_opensDocLine {t : Text} (opens : Lexeme.opensDocLine (Lexeme.afterBlanks t) = true)
    (file : Text) (p : Position) : ∃ token ∈ (scan file p t).head?, token.kind = .documentation := by
  have blanks : Scans file p (Lexeme.blanks t) (Lexeme.afterBlanks t) [] :=
    Scans.blanks (List.all_takeWhile ..)
  rw [Scans, Lexeme.blanks_append_afterBlanks, List.nil_append] at blanks
  obtain ⟨line, slashes, -⟩ := Lexeme.opensDocLine_iff.mp opens
  rw [slashes] at opens
  rw [blanks, slashes, show ("///" : Text) ++ line = Byte.slash :: ("//" ++ line) from rfl, scan_cons,
    Lexeme.read_docLines opens]
  exact ⟨place file _ .documentation _, rfl, rfl⟩

/-- The tokens of a text in front of a newline and another text: neither a comment without an end nor
documentation goes on behind the newline. -/
theorem scans_of_seam {file s t : Text} (ended : ∀ token ∈ ofText file s, token.kind ≠ .unterminatedComment)
    (settled : (∀ token ∈ (ofText file s).dropLast.getLast?, token.kind ≠ .documentation) ∨
      ∀ token ∈ (ofText file t).head?, token.kind ≠ .documentation) :
    Scans file {} s (Byte.newline :: t) (scan file {} s) := by
  refine Scans.of_last fun token last => ⟨?_, fun isDoc => ?_⟩
  · refine ended token ?_
    rw [ofText_eq]
    exact List.mem_append_left _ (List.mem_of_getLast? last)
  · rw [dropLast_ofText] at settled
    rcases settled with other | other
    · exact absurd isDoc (other token last)
    · -- A documentation line behind the newline would be the first token there.
      by_contra opens
      obtain ⟨first, mem, doc⟩ := head?_scan_of_opensDocLine (Bool.not_eq_false _ ▸ opens) file {}
      refine other first ?_ doc
      rw [ofText_eq, List.head?_append, mem]
      rfl

/-! ## Lines out of range -/

/-- A place of a text with a front part that ends with a newline, moved down by it. -/
theorem lineAt_append_newline (s before after : Text) :
    (s ++ Byte.newline :: (before ++ after)).lineAt (before.length + (s.length + 1)) =
      Text.lineBehind before + (1 + s.count Byte.newline) := by
  have front : s ++ Byte.newline :: (before ++ after) = (s ++ Byte.newline :: before) ++ after := by simp
  have size : before.length + (s.length + 1) = (s ++ Byte.newline :: before).length := by
    rw [List.length_append, List.length_cons]
    omega
  rw [Text.lineAt, front, size, List.take_left, Text.lineBehind, Text.lineBehind, List.count_append,
    List.count_cons_self]
  omega

/-- A text in front moves offsets down exactly, and so it does the lines that 32 bits can count.  In a joined
text of fewer than `UInt32.size` bytes only the end mark can be on another line, behind newlines only. -/
theorem toNat_lower {file s t : Text} (short : s.length + t.length < UInt32.size) {token : Token}
    (mem : token ∈ ofText file t) :
    let joined := s ++ Byte.newline :: t
    let lowered := token.lower (1 + s.count Byte.newline).toUInt32 (s.length + 1).toUInt64
    lowered.offset.toNat = token.offset.toNat + (s.length + 1) ∧
      (lowered.location.line.toNat = token.location.line.toNat + (1 + s.count Byte.newline) ∨
        token.kind = .endOfInput ∧ joined = List.replicate (UInt32.size - 1) Byte.newline ∨
        joined.length = UInt32.size ∧ UInt32.size ≤ joined.lineAt lowered.offset.toNat) := by
  intro joined lowered
  obtain ⟨before, after, whole, place, offset, proper⟩ := exists_place_of_mem_ofText mem
  have parts : t.length = before.length + after.length := by rw [← whole, List.length_append]
  have size : joined.length = s.length + 1 + t.length := by
    rw [List.length_append, List.length_cons]
    omega
  have start : token.offset.toNat = before.length := by
    rw [offset]
    exact Text.toNat_length (by omega)
  have offsets : lowered.offset.toNat = token.offset.toNat + (s.length + 1) := by
    have small : s.length + t.length < 2 ^ 32 := short
    rw [show lowered.offset = token.offset + (s.length + 1).toUInt64 from rfl, UInt64.toNat_add, start,
      Nat.toUInt64_eq, UInt64.toNat_ofNat']
    omega
  have line : joined.lineAt lowered.offset.toNat = Text.lineBehind before + (1 + s.count Byte.newline) := by
    rw [offsets, start, ← lineAt_append_newline s before after, whole]
  refine ⟨offsets, ?_⟩
  by_cases fits : Text.lineBehind before + (1 + s.count Byte.newline) < UInt32.size
  · exact .inl (toNat_line_lower _ place fits)
  rw [← line, Nat.not_lt] at fits
  by_cases full : joined.length = UInt32.size
  · exact .inr (.inr ⟨full, fits⟩)
  -- As many newlines in front of the token as the text has bytes leave none behind it.
  have lines := joined.lineAt_le lowered.offset.toNat
  have last : after = [] := List.length_eq_zero_iff.mp (by omega)
  have isEnd : token.kind = .endOfInput := by
    by_contra isProper
    exact proper isProper last
  have all := joined.lineAt_le_lineBehind lowered.offset.toNat
  have newlines : joined = List.replicate joined.length Byte.newline :=
    Text.eq_newlines_of_lt_lineBehind (by omega)
  rw [show joined.length = UInt32.size - 1 by omega] at newlines
  exact .inr (.inl ⟨isEnd, newlines⟩)

/-- The tokens of two texts with a newline between them are those of the first text without its end mark,
and those of the second one, moved down by the first text and the newline.  The first text may not end
inside of a comment, nor with documentation if the second one starts with documentation.  Moving down is
exact, apart from lines that 32 bits cannot count: that of the end mark behind newlines only, and in a joined
text of `UInt32.size` bytes also others. -/
theorem ofText_append_newline (file : Text) {s t : Text}
    (ended : ∀ token ∈ ofText file s, token.kind ≠ .unterminatedComment)
    (settled : (∀ token ∈ (ofText file s).dropLast.getLast?, token.kind ≠ .documentation) ∨
      ∀ token ∈ (ofText file t).head?, token.kind ≠ .documentation) :
    let joined := s ++ Byte.newline :: t
    let lowered := lower (1 + s.count Byte.newline).toUInt32 (s.length + 1).toUInt64
    ofText file joined = (ofText file s).dropLast ++ (ofText file t).map lowered ∧
      (s.length + t.length < UInt32.size → ∀ token ∈ ofText file t,
        (lowered token).offset.toNat = token.offset.toNat + (s.length + 1) ∧
          ((lowered token).location.line.toNat = token.location.line.toNat + (1 + s.count Byte.newline) ∨
            token.kind = .endOfInput ∧ joined = List.replicate (UInt32.size - 1) Byte.newline ∨
            joined.length = UInt32.size ∧ UInt32.size ≤ joined.lineAt (lowered token).offset.toNat)) := by
  intro joined lowered
  refine ⟨?_, fun short token mem => toNat_lower short mem⟩
  have scanned := (scans_of_seam ended settled).scan_newline
  have stop : place file (({} : Position).advance joined) .endOfInput [] =
      lowered (place file (({} : Position).advance t) .endOfInput []) := by
    rw [show joined = (s ++ [Byte.newline]) ++ t by simp [joined], Position.advance_append,
      Position.advance_newline_eq_lower, Position.advance_lower]
    rfl
  rw [ofText_eq, scanned, stop, dropLast_ofText, ofText_eq, List.map_append, List.append_assoc,
    scan_behind_newline]
  rfl

/-- A comment over two lines, a word and documentation at the end. -/
def upperLines : Text :=
  "/* a\n*/ type /// b"

/-- A mark behind blanks, a number and documentation on a line of its own. -/
def lowerLines : Text :=
  "\t= 1.0\n/// c"

/-- The tokens of two small texts with a newline between them; the documentation at the end of the first text
stays as it is, since the second one starts with another token. -/
theorem ofText_append_newline_lines :
    let lowered := lower (1 + upperLines.count Byte.newline).toUInt32 (upperLines.length + 1).toUInt64
    (∀ token ∈ ofText "a.theta" upperLines, token.kind ≠ .unterminatedComment) ∧
      (∀ token ∈ (ofText "a.theta" lowerLines).head?, token.kind ≠ .documentation) ∧
      upperLines.length + lowerLines.length < UInt32.size ∧
      ofText "a.theta" (upperLines ++ Byte.newline :: lowerLines) =
        (ofText "a.theta" upperLines).dropLast ++ (ofText "a.theta" lowerLines).map lowered ∧
      (∀ token ∈ ofText "a.theta" lowerLines,
        (lowered token).offset.toNat = token.offset.toNat + (upperLines.length + 1)) ∧
      (ofText "a.theta" (upperLines ++ Byte.newline :: lowerLines)).map
          (fun token => (token.kind, token.location.line, token.location.column, token.offset)) =
        [(.identifier, 2, 4, 8), (.documentation, 2, 9, 13), (.equal, 3, 2, 20), (.version, 3, 4, 22),
          (.documentation, 4, 1, 26), (.endOfInput, 4, 6, 31)] := by
  intro lowered
  have ended : ∀ token ∈ ofText "a.theta" upperLines, token.kind ≠ .unterminatedComment := by decide +kernel
  have settled : ∀ token ∈ (ofText "a.theta" lowerLines).head?, token.kind ≠ .documentation := by
    decide +kernel
  have short : upperLines.length + lowerLines.length < UInt32.size := by decide +kernel
  obtain ⟨joined, moved⟩ := ofText_append_newline "a.theta" ended (.inr settled)
  exact ⟨ended, settled, short, joined, fun token mem => (moved short token mem).1, by decide +kernel⟩

/-- Two texts without a token, of as many newlines together as 32 bits can count: the end mark of the second
one is placed in the last line, and with the first one in front of it in line zero. -/
theorem ofText_append_newline_wraps :
    let t : Text := List.replicate (UInt32.size - 2) Byte.newline
    ([] ++ Byte.newline :: t).length < UInt32.size ∧
      (∀ token ∈ ofText "in.theta" [], token.kind ≠ .unterminatedComment) ∧
      (∀ token ∈ (ofText "in.theta" t).head?, token.kind ≠ .documentation) ∧
      ofText "in.theta" t = [⟨.endOfInput, [], ⟨"in.theta", 4294967295, 1⟩, 4294967294⟩] ∧
      ofText "in.theta" ([] ++ Byte.newline :: t) =
        [⟨.endOfInput, [], ⟨"in.theta", 0, 1⟩, 4294967295⟩] := by
  intro t
  have size : t.length = UInt32.size - 2 := List.length_replicate
  have empty : ofText "in.theta" [] = _ := ofText_newlines "in.theta" 0
  have own : ofText "in.theta" t = _ := ofText_newlines "in.theta" (UInt32.size - 2)
  refine ⟨?_, ?_, ?_, own, ofText_newlines "in.theta" (UInt32.size - 2 + 1)⟩
  · rw [List.nil_append, List.length_cons, size]
    decide
  · rw [empty]
    decide
  · rw [own]
    decide

/-- Two lines of documentation with nothing but the newline between them are one token. -/
example : (ofText "a.theta" ("/// b" ++ Byte.newline :: "/// c")).map Token.kind =
    [.documentation, .endOfInput] := by
  decide +kernel

end Token
end ThetaSchema
