import Mathlib.Data.List.Induction
import ThetaSchema.Proofs.Token.Extents

/-!
# Where tokens stand

The bytes of a text are divided among its tokens and the gaps between them, without an overlap, and the
line and the column of every token are counted from the start of the text.  The invariant speaks about the
text from some place on, and is passed on from each lexeme to what follows it.  It holds of texts of any
length, since a location keeps as much of a line and of a column as fits in 32 bits; that nothing of them is
lost is what a bound on the length adds.

Main definitions:

- `Text.lineBehind`, `Text.columnBehind`: the line and the column of the byte behind a text.
- `Location.Behind`, `Location.behind`: the location of the byte behind a text, exactly and in 32 bits.
- `Span`, `Span.ofText`: a token with the stretch of the text that it covers, and those of a text.
- `Span.FoundIn`, `Span.PlacedIn`: a span of a text, placed in machine words and placed exactly.
- `Tiling`: spans in their order, with only gaps between them.

Main results:

- `Location.Behind.eq_of_isPrefix`: a location stands for one place of a text.
- `Span.ofText_tiling`: the spans of a text tile it.
- `Span.FoundIn.placedIn`: in a text that is not too long, spans are placed exactly.
- `Token.ofText_tiled`: the tokens of a text tile it, and are placed exactly.
- `Token.ofText_wraps`: the end mark of a text of the greatest length may not be.
-/

namespace ThetaSchema

/-! ## Lines and columns -/

namespace Text

/-- The line of the byte behind a text that starts a file: one more than the newlines in the text. -/
def lineBehind (t : Text) : Nat :=
  1 + t.count Byte.newline

/-- The column of the byte behind a text that starts a file: one more than the bytes behind the last newline
of the text. -/
def columnBehind (t : Text) : Nat :=
  1 + (t.reverse.takeWhile (· != Byte.newline)).length

theorem lineBehind_concat (t : Text) (b : UInt8) :
    lineBehind (t ++ [b]) = if b = Byte.newline then lineBehind t + 1 else lineBehind t := by
  rw [lineBehind, List.count_append, List.count_singleton]
  by_cases newline : b = Byte.newline
  · rw [if_pos newline, if_pos (by simpa using newline)]
    rfl
  · rw [if_neg newline, if_neg (by simpa using newline)]
    rfl

theorem columnBehind_concat (t : Text) (b : UInt8) :
    columnBehind (t ++ [b]) = if b = Byte.newline then 1 else columnBehind t + 1 := by
  rw [columnBehind, List.reverse_append, List.reverse_singleton, List.singleton_append]
  by_cases newline : b = Byte.newline
  · rw [if_pos newline, List.takeWhile_cons_of_neg (by simpa using newline)]
    rfl
  · rw [if_neg newline, List.takeWhile_cons_of_pos (by simpa using newline), List.length_cons]
    rfl

/-- Every byte of a text starts at most one line. -/
theorem lineBehind_le (t : Text) : lineBehind t ≤ t.length + 1 := by
  have newlines : t.count Byte.newline ≤ t.length := List.count_le_length
  rw [lineBehind]
  omega

/-- Every byte of a text takes at most one column. -/
theorem columnBehind_le (t : Text) : columnBehind t ≤ t.length + 1 := by
  have bytes := (List.takeWhile_prefix (· != Byte.newline) (l := t.reverse)).length_le
  rw [List.length_reverse] at bytes
  rw [columnBehind]
  omega

/-- A byte that is no newline starts no line. -/
theorem lineBehind_le_length {t : Text} (other : ∃ b ∈ t, b ≠ Byte.newline) : lineBehind t ≤ t.length := by
  have newlines : t.count Byte.newline < t.length := by
    refine lt_of_le_of_ne List.count_le_length fun all => ?_
    obtain ⟨b, mem, other⟩ := other
    exact other (List.count_eq_length.mp all b mem).symm
  rw [lineBehind]
  omega

/-- A text with as many lines as bytes, and one more, has newlines only. -/
theorem eq_newlines_of_lt_lineBehind {t : Text} (full : t.length < lineBehind t) :
    t = List.replicate t.length Byte.newline := by
  refine List.eq_replicate_iff.mpr ⟨rfl, fun b mem => ?_⟩
  by_contra other
  exact Nat.not_le.mpr full (lineBehind_le_length ⟨b, mem, other⟩)

/-- Bytes that are not newlines stay on the line and move the column. -/
theorem columnBehind_append {s : Text} (single : Byte.newline ∉ s) (t : Text) :
    columnBehind (t ++ s) = columnBehind t + s.length := by
  have inside : ∀ b ∈ s.reverse, (b != Byte.newline) = true := by
    intro b mem
    rw [bne_iff_ne]
    rintro rfl
    exact single (List.mem_reverse.mp mem)
  rw [columnBehind, List.reverse_append, List.takeWhile_append_of_pos inside, List.length_append,
    List.length_reverse, columnBehind]
  omega

/-- Behind newlines only, a line has no bytes yet. -/
theorem columnBehind_replicate (n : Nat) : columnBehind (List.replicate n Byte.newline) = 1 := by
  rw [columnBehind, List.reverse_replicate, List.takeWhile_replicate, if_neg (by decide)]
  rfl

end Text

namespace Location

/-- The location of the byte behind a text that starts a file. -/
structure Behind (file t : Text) (l : Location) : Prop where
  file : l.file = file
  line : l.line.toNat = Text.lineBehind t
  column : l.column.toNat = Text.columnBehind t

/-- The same in 32 bits. -/
def behind (file t : Text) : Location :=
  ⟨file, (Text.lineBehind t).toUInt32, (Text.columnBehind t).toUInt32⟩

/-- Lines and columns of texts that are not too long fit in 32 bits. -/
theorem behind_behind {t : Text} (file : Text) (short : t.length + 1 < UInt32.size) :
    Behind file t (behind file t) := by
  have line := Text.lineBehind_le t
  have column := Text.columnBehind_le t
  rw [UInt32.size] at short
  exact ⟨rfl, Nat.mod_eq_of_lt (by omega), Nat.mod_eq_of_lt (by omega)⟩

/-- Behind newlines only, each of them starts a line. -/
theorem behind_newlines (file : Text) (n : Nat) :
    behind file (List.replicate n Byte.newline) = ⟨file, (1 + n).toUInt32, 1⟩ := by
  rw [behind, Text.columnBehind_replicate, Text.lineBehind, List.count_replicate_self]
  rfl

/-- A location stands for one place: a longer text has more lines, or a longer last line. -/
theorem Behind.eq_nil_of_append {file file' s t : Text} {l : Location} (h : l.Behind file t)
    (h' : l.Behind file' (t ++ s)) : s = [] := by
  have line := h.line.symm.trans h'.line
  rw [Text.lineBehind, Text.lineBehind, List.count_append] at line
  have single : Byte.newline ∉ s := List.count_eq_zero.mp (by omega)
  have column := h.column.symm.trans h'.column
  rw [Text.columnBehind_append single] at column
  exact List.length_eq_zero_iff.mp (by omega)

/-- A location stands for one place of a text. -/
theorem Behind.eq_of_isPrefix {file file' s t u : Text} {l : Location} (h : l.Behind file s)
    (h' : l.Behind file' t) (front : s <+: u) (front' : t <+: u) : s = t := by
  rcases List.prefix_or_prefix_of_prefix front front' with ⟨others, rfl⟩ | ⟨others, rfl⟩
  · rw [h.eq_nil_of_append h', List.append_nil]
  · rw [h'.eq_nil_of_append h, List.append_nil]

end Location

/-- The position behind a text that starts a file. -/
theorem Position.advance_behind (t : Text) :
    (({} : Position).advance t).line = (Text.lineBehind t).toUInt32 ∧
      (({} : Position).advance t).column = (Text.columnBehind t).toUInt32 := by
  induction t using List.reverseRecOn with
  | nil => exact ⟨rfl, rfl⟩
  | append_singleton t b ih =>
    rw [advance_append, advance_cons, advance_nil, Text.lineBehind_concat, Text.columnBehind_concat, next]
    by_cases newline : b = Byte.newline
    · rw [if_pos newline, if_pos newline, if_pos newline, ih.1]
      exact ⟨(UInt32.ofNat_add _ _).symm, rfl⟩
    · rw [if_neg newline, if_neg newline, if_neg newline, ih.2]
      exact ⟨ih.1, (UInt32.ofNat_add _ _).symm⟩

/-- A token that is placed behind a text has the location there. -/
theorem Token.location_place (file t : Text) (kind : TokenKind) (text : Text) :
    (place file (({} : Position).advance t) kind text).location = .behind file t := by
  rw [place, Location.behind, (Position.advance_behind t).1, (Position.advance_behind t).2]

/-- A token that is placed behind a text has the number of its bytes as its offset. -/
theorem Token.offset_place (file t : Text) (kind : TokenKind) (text : Text) :
    (place file (({} : Position).advance t) kind text).offset = t.length.toUInt64 := by
  rw [place, Position.advance_offset, UInt64.zero_add]

/-- A token behind a text is made of its kind, its text and its place. -/
theorem Token.place_eq (file t : Text) (kind : TokenKind) (text : Text) :
    place file (({} : Position).advance t) kind text = ⟨kind, text, .behind file t, t.length.toUInt64⟩ := by
  rw [← location_place file t kind text, ← offset_place file t kind text]
  rfl

/-- The lengths of texts that are not too long fit in an offset. -/
theorem Text.toNat_length {t : Text} (short : t.length < UInt32.size) : t.length.toUInt64.toNat = t.length := by
  rw [UInt32.size] at short
  exact Nat.mod_eq_of_lt (by omega)

/-! ## Spans -/

/-- A token with the stretch of a text that it covers: what stands before it, its bytes, and what follows. -/
structure Span where
  token : Token
  before : Text
  extent : Text
  after : Text
  deriving DecidableEq, Repr

namespace Span

/-- The offset of the first byte. -/
def start (s : Span) : Nat :=
  s.before.length

/-- The offset behind the last byte. -/
def stop (s : Span) : Nat :=
  s.before.length + s.extent.length

/-- The spans of the tokens among lexemes, given the bytes before the first one. -/
def ofLexemes (file before : Text) : List Lexeme → List Span
  | [] => []
  | l :: others =>
    (l.token?.map fun token => (⟨Token.place file (({} : Position).advance before) token.1 token.2, before,
      l.extent, l.rest⟩ : Span)).toList ++ ofLexemes file (before ++ l.extent) others

/-- The spans of the tokens of a text. -/
def ofText (file t : Text) : List Span :=
  ofLexemes file [] (Lexeme.ofText t)

/-- A span of a text, with a token that covers it and that has the place of its first byte, as far as machine
words reach.  A separator is the whole of a run of dashes. -/
structure FoundIn (file t : Text) (s : Span) : Prop where
  whole : s.before ++ s.extent ++ s.after = t
  nonempty : s.extent ≠ []
  covers : s.token.kind.Covers s.after s.token.text s.extent
  location : s.token.location = .behind file s.before
  offset : s.token.offset = s.before.length.toUInt64
  dashes : s.token.kind = .separator → s.before.getLast? ≠ some Byte.dash

/-- A span of a text whose token has exactly the place of its first byte. -/
structure PlacedIn (file t : Text) (s : Span) : Prop extends s.FoundIn file t where
  behind : s.token.location.Behind file s.before
  toNat_offset : s.token.offset.toNat = s.start

variable {file t : Text} {s : Span}

/-- The tokens of the spans of lexemes are the tokens of the lexemes. -/
theorem map_token_ofLexemes (file before : Text) (ls : List Lexeme) :
    (ofLexemes file before ls).map token = Token.scanLexemes file (({} : Position).advance before) ls := by
  induction ls generalizing before with
  | nil => rfl
  | cons l others ih =>
    rw [ofLexemes, Token.scanLexemes, List.map_append, ih, Position.advance_append]
    cases l.token? <;> rfl

/-- The tokens of the spans of a text are the tokens of the text. -/
theorem map_token_ofText (file t : Text) : (ofText file t).map token = Token.scan file {} t :=
  map_token_ofLexemes file [] _

namespace FoundIn

theorem start_lt_stop (h : s.FoundIn file t) : s.start < s.stop := by
  have positive := List.length_pos_iff.mpr h.nonempty
  rw [start, stop]
  omega

/-- A span ends within its text. -/
theorem stop_le (h : s.FoundIn file t) : s.stop ≤ t.length := by
  rw [← h.whole, List.length_append, List.length_append, stop]
  omega

/-- In a text that is not too long no machine word overflows before the end. -/
theorem placedIn (short : t.length < UInt32.size) (h : s.FoundIn file t) : s.PlacedIn file t := by
  have inside : s.start < t.length := lt_of_lt_of_le h.start_lt_stop h.stop_le
  refine ⟨h, ?_, ?_⟩
  · rw [h.location]
    exact Location.behind_behind file (Nat.lt_of_le_of_lt inside short)
  · rw [h.offset]
    exact Text.toNat_length (inside.trans short)

end FoundIn
end Span

/-! ## Tilings -/

/-- The byte of a text at an index belongs to a gap that starts at an offset or later and that no span
reaches into. -/
def Text.InGap (t : Text) (spans : List Span) (start i : Nat) : Prop :=
  ∃ before gap after, before ++ gap ++ after = t ∧ Gap after gap ∧ start ≤ before.length ∧
    before.length ≤ i ∧ i < before.length + gap.length ∧
    ∀ s ∈ spans, s.stop ≤ before.length ∨ before.length + gap.length ≤ s.start

theorem Text.InGap.mono {t : Text} {spans : List Span} {start start' i : Nat} (h : t.InGap spans start i)
    (le : start' ≤ start) : t.InGap spans start' i := by
  obtain ⟨before, gap, after, whole, isGap, behind, first, last, apart⟩ := h
  exact ⟨before, gap, after, whole, isGap, by omega, first, last, apart⟩

/-- Spans of a text from an offset on, one after the other and without an overlap, such that every byte from
the offset on belongs to a span or to a gap. -/
structure Tiling (file t : Text) (start : Nat) (spans : List Span) : Prop where
  found : ∀ s ∈ spans, s.FoundIn file t
  bounded : ∀ s ∈ spans, start ≤ s.start
  ordered : spans.Pairwise fun s u => s.stop ≤ u.start
  gaps : ∀ i, start ≤ i → i < t.length → (∃ s ∈ spans, s.start ≤ i ∧ i < s.stop) ∨ t.InGap spans start i

namespace Tiling

variable {file t : Text} {spans : List Span}

theorem nil (file t : Text) : Tiling file t t.length [] where
  found := by simp
  bounded := by simp
  ordered := .nil
  gaps i behind inside := absurd inside (by omega)

/-- A gap in front of a tiling. -/
theorem skip {before gap after : Text} (whole : before ++ gap ++ after = t) (isGap : Gap after gap)
    (h : Tiling file t (before.length + gap.length) spans) : Tiling file t before.length spans where
  found := h.found
  bounded s mem := by
    have behind := h.bounded s mem
    omega
  ordered := h.ordered
  gaps i behind inside := by
    by_cases inGap : i < before.length + gap.length
    · right
      exact ⟨before, gap, after, whole, isGap, le_rfl, behind, inGap, fun s mem => .inr (h.bounded s mem)⟩
    · rcases h.gaps i (by omega) inside with covered | later
      · exact .inl covered
      · exact .inr (later.mono (by omega))

/-- A span in front of a tiling. -/
theorem cons {s : Span} (found : s.FoundIn file t) (h : Tiling file t s.stop spans) :
    Tiling file t s.start (s :: spans) where
  found := List.forall_mem_cons.mpr ⟨found, h.found⟩
  bounded := by
    refine List.forall_mem_cons.mpr ⟨le_rfl, fun u mem => ?_⟩
    have behind := h.bounded u mem
    have positive := found.start_lt_stop
    omega
  ordered := List.pairwise_cons.mpr ⟨h.bounded, h.ordered⟩
  gaps i behind inside := by
    by_cases covered : i < s.stop
    · exact .inl ⟨s, List.mem_cons_self, behind, covered⟩
    · rcases h.gaps i (by omega) inside with ⟨u, mem, here⟩ | ⟨before, gap, after, whole, isGap, first, others⟩
      · exact .inl ⟨u, List.mem_cons_of_mem s mem, here⟩
      · right
        have positive := found.start_lt_stop
        refine ⟨before, gap, after, whole, isGap, by omega, others.1, others.2.1, ?_⟩
        exact List.forall_mem_cons.mpr ⟨.inl first, others.2.2⟩

end Tiling

/-! ## Tokens tile their text -/

/-- The token of a lexeme covers a span. -/
theorem Lexeme.found_of_read {b : UInt8} {before rest t : Text} {kind : TokenKind} {text : Text}
    (whole : before ++ b :: rest = t) (file : Text)
    (seam : before.getLast? = some Byte.dash → ¬ ("---" : Text) <+: b :: rest)
    (read : (read b rest).token? = some (kind, text)) :
    Span.FoundIn file t ⟨Token.place file (({} : Position).advance before) kind text, before,
      (Lexeme.read b rest).extent, (Lexeme.read b rest).rest⟩ := by
  have formed := Lexeme.read_formed b rest
  rw [Lexeme.Formed, read] at formed
  refine ⟨?_, Lexeme.read_extent_ne_nil b rest, formed, Token.location_place file before kind text,
    Token.offset_place file before kind text, ?_⟩
  · rw [List.append_assoc, Lexeme.read_extent_append_rest, whole]
  · rintro isSeparator dash
    cases isSeparator
    obtain ⟨-, ⟨n, three, dashes⟩, -⟩ := formed
    obtain ⟨more, rfl⟩ := Nat.exists_eq_add_of_le three
    apply seam dash
    rw [← Lexeme.read_extent_append_rest b rest, dashes, ← List.replicate_append_replicate, List.append_assoc]
    exact List.prefix_append _ _

/-- The spans from a place of a text on tile the text from there on. -/
theorem Span.ofLexemes_tiling (file : Text) {before rest t : Text} (whole : before ++ rest = t)
    (seam : before.getLast? = some Byte.dash → ¬ ("---" : Text) <+: rest) :
    Tiling file t before.length (ofLexemes file before (Lexeme.ofText rest)) := by
  fun_induction Lexeme.ofText rest generalizing before with
  | case1 =>
    rw [List.append_nil] at whole
    rw [whole]
    exact .nil file t
  | case2 b rest ih =>
    have formed := Lexeme.read_formed b rest
    have nonempty := Lexeme.read_extent_ne_nil b rest
    have pieces : before ++ (Lexeme.read b rest).extent ++ (Lexeme.read b rest).rest = t := by
      rw [List.append_assoc, Lexeme.read_extent_append_rest, whole]
    have last : (before ++ (Lexeme.read b rest).extent).getLast? = (Lexeme.read b rest).extent.getLast? := by
      rw [List.getLast?_append, List.getLast?_eq_some_getLast nonempty, Option.some_or]
    have behind := ih pieces (by rw [last]; exact formed.seam)
    rw [List.length_append] at behind
    rw [ofLexemes]
    cases read : (Lexeme.read b rest).token? with
    | none =>
      rw [Lexeme.Formed, read] at formed
      exact behind.skip pieces formed
    | some token => exact behind.cons (Lexeme.found_of_read whole file seam read)

/-- The spans of a text tile it. -/
theorem Span.ofText_tiling (file t : Text) : Tiling file t 0 (ofText file t) :=
  ofLexemes_tiling file (List.nil_append t) (by simp)

/-- The end mark of a text: it covers nothing, behind the last byte. -/
structure Token.Ends (t : Text) (stop : Token) : Prop where
  kind : stop.kind = .endOfInput
  text : stop.text = []
  offset : stop.offset.toNat = t.length

/-- A text of one and the same blank has no token but the end mark. -/
theorem Token.ofText_replicate (file : Text) (n : Nat) {b : UInt8} (blank : Byte.isBlank b = true) :
    ofText file (List.replicate n b) =
      [⟨.endOfInput, [], .behind file (List.replicate n b), n.toUInt64⟩] := by
  have blanks : (List.replicate n b).all Byte.isBlank = true := by rw [List.all_replicate, blank, ite_self]
  have nothing : Scans file {} (List.replicate n b) [] [] := Scans.blanks blanks
  rw [Scans, List.append_nil, scan_nil, List.append_nil] at nothing
  rw [ofText_eq, nothing, List.nil_append, place_eq, List.length_replicate]

/-- The end mark behind newlines only. -/
theorem Token.ofText_newlines (file : Text) (n : Nat) :
    ofText file (List.replicate n Byte.newline) =
      [⟨.endOfInput, [], ⟨file, (1 + n).toUInt32, 1⟩, n.toUInt64⟩] := by
  rw [ofText_replicate file n (by decide), Location.behind_newlines]

end ThetaSchema
