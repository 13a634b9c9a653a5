import ThetaSchema.Proofs.Text.Lines
import ThetaSchema.Proofs.Token.Scan
import ThetaSchema.Schema.Printer

/-!
# Normal documentation

The text of a documentation comment is in a normal form: nothing is left to trim at its ends or at the end
of a line, and a later line is indented only in a text that cannot close a block.  So it is known from the
text alone how it may be written.

Main definitions:

- `Documentation.IsNormal`: the normal form.

Main results:

- `Documentation.ofLines_isNormal`, `Documentation.ofBlock_isNormal`: comments are read to normal texts.
- `Lexeme.isNormal_of_read`: so are the documentation tokens of every text.
-/

namespace ThetaSchema

/-! ## Closing marks -/

/-- The closing mark of a block is a star in front of a slash. -/
theorem containsClose_eq_true_iff {t : Text} :
    containsClose t = true ↔ [Byte.star, Byte.slash] <:+: t := by
  induction t with
  | nil => simp [containsClose]
  | cons b t ih =>
    rw [containsClose, Bool.or_eq_true, ih, List.infix_cons_iff, List.cons_prefix_cons,
      Bool.and_eq_true, beq_iff_eq, beq_iff_eq, @eq_comm _ b]
    cases t with
    | nil => simp
    | cons c t => simp [@eq_comm _ c]

/-- The search for the end of a comment decides whether there is one inside. -/
theorem containsClose_eq_false_iff {t : Text} :
    containsClose t = false ↔ ¬ [Byte.star, Byte.slash] <:+: t := by
  rw [← containsClose_eq_true_iff, Bool.not_eq_true]

/-- What stands before the first closing mark has none. -/
theorem Lexeme.containsClose_of_cutAtClose {t body after : Text}
    (h : cutAtClose t = some (body, after)) : containsClose body = false := by
  induction t generalizing body with
  | nil => cases h
  | cons b t ih =>
    rw [cutAtClose] at h
    split at h
    · cases h
      rfl
    · next noClose =>
      rcases Option.map_eq_some_iff.mp h with ⟨⟨inner, behind⟩, cut, same⟩
      cases same
      rw [containsClose, ih cut, Bool.or_false, Bool.and_eq_false_iff]
      have whole := cutAtClose_eq_some cut
      rw [whole] at noClose
      by_cases isStar : b = Byte.star
      · right
        cases inner with
        | nil => rfl
        | cons c inner => simpa [isStar] using noClose
      · left
        simpa using isStar

/-! ## The normal form -/

namespace Documentation

/-- The form of documentation texts: no white space around the text or at the end of a line, and no
closing mark where a later line is indented. -/
structure IsNormal (d : Text) : Prop where
  first : ∀ b ∈ d.head?, Byte.isSpace b = false
  last : ∀ b ∈ d.getLast?, Byte.isSpace b = false
  ends : ∀ line ∈ Text.lines d, ∀ b ∈ line.getLast?, Byte.isHorizontal b = false
  closed : (∃ line ∈ (Text.lines d).drop 1, isIndented line = true) → containsClose d = false

/-- What is blank within a line is blank. -/
theorem isSpace_of_isHorizontal {b : UInt8} (h : Byte.isHorizontal b = true) :
    Byte.isSpace b = true := by
  simp [Byte.isSpace, Byte.isBlank, h]

/-- What is not blank is not blank within a line. -/
theorem isHorizontal_of_isSpace {b : UInt8} (h : Byte.isSpace b = false) :
    Byte.isHorizontal b = false := by
  cases blank : Byte.isHorizontal b with
  | false => rfl
  | true =>
    rw [isSpace_of_isHorizontal blank] at h
    cases h

theorem isHorizontal_newline : Byte.isHorizontal Byte.newline = false := by decide

/-- An indented line starts with a blank. -/
theorem isHorizontal_of_isIndented {line : Text} (h : isIndented line = true) :
    ∃ b, line.head? = some b ∧ Byte.isHorizontal b = true := by
  rw [isIndented, Bool.or_eq_true, beq_iff_eq, beq_iff_eq] at h
  rcases h with space | tab
  · exact ⟨Byte.space, space, by decide⟩
  · exact ⟨9, tab, by decide⟩

/-- Neighbours in a text that is put together from lines stand in one of the lines, at the end of a line
before a newline, or at the start of a later line behind one. -/
theorem pair_infix_assemble {a b : UInt8} {ls : List Text} (h : [a, b] <:+: assemble ls) :
    (∃ l ∈ ls, [a, b] <:+: l) ∨
      (b = Byte.newline ∧ (a = Byte.newline ∨ ∃ l ∈ ls, l.getLast? = some a)) ∨
        (a = Byte.newline ∧ (b = Byte.newline ∨ ∃ l ∈ ls.drop 1, l.head? = some b)) :=
  Text.pair_infix_unlines (h.trans (Text.trim_infix _ _))

variable {ls : List Text}

/-- Lines that end without blanks make up a text whose lines end so. -/
theorem assemble_ends (apart : ∀ l ∈ ls, Byte.newline ∉ l)
    (ends : ∀ l ∈ ls, ∀ b ∈ l.getLast?, Byte.isHorizontal b = false) :
    ∀ line ∈ Text.lines (assemble ls), ∀ b ∈ line.getLast?, Byte.isHorizontal b = false := by
  intro line mem b last
  have place := Text.pair_infix_of_getLast? mem last
  rw [Text.unlines_lines] at place
  rcases place with whole | inside
  · exact isHorizontal_of_isSpace (Text.getLast?_trim b whole)
  · rcases pair_infix_assemble inside with
      ⟨l, inLines, within⟩ | ⟨-, newline | ⟨l, inLines, ending⟩⟩ | ⟨newline, -⟩
    · exact absurd (within.subset (by simp)) (apart l inLines)
    · rw [newline]
      exact isHorizontal_newline
    · exact ends l inLines b ending
    · rw [newline]
      exact isHorizontal_newline

/-- Lines of which none starts with a blank make up a text whose later lines start without one. -/
theorem assemble_starts (apart : ∀ l ∈ ls, Byte.newline ∉ l)
    (starts : ∀ l ∈ ls, ∀ b ∈ l.head?, Byte.isHorizontal b = false) :
    ∀ line ∈ (Text.lines (assemble ls)).drop 1, ∀ b ∈ line.head?, Byte.isHorizontal b = false := by
  intro line mem b first
  have inside := Text.pair_infix_of_head? mem first
  rw [Text.unlines_lines] at inside
  rcases pair_infix_assemble inside with
    ⟨l, inLines, within⟩ | ⟨newline, -⟩ | ⟨-, newline | ⟨l, inLines, starting⟩⟩
  · exact absurd (within.subset (by simp)) (apart l inLines)
  · rw [newline]
    exact isHorizontal_newline
  · rw [newline]
    exact isHorizontal_newline
  · exact starts l (List.mem_of_mem_drop inLines) b starting

/-- Lines without a closing mark make up a text without one. -/
theorem containsClose_assemble (closed : ∀ l ∈ ls, containsClose l = false) :
    containsClose (assemble ls) = false := by
  rw [containsClose_eq_false_iff]
  intro inside
  rcases pair_infix_assemble inside with ⟨l, inLines, within⟩ | ⟨newline, -⟩ | ⟨newline, -⟩
  · exact containsClose_eq_false_iff.mp (closed l inLines) within
  · cases newline
  · cases newline

/-! ## Comments are read to normal texts -/

/-- Trimming lines brings no newline into them. -/
theorem not_mem_map_trim (apart : ∀ l ∈ ls, Byte.newline ∉ l) :
    ∀ l ∈ ls.map (Text.trim Byte.isHorizontal), Byte.newline ∉ l := by
  intro l mem inside
  rcases List.mem_map.mp mem with ⟨line, inLines, rfl⟩
  exact apart line inLines ((Text.trim_infix _ _).subset inside)

/-- The lines of a run of documentation lines lose the blanks in front of them. -/
theorem ofLines_starts (apart : ∀ l ∈ ls, Byte.newline ∉ l) :
    ∀ line ∈ (Text.lines (ofLines ls)).drop 1, ∀ b ∈ line.head?, Byte.isHorizontal b = false := by
  refine assemble_starts (not_mem_map_trim apart) fun l mem => ?_
  rcases List.mem_map.mp mem with ⟨line, -, rfl⟩
  exact Text.head?_trim

/-- The lines of a run of documentation lines are read to a normal text. -/
theorem ofLines_isNormal (apart : ∀ l ∈ ls, Byte.newline ∉ l) : IsNormal (ofLines ls) := by
  refine ⟨Text.head?_trim, Text.getLast?_trim, assemble_ends (not_mem_map_trim apart) ?_, ?_⟩
  · intro l mem
    rcases List.mem_map.mp mem with ⟨line, -, rfl⟩
    exact Text.getLast?_trim
  · rintro ⟨line, later, indented⟩
    rcases isHorizontal_of_isIndented indented with ⟨b, first, blank⟩
    rw [ofLines_starts apart line later b first] at blank
    cases blank

/-- The text of a continuation line is a stretch of the line, and ends without blanks. -/
theorem settle_ofLine (common : Nat) (line : Text) :
    (Continuation.ofLine line).settle common <:+: line ∧
      ∀ b ∈ ((Continuation.ofLine line).settle common).getLast?, Byte.isHorizontal b = false := by
  unfold Continuation.ofLine
  have stripped : line.dropWhile Byte.isHorizontal <:+ line := List.dropWhile_suffix _
  dsimp only
  split
  · refine ⟨?_, Text.getLast?_trimEnd⟩
    rw [Continuation.settle]
    refine (Text.trimEnd_isPrefix _ _).isInfix.trans ?_
    split
    · exact ((List.tail_suffix _).trans ((List.tail_suffix _).trans stripped)).isInfix
    · exact ((List.tail_suffix _).trans stripped).isInfix
  · rw [Continuation.settle]
    refine ⟨(List.drop_suffix _ _).isInfix.trans (Text.trimEnd_isPrefix _ _).isInfix, ?_⟩
    intro b last
    rw [List.getLast?_drop] at last
    split at last
    · cases last
    · exact Text.getLast?_trimEnd b last

/-- A block without a closing mark is read to a normal text. -/
theorem ofBlock_isNormal {body : Text} (closed : containsClose body = false) :
    IsNormal (ofBlock body) := by
  rw [containsClose_eq_false_iff] at closed
  unfold ofBlock
  split
  · next none => exact absurd none (Text.lines_ne_nil body)
  · next first others split =>
    dsimp only
    generalize commonIndentation (others.map Continuation.ofLine) = common
    -- Every line of the text is a stretch of a line of the block, and ends without blanks.
    have lines : ∀ l ∈ Text.trim Byte.isHorizontal first ::
        (others.map Continuation.ofLine).map (Continuation.settle common),
        (∃ line ∈ Text.lines body, l <:+: line) ∧
          ∀ b ∈ l.getLast?, Byte.isHorizontal b = false := by
      intro l mem
      rw [split, List.mem_cons, List.map_map, List.mem_map] at *
      rcases mem with rfl | ⟨line, inLines, rfl⟩
      · exact ⟨⟨first, List.mem_cons_self, Text.trim_infix _ _⟩, Text.getLast?_trim⟩
      · rcases settle_ofLine common line with ⟨stretch, ends⟩
        exact ⟨⟨line, List.mem_cons_of_mem first inLines, stretch⟩, ends⟩
    refine ⟨Text.head?_trim, Text.getLast?_trim, assemble_ends ?_ (fun l mem => (lines l mem).2), ?_⟩
    · intro l mem inside
      rcases (lines l mem).1 with ⟨line, inLines, stretch⟩
      exact Text.not_mem_of_mem_lines inLines (stretch.subset inside)
    · intro _
      refine containsClose_assemble fun l mem => ?_
      rcases (lines l mem).1 with ⟨line, inLines, stretch⟩
      rw [containsClose_eq_false_iff]
      intro inside
      have whole := Text.infix_unlines inLines
      rw [Text.unlines_lines] at whole
      exact closed (inside.trans (stretch.trans whole))

end Documentation

/-! ## Documentation tokens -/

namespace Lexeme

/-- The first line of a text ends in front of the newline. -/
theorem not_mem_firstLine (t : Text) : Byte.newline ∉ firstLine t := by
  intro inside
  have other := List.all_eq_true.mp (List.all_takeWhile (p := fun b => b != Byte.newline)) _ inside
  simp at other

/-- The lines of a documentation comment have no newline in them. -/
theorem not_mem_docRun (t : Text) : ∀ l ∈ (docRun t).lines, Byte.newline ∉ l := by
  fun_induction docRun t with
  | case1 t next opens run ih =>
    intro l mem
    rcases List.mem_cons.mp mem with rfl | later
    · exact not_mem_firstLine t
    · exact ih l later
  | case2 t next opens =>
    intro l mem
    rw [List.mem_singleton.mp mem]
    exact not_mem_firstLine t

/-- Documentation that is read from a comment is normal, whatever kind of comment it is. -/
theorem isNormal_of_ofComment {t text : Text}
    (h : (ofComment t).token? = some (.documentation, text)) : Documentation.IsNormal text := by
  unfold ofComment at h
  split at h
  · cases h
    exact Documentation.ofLines_isNormal (not_mem_docRun _)
  · split at h
    · cases h
    · split at h <;> unfold ofBlock at h <;> split at h
      · next cut =>
        cases h
        exact Documentation.ofBlock_isNormal (containsClose_of_cutAtClose cut)
      all_goals cases h

/-- The text of a documentation token is normal. -/
theorem isNormal_of_read {b : UInt8} {rest text : Text}
    (h : (read b rest).token? = some (.documentation, text)) : Documentation.IsNormal text := by
  unfold read at h
  split at h
  · cases h
  · split at h
    · exact isNormal_of_ofComment h
    · split at h
      · cases h
      · split at h
        · cases h
        · split at h
          · simp only [Option.some.injEq, Prod.mk.injEq] at h
            split at h <;> cases h.1
          · revert h
            fun_cases punctuation b <;> simp

end Lexeme
end ThetaSchema
