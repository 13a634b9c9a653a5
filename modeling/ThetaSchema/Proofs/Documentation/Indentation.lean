import ThetaSchema.Documentation
import ThetaSchema.Proofs.Text.Lines

/-!
# Indentation of documentation blocks

How far a documentation block is indented does not matter for its text.  With blanks in front of every line
but the first, starred and blank lines are read as before, and the other lines are indented by as much as the
least indentation grows, so that what is cut away from each of them takes up the difference.

Main definitions:

- `Text.indentLater`: a text with more in front of every line but the first.
- `Documentation.Continuation.indented`: what becomes of a line of a block.

Main results:

- `Documentation.Continuation.ofLine_append`: an indented line is read as the line, indented.
- `Documentation.commonIndentation_indented`: the least indentation grows by what is put in front.
- `Documentation.ofBlock_indentLater`: the text of a block does not depend on its indentation.
-/

namespace ThetaSchema

/-! ## Indented texts -/

namespace Text

/-- A text with more in front of every line but the first. -/
def indentLater (w t : Text) : Text :=
  match lines t with
  | [] => []
  | first :: others => unlines (first :: others.map (w ++ ·))

theorem lines_indentLater {w t first : Text} {others : List Text} (h : lines t = first :: others)
    (apart : Byte.newline ∉ w) : lines (indentLater w t) = first :: others.map (w ++ ·) := by
  have inLine : ∀ l ∈ first :: others, Byte.newline ∉ l := fun l mem => not_mem_of_mem_lines (h ▸ mem)
  rw [indentLater, h]
  refine lines_unlines (List.cons_ne_nil _ _) fun l mem => ?_
  rcases List.mem_cons.mp mem with rfl | later
  · exact inLine l List.mem_cons_self
  · obtain ⟨line, mem', rfl⟩ := List.mem_map.mp later
    rw [List.mem_append, not_or]
    exact ⟨apart, inLine line (List.mem_cons_of_mem first mem')⟩

/-- Bytes of a class in front of a text are dropped with it if nothing of it is left. -/
theorem trimEnd_append {q : UInt8 → Bool} {w : Text} (all : ∀ b ∈ w, q b = true) (t : Text) :
    trimEnd q (w ++ t) = if trimEnd q t = [] then [] else w ++ trimEnd q t := by
  have reversed : w.reverse.dropWhile q = [] := by simpa [List.dropWhile_eq_nil_iff] using all
  rw [trimEnd, trimEnd, List.reverse_append, List.dropWhile_append]
  cases left : t.reverse.dropWhile q with
  | nil => simp [reversed]
  | cons b rest => simp

end Text

namespace Documentation

/-! ## Lines of a block -/

namespace Continuation

/-- A line with more in front of it: the text of a line that is neither starred nor blank begins with it. -/
def indented (w : Text) : Continuation → Continuation
  | starred text => starred text
  | plain [] => plain []
  | plain (b :: text) => plain (w ++ b :: text)

variable {w : Text} (blank : ∀ b ∈ w, Byte.isHorizontal b = true)

include blank

/-- A line with blanks in front of it is read as the line, indented by them. -/
theorem ofLine_append (line : Text) : ofLine (w ++ line) = (ofLine line).indented w := by
  have stripped : (w ++ line).dropWhile Byte.isHorizontal = line.dropWhile Byte.isHorizontal :=
    List.dropWhile_append_of_pos blank
  rw [ofLine, ofLine, stripped]
  by_cases star : (line.dropWhile Byte.isHorizontal).head? = some Byte.star
  · simp only [star, if_true, indented]
  · simp only [star, if_false]
    rw [Text.trimEnd_append blank]
    cases Text.trimEnd Byte.isHorizontal line with
    | nil => rfl
    | cons b text => rfl

/-- The indentation of a line that has one grows by the blanks in front of it. -/
theorem indentation?_indented (c : Continuation) :
    (c.indented w).indentation? = c.indentation?.map (w.length + ·) := by
  cases c with
  | starred text => rfl
  | plain text =>
    cases text with
    | nil => rfl
    | cons b text =>
      have counted : ((w ++ b :: text).takeWhile Byte.isHorizontal).length =
          w.length + ((b :: text).takeWhile Byte.isHorizontal).length := by
        rw [List.takeWhile_append_of_pos blank, List.length_append]
      rw [indented]
      cases w with
      | nil => simp [indentation?]
      | cons a w => exact congrArg some counted

end Continuation

/-! ## The least indentation -/

section

variable {w : Text} (blank : ∀ b ∈ w, Byte.isHorizontal b = true) {cs : List Continuation}

include blank

/-- Where lines have an indentation, the least one grows by what is put in front of every line. -/
theorem commonIndentation_indented (counted : cs.filterMap Continuation.indentation? ≠ []) :
    commonIndentation (cs.map (Continuation.indented w)) = w.length + commonIndentation cs := by
  obtain ⟨least, found⟩ := Option.ne_none_iff_exists'.mp (List.min?_eq_none_iff.not.mpr counted)
  obtain ⟨mem, below⟩ := List.min?_eq_some_iff.mp found
  have grown : (cs.map (Continuation.indented w)).filterMap Continuation.indentation? =
      (cs.filterMap Continuation.indentation?).map (w.length + ·) := by
    rw [List.filterMap_map, List.map_filterMap]
    exact congrArg (List.filterMap · cs) (funext (Continuation.indentation?_indented blank))
  have least' : ((cs.filterMap Continuation.indentation?).map (w.length + ·)).min? =
      some (w.length + least) := by
    rw [List.min?_eq_some_iff]
    refine ⟨List.mem_map_of_mem mem, fun n inside => ?_⟩
    obtain ⟨m, mem', rfl⟩ := List.mem_map.mp inside
    exact Nat.add_le_add_left (below m mem') _
  rw [commonIndentation, commonIndentation, grown, least', found]
  rfl

/-- What is cut away from a line takes up what was put in front of it. -/
theorem settle_indented {c : Continuation} (mem : c ∈ cs) :
    (c.indented w).settle (commonIndentation (cs.map (Continuation.indented w))) =
      c.settle (commonIndentation cs) := by
  cases c with
  | starred text => rfl
  | plain text =>
    cases text with
    | nil => simp [Continuation.indented, Continuation.settle]
    | cons b text =>
      -- the line has an indentation itself, so there is a least one
      have counted : cs.filterMap Continuation.indentation? ≠ [] :=
        List.ne_nil_of_mem (List.mem_filterMap.mpr ⟨_, mem, rfl⟩)
      rw [commonIndentation_indented blank counted, Continuation.indented, Continuation.settle,
        Continuation.settle, List.drop_append, List.drop_of_length_le (Nat.le_add_right _ _),
        Nat.add_sub_cancel_left, List.nil_append]

end

/-! ## Blocks -/

/-- The text of a block stays the same when the same blanks are put in front of every line but the first. -/
theorem ofBlock_indentLater {w : Text} (blank : ∀ b ∈ w, Byte.isHorizontal b = true) (body : Text) :
    ofBlock (Text.indentLater w body) = ofBlock body := by
  have apart : Byte.newline ∉ w := by
    intro mem
    have horizontal := blank _ mem
    revert horizontal
    decide
  obtain ⟨first, others, split⟩ := List.exists_cons_of_ne_nil (Text.lines_ne_nil body)
  have read : (others.map (w ++ ·)).map Continuation.ofLine =
      (others.map Continuation.ofLine).map (Continuation.indented w) := by
    rw [List.map_map, List.map_map]
    exact List.map_congr_left fun line _ => Continuation.ofLine_append blank line
  rw [ofBlock, ofBlock, Text.lines_indentLater split apart, split]
  dsimp only
  rw [read, List.map_map]
  exact congrArg (fun later => assemble (_ :: later)) (List.map_congr_left fun c mem => settle_indented blank mem)

/-- A block with a starred line, a blank one and two lines of different indentation, moved to the right by a
space, a tab and a carriage return. -/
theorem ofBlock_indentLater_mixed :
    (∀ b ∈ ([32, 9, 13] : Text), Byte.isHorizontal b = true) ∧
      ofBlock (Text.indentLater [32, 9, 13] "first\n  * starred\n    plain\n  \n\t     deeper ") =
        ofBlock "first\n  * starred\n    plain\n  \n\t     deeper " ∧
      ofBlock "first\n  * starred\n    plain\n  \n\t     deeper " = "first\nstarred\nplain\n\n  deeper" := by
  have blank : ∀ b ∈ ([32, 9, 13] : Text), Byte.isHorizontal b = true := by decide +kernel
  exact ⟨blank, ofBlock_indentLater blank _, by decide +kernel⟩

end Documentation
end ThetaSchema
