import ThetaSchema.Proofs.Documentation.Normal

/-!
# Written documentation is read back

A documentation comment is written as lines, or as a block where a later line is indented.  In both forms
the comment is scanned as one token, and the token carries the text that was written.

Main definitions:

- `Documentation.readBack`: the text of that token.
- `Documentation.Survives`: a condition on texts, that of being read back as they were.

Main results:

- `Scans.docLines`, `Scans.docBlock`: the two forms of a comment are scanned as one token.
- `Scans.writeDoc`: so is the form in which a normal text is written.
- `Documentation.readBack_eq_iff`: a normal text is read back as it was exactly when it survives.
- `written_documentation_read`: what becomes of the documentation tokens of any text.
-/

namespace ThetaSchema

/-- What stands behind the mark of a documentation line: a space and the text, if there is any. -/
def paddedLine (line : Text) : Text :=
  Text.onlyIf (!line.isEmpty) (Byte.space :: line)

theorem docLine_eq (mark line : Text) :
    docLine mark line = mark ++ paddedLine line ++ [Byte.newline] := rfl

theorem paddedLine_nil : paddedLine [] = [] := rfl

theorem paddedLine_cons (b : UInt8) (line : Text) :
    paddedLine (b :: line) = Byte.space :: b :: line := rfl

theorem not_mem_paddedLine {line : Text} (h : Byte.newline ∉ line) :
    Byte.newline ∉ paddedLine line := by
  cases line with
  | nil => exact h
  | cons b line =>
    rw [paddedLine_cons, List.mem_cons, not_or]
    exact ⟨by decide, h⟩

/-! ## Lines -/

namespace Lexeme

variable {k : Text}

/-- A first line ends at the newline that is put behind it. -/
theorem firstLine_append_newline {t : Text} (h : Byte.newline ∉ t) (rest : Text) :
    firstLine (t ++ Byte.newline :: rest) = t ∧
      afterFirstLine (t ++ Byte.newline :: rest) = Byte.newline :: rest := by
  have inside : ∀ b ∈ t, (b != Byte.newline) = true := by
    intro b mem
    rw [bne_iff_ne]
    rintro rfl
    exact h mem
  rw [firstLine, afterFirstLine, List.takeWhile_append_of_pos inside,
    List.dropWhile_append_of_pos inside]
  simp

/-- Blanks in front are skipped. -/
theorem afterBlanks_append {t : Text} (blank : t.all Byte.isBlank = true) (rest : Text) :
    afterBlanks (t ++ rest) = afterBlanks rest :=
  List.dropWhile_append_of_pos (List.all_eq_true.mp blank)

theorem afterBlanks_newline (rest : Text) :
    afterBlanks (Byte.newline :: rest) = afterBlanks rest := rfl

/-- Three slashes open a documentation line where a space, a newline or nothing follows. -/
theorem opensDocLine_paddedLine (line rest : Text) :
    opensDocLine ("///" ++ (paddedLine line ++ Byte.newline :: rest)) = true := by
  cases line <;> rfl

/-- Written documentation lines are one run, which ends before the last newline. -/
theorem docRun_docLines {indent : Text} (blank : indent.all Byte.isBlank = true)
    (follows : opensDocLine (afterBlanks k) = false) (line : Text) (others : List Text)
    (apart : ∀ l ∈ line :: others, Byte.newline ∉ l) :
    (docRun (paddedLine line ++ Byte.newline :: (others.flatMap (docLine (indent ++ "///")) ++ k))).lines =
        (line :: others).map paddedLine ∧
      (docRun (paddedLine line ++ Byte.newline :: (others.flatMap (docLine (indent ++ "///")) ++ k))).rest =
        Byte.newline :: k := by
  induction others generalizing line with
  | nil =>
    rcases firstLine_append_newline (not_mem_paddedLine (apart line List.mem_cons_self)) k with
      ⟨first, after⟩
    rw [List.flatMap_nil, List.nil_append, docRun]
    simp only [first, after, afterBlanks_newline, follows]
    exact ⟨rfl, rfl⟩
  | cons next others ih =>
    rcases ih next (fun l mem => apart l (List.mem_cons_of_mem line mem)) with ⟨lines, rest⟩
    have seam : (next :: others).flatMap (docLine (indent ++ "///")) ++ k = indent ++ ("///" ++
        (paddedLine next ++ Byte.newline :: (others.flatMap (docLine (indent ++ "///")) ++ k))) := by
      simp [docLine_eq]
    generalize others.flatMap (docLine (indent ++ "///")) ++ k = behind at lines rest seam
    rcases firstLine_append_newline (not_mem_paddedLine (apart line List.mem_cons_self))
      (indent ++ ("///" ++ (paddedLine next ++ Byte.newline :: behind))) with ⟨first, after⟩
    have start : afterBlanks ("///" ++ (paddedLine next ++ Byte.newline :: behind)) =
      "///" ++ (paddedLine next ++ Byte.newline :: behind) := rfl
    rw [seam, docRun]
    simp only [first, after, afterBlanks_newline, afterBlanks_append blank, start,
      opensDocLine_paddedLine, if_true]
    rw [show ("///" ++ (paddedLine next ++ Byte.newline :: behind) : Text).drop 3 =
      paddedLine next ++ Byte.newline :: behind from rfl, lines, rest]
    exact ⟨rfl, rfl⟩

/-- The lexeme of a run of documentation lines. -/
theorem read_docLines {t : Text} (opens : opensDocLine ("///" ++ t) = true) :
    read Byte.slash ("//" ++ t) =
      ⟨some (.documentation, Documentation.ofLines (docRun t).lines), "///" ++ (docRun t).extent,
        (docRun t).rest⟩ := by
  have comment : opensComment (Byte.slash :: ("//" ++ t)) = true := rfl
  have whole : (Byte.slash :: ("//" ++ t) : Text) = "///" ++ t := rfl
  rw [read, if_neg (by decide), if_pos comment, ofComment, whole, if_pos opens]
  rfl

end Lexeme

namespace Documentation

/-- Lines without blanks at their ends are read back from the lines they are written as. -/
theorem ofLines_paddedLine {ls : List Text}
    (starts : ∀ l ∈ ls, ∀ b ∈ l.head?, Byte.isHorizontal b = false)
    (ends : ∀ l ∈ ls, ∀ b ∈ l.getLast?, Byte.isHorizontal b = false) :
    ofLines (ls.map paddedLine) = assemble ls := by
  have trimmed : ∀ l ∈ ls, Text.trim Byte.isHorizontal (paddedLine l) = l := by
    intro l mem
    cases l with
    | nil => rfl
    | cons b line =>
      have around := Text.trim_surround (q := Byte.isHorizontal) (s := [Byte.space]) (t := b :: line)
        (u := []) (List.all_eq_true.mp rfl) (by simp)
      rw [List.append_nil, List.singleton_append] at around
      rw [paddedLine_cons, around, Text.trim_eq_self (starts _ mem) (ends _ mem)]
  have whole : (ls.map paddedLine).map (Text.trim Byte.isHorizontal) = ls.map id := by
    rw [List.map_map]
    exact List.map_congr_left trimmed
  rw [ofLines, whole, List.map_id]

/-- Normal documentation is assembled again from its lines. -/
theorem assemble_lines {d : Text} (normal : IsNormal d) : assemble (Text.lines d) = d := by
  rw [assemble, Text.unlines_lines, Text.trim_eq_self normal.first normal.last]

/-- The first line of a normal text starts without blanks. -/
theorem IsNormal.starts_first {d line : Text} {others : List Text} (normal : IsNormal d)
    (split : Text.lines d = line :: others) : ∀ b ∈ line.head?, Byte.isHorizontal b = false := by
  intro b first
  apply isHorizontal_of_isSpace
  apply normal.first
  rw [← Text.unlines_lines d, split]
  rcases List.head?_eq_some_iff.mp first with ⟨rest, rfl⟩
  cases others with
  | nil => rfl
  | cons u others => rw [Text.unlines_cons _ (List.cons_ne_nil u others)]; rfl

end Documentation

variable {file : Text} {p : Position} {k : Text}

/-- Documentation lines are scanned as one token, with what the lines are read to. -/
theorem Scans.docLines {indent : Text} {ls : List Text} (blank : indent.all Byte.isBlank = true)
    (nonempty : ls ≠ []) (apart : ∀ l ∈ ls, Byte.newline ∉ l)
    (follows : Lexeme.opensDocLine (Lexeme.afterBlanks k) = false) :
    Scans file p (ls.flatMap (docLine (indent ++ "///"))) k
      [Token.place file (p.advance indent) .documentation (Documentation.ofLines (ls.map paddedLine))] := by
  rcases List.exists_cons_of_ne_nil nonempty with ⟨line, others, rfl⟩
  rcases Lexeme.docRun_docLines blank follows line others apart with ⟨lines, rest⟩
  have opens := Lexeme.opensDocLine_paddedLine line (others.flatMap (docLine (indent ++ "///")) ++ k)
  have written : (line :: others).flatMap (docLine (indent ++ "///")) ++ k = indent ++ ("///" ++
      (paddedLine line ++ Byte.newline :: (others.flatMap (docLine (indent ++ "///")) ++ k))) := by
    simp [docLine_eq]
  generalize paddedLine line ++ Byte.newline :: (others.flatMap (docLine (indent ++ "///")) ++ k) = t
    at lines rest opens written
  have total := Lexeme.docRun_extent_append_rest t
  have read := Lexeme.read_docLines opens
  rw [lines, rest] at read
  rw [rest] at total
  generalize (Lexeme.docRun t).extent = extent at total read
  subst total
  -- The run covers all that is written but the indentation and the newline at the end.
  have pieces : (line :: others).flatMap (docLine (indent ++ "///")) =
      indent ++ ("///" ++ extent ++ [Byte.newline]) := by
    refine (List.append_left_inj k).mp ?_
    rw [written]
    simp
  have token : Scans file (p.advance indent) ("///" ++ extent) (Byte.newline :: k)
      [Token.place file (p.advance indent) .documentation
        (Documentation.ofLines ((line :: others).map paddedLine))] := Scans.token read
  have scanned := (Scans.blanks blank).append (token.append (Scans.blank (k := k) (by decide)))
  rw [pieces]
  exact scanned

/-! ## Blocks -/

/-- Lines with a mark in front of each, in front of a last line. -/
theorem flatMap_docLine_append (mark last : Text) (ls : List Text) :
    ls.flatMap (docLine mark) ++ last = Text.unlines (ls.map (mark ++ paddedLine ·) ++ [last]) := by
  induction ls with
  | nil => exact (Text.unlines_singleton last).symm
  | cons l ls ih =>
    rw [List.flatMap_cons, List.append_assoc, ih, docLine_eq, List.map_cons, List.cons_append,
      Text.unlines_cons _ (by simp), List.append_assoc, List.singleton_append]

namespace Lexeme

/-- A text is cut at the mark behind a body without marks. -/
theorem cutAtClose_append {body : Text} (closed : containsClose (body ++ [Byte.star]) = false)
    (after : Text) : cutAtClose (body ++ Byte.star :: Byte.slash :: after) = some (body, after) := by
  induction body with
  | nil => simp [cutAtClose]
  | cons b body ih =>
    rw [List.cons_append, containsClose, Bool.or_eq_false_iff] at closed
    rw [List.cons_append, cutAtClose, if_neg, ih closed.2]
    · rfl
    · rintro ⟨rfl, first⟩
      cases body with
      | nil => cases first
      | cons c body =>
        rw [List.cons_append, List.head?_cons] at first
        simp [first] at closed

/-- The lexeme of a documentation block. -/
theorem read_docBlock {body : Text} (first : body.head? = some Byte.newline)
    (closed : containsClose (body ++ [Byte.star]) = false) (after : Text) :
    read Byte.slash ("**" ++ (body ++ "*/" ++ after)) =
      ⟨some (.documentation, Documentation.ofBlock body), "/**" ++ body ++ "*/", after⟩ := by
  have comment : opensComment (Byte.slash :: ("**" ++ (body ++ "*/" ++ after))) = true := rfl
  have whole : (Byte.slash :: ("**" ++ (body ++ "*/" ++ after)) : Text) =
    "/**" ++ (body ++ "*/" ++ after) := rfl
  have noLine : opensDocLine ("/**" ++ (body ++ "*/" ++ after)) = false := rfl
  have opens : opensDocBlock ("/**" ++ (body ++ "*/" ++ after)) = true := by
    rcases List.head?_eq_some_iff.mp first with ⟨rest, rfl⟩
    rfl
  have cut : cutAtClose (("/**" ++ (body ++ "*/" ++ after) : Text).drop 3) = some (body, after) := by
    have mark : (body ++ "*/" ++ after : Text) = body ++ Byte.star :: Byte.slash :: after := by
      rw [List.append_assoc]
      rfl
    rw [mark]
    exact cutAtClose_append closed after
  have noSlashes : (("/**" ++ (body ++ "*/" ++ after) : Text).take 2 == [Byte.slash, Byte.slash]) = false :=
    rfl
  rw [read, if_neg (by decide), if_pos comment, ofComment, whole, if_neg (Bool.eq_false_iff.mp noLine),
    if_neg (Bool.eq_false_iff.mp noSlashes), if_pos opens, ofBlock, cut]
  rfl

end Lexeme

/-- The text of a documentation block behind its opening mark and in front of its closing mark. -/
def blockBody (indent doc : Text) : Text :=
  Byte.newline :: ((Text.lines doc).flatMap (docLine (indent ++ " *")) ++ (indent ++ " "))

/-- The lines of a block are an empty one, the starred lines, and one with nothing but blanks. -/
theorem blockBody_eq (indent doc : Text) : blockBody indent doc =
    Text.unlines ([] :: ((Text.lines doc).map (indent ++ " *" ++ paddedLine ·) ++ [indent ++ " "])) := by
  rw [Text.unlines_cons [] (by simp), ← flatMap_docLine_append]
  rfl

variable {indent doc : Text}

theorem isBlank_of_isHorizontal (blank : indent.all Byte.isHorizontal = true) :
    indent.all Byte.isBlank = true := by
  rw [List.all_eq_true] at blank ⊢
  intro b mem
  rw [Byte.isBlank, blank b mem, Bool.true_or]

/-- A byte that is not blank within a line is not in an indentation. -/
theorem not_mem_blank {b : UInt8} (blank : indent.all Byte.isHorizontal = true)
    (h : Byte.isHorizontal b = false) : b ∉ indent := by
  intro inside
  have isBlank := List.all_eq_true.mp blank b inside
  rw [h] at isBlank
  cases isBlank

/-- A text without a closing mark is written to a block that is closed by its end only. -/
theorem containsClose_blockBody (blank : indent.all Byte.isHorizontal = true)
    (closed : containsClose doc = false) : containsClose (blockBody indent doc ++ [Byte.star]) = false := by
  have whole : blockBody indent doc ++ [Byte.star] = Text.unlines
      ([] :: ((Text.lines doc).map (indent ++ " *" ++ paddedLine ·) ++ [indent ++ " *"])) := by
    rw [Text.unlines_cons [] (by simp), ← flatMap_docLine_append]
    simp [blockBody]
    rfl
  rw [containsClose_eq_false_iff] at closed ⊢
  intro inside
  rw [whole] at inside
  have noStar : Byte.star ∉ indent ++ (" " : Text) := by
    rw [List.mem_append, not_or]
    exact ⟨not_mem_blank blank (by decide), by decide⟩
  have mark : (indent ++ " *" : Text) = indent ++ (" " : Text) ++ [Byte.star] := by
    rw [List.append_assoc]
    rfl
  rcases Text.pair_infix_unlines inside with ⟨l, mem, within⟩ | ⟨newline, -⟩ | ⟨newline, -⟩
  · rw [List.mem_cons, List.mem_append, List.mem_map, List.mem_singleton] at mem
    rcases mem with rfl | ⟨line, inLines, rfl⟩ | rfl
    · simp at within
    · rw [mark, List.append_assoc] at within
      have behind := Text.pair_infix_of_not_mem noStar within
      have stretch := Text.infix_unlines inLines
      rw [Text.unlines_lines] at stretch
      cases line with
      | nil => simp [paddedLine_nil, List.infix_cons_iff] at behind
      | cons b line =>
        rw [paddedLine_cons] at behind
        have inLine : [Byte.star, Byte.slash] <:+: b :: line := by
          have apart : Byte.slash ≠ Byte.space ∧ Byte.star ≠ Byte.space := by decide
          rw [List.singleton_append, List.infix_cons_iff, List.infix_cons_iff] at behind
          simpa [apart] using behind
        exact closed (inLine.trans stretch)
    · rw [mark] at within
      have behind := Text.pair_infix_of_not_mem noStar within
      simp [List.infix_cons_iff] at behind
  · cases newline
  · cases newline

namespace Documentation

/-- A starred line of a written block is read to its text. -/
theorem ofLine_starred (blank : indent.all Byte.isHorizontal = true) {line : Text}
    (ends : ∀ b ∈ line.getLast?, Byte.isHorizontal b = false) :
    Continuation.ofLine (indent ++ " *" ++ paddedLine line) = .starred line := by
  have around : ∀ b ∈ indent ++ (" " : Text), Byte.isHorizontal b = true := by
    intro b mem
    rcases List.mem_append.mp mem with inside | inside
    · exact List.all_eq_true.mp blank b inside
    · rw [List.mem_singleton.mp inside]
      decide
  have whole : (indent ++ " *" ++ paddedLine line : Text) =
      indent ++ (" " : Text) ++ Byte.star :: paddedLine line := by
    simp only [List.append_assoc]
    rfl
  have stripped : (indent ++ " *" ++ paddedLine line : Text).dropWhile Byte.isHorizontal =
      Byte.star :: paddedLine line := by
    rw [whole, List.dropWhile_append_of_pos around]
    rfl
  rw [Continuation.ofLine]
  dsimp only
  rw [stripped, List.head?_cons, if_pos rfl, List.tail_cons]
  cases line with
  | nil => rfl
  | cons b line =>
    rw [paddedLine_cons, List.head?_cons, if_pos rfl, List.tail_cons, Text.trimEnd_eq_self ends]

/-- A line of blanks is read to nothing. -/
theorem ofLine_blank {line : Text} (blank : line.all Byte.isHorizontal = true) :
    Continuation.ofLine line = .plain [] := by
  have inside := List.all_eq_true.mp blank
  have stripped : line.dropWhile Byte.isHorizontal = [] := List.dropWhile_eq_nil_iff.mpr inside
  have trimmed : Text.trimEnd Byte.isHorizontal line = [] := by
    have reversed : ∀ b ∈ line.reverse, Byte.isHorizontal b = true := by simpa using inside
    rw [Text.trimEnd, List.dropWhile_eq_nil_iff.mpr reversed]
    rfl
  rw [Continuation.ofLine]
  dsimp only
  rw [stripped, if_neg (by simp), trimmed]

/-- A written block is read back to its text. -/
theorem ofBlock_blockBody (blank : indent.all Byte.isHorizontal = true) (normal : IsNormal doc) :
    ofBlock (blockBody indent doc) = doc := by
  have noNewline : Byte.newline ∉ indent := not_mem_blank blank isHorizontal_newline
  have split : Text.lines (blockBody indent doc) =
      [] :: ((Text.lines doc).map (indent ++ " *" ++ paddedLine ·) ++ [indent ++ " "]) := by
    rw [blockBody_eq]
    refine Text.lines_unlines (List.cons_ne_nil _ _) fun l mem => ?_
    rw [List.mem_cons, List.mem_append, List.mem_map, List.mem_singleton] at mem
    rcases mem with rfl | ⟨line, inLines, rfl⟩ | rfl
    · simp
    · simp only [List.mem_append, not_or]
      exact ⟨⟨noNewline, by decide⟩, not_mem_paddedLine (Text.not_mem_of_mem_lines inLines)⟩
    · rw [List.mem_append, not_or]
      exact ⟨noNewline, by decide⟩
  have last : Continuation.ofLine (indent ++ " ") = .plain [] := by
    apply ofLine_blank
    rw [List.all_append, blank]
    rfl
  have settled : ∀ common, (((Text.lines doc).map (indent ++ " *" ++ paddedLine ·)).map
      Continuation.ofLine).map (Continuation.settle common) = Text.lines doc := by
    intro common
    rw [List.map_map, List.map_map]
    refine (List.map_congr_left (g := id) fun l mem => ?_).trans (List.map_id _)
    exact congrArg (Continuation.settle common) (ofLine_starred blank (normal.ends l mem))
  have around : Text.unlines ([] :: (Text.lines doc ++ [[]])) = [Byte.newline] ++ doc ++ [Byte.newline] := by
    rw [Text.unlines_cons [] (by simp), Text.unlines_append_nil (Text.lines_ne_nil doc),
      Text.unlines_lines]
    rfl
  rw [ofBlock, split]
  simp only [List.map_append, List.map_cons, List.map_nil, last, settled, Continuation.settle, List.drop_nil]
  rw [show Text.trim Byte.isHorizontal [] = [] from rfl, assemble, around,
    Text.trim_surround (List.all_eq_true.mp rfl) (List.all_eq_true.mp rfl),
    Text.trim_eq_self normal.first normal.last]

end Documentation

/-- A documentation block is scanned as one token. -/
theorem Scans.docBlock (blank : indent.all Byte.isHorizontal = true) (normal : Documentation.IsNormal doc)
    (closed : containsClose doc = false) :
    Scans file p (indent ++ ("/**" ++ blockBody indent doc ++ "*/") ++ "\n") k
      [Token.place file (p.advance indent) .documentation doc] := by
  have blanks : indent.all Byte.isBlank = true := isBlank_of_isHorizontal blank
  have read := Lexeme.read_docBlock rfl (containsClose_blockBody blank closed) ("\n" ++ k)
  rw [Documentation.ofBlock_blockBody blank normal] at read
  have token : Scans file (p.advance indent) ("/**" ++ blockBody indent doc ++ "*/") ("\n" ++ k)
      [Token.place file (p.advance indent) .documentation doc] := by
    refine Scans.token (b := Byte.slash) (t := "**" ++ blockBody indent doc ++ "*/") ?_
    rw [List.append_assoc ("**" : Text)]
    exact read
  have scanned := ((Scans.blanks blanks).append token).append (Scans.blank (k := k) (by decide))
  exact scanned

/-! ## Both forms -/

namespace Documentation

/-- What the comment that a text is written as is read back to: a block keeps the text, and lines lose the
blanks in front of them. -/
def readBack (doc : Text) : Text :=
  if ((Text.lines doc).drop 1).any isIndented then doc else ofLines ((Text.lines doc).map paddedLine)

/-- A text that is read back from what it is written as: a carriage return at the start of a later line is
lost, unless the indentation of some later line asks for a block. -/
def Survives (doc : Text) : Prop :=
  (∀ line ∈ (Text.lines doc).drop 1, line.head? ≠ some 13) ∨
    ∃ line ∈ (Text.lines doc).drop 1, isIndented line = true

/-- A line that is not indented and does not start with a carriage return starts without a blank. -/
theorem isHorizontal_head {line : Text} (indented : isIndented line = false)
    (returns : line.head? ≠ some 13) : ∀ b ∈ line.head?, Byte.isHorizontal b = false := by
  intro b first
  rw [Option.mem_def.mp first] at returns
  rw [isIndented, Option.mem_def.mp first] at indented
  simp only [Byte.isHorizontal]
  simp_all

/-- Behind slashes later lines lose the blanks in front of them. -/
theorem ofLines_lines_starts (doc : Text) :
    ∀ line ∈ (Text.lines (ofLines ((Text.lines doc).map paddedLine))).drop 1,
      ∀ b ∈ line.head?, Byte.isHorizontal b = false := by
  apply ofLines_starts
  intro l mem
  rcases List.mem_map.mp mem with ⟨line, inLines, rfl⟩
  exact not_mem_paddedLine (Text.not_mem_of_mem_lines inLines)

/-- A normal text without blanks in front of later lines is read back from its lines. -/
theorem ofLines_lines {doc : Text} (normal : IsNormal doc)
    (starts : ∀ line ∈ (Text.lines doc).drop 1, ∀ b ∈ line.head?, Byte.isHorizontal b = false) :
    ofLines ((Text.lines doc).map paddedLine) = doc := by
  rw [ofLines_paddedLine ?_ normal.ends, assemble_lines normal]
  rcases List.exists_cons_of_ne_nil (Text.lines_ne_nil doc) with ⟨line, others, split⟩
  rw [split, List.drop_one, List.tail_cons] at starts
  rw [split]
  intro l mem
  rcases List.mem_cons.mp mem with rfl | later
  · exact normal.starts_first split
  · exact starts l later

/-- A normal text is read back as it was exactly when it survives. -/
theorem readBack_eq_iff {doc : Text} (normal : IsNormal doc) : readBack doc = doc ↔ Survives doc := by
  unfold readBack Survives
  by_cases indented : ((Text.lines doc).drop 1).any isIndented = true
  · rw [if_pos indented]
    exact iff_of_true rfl (.inr (List.any_eq_true.mp indented))
  · have flush : ∀ line ∈ (Text.lines doc).drop 1, isIndented line = false := by
      simpa using indented
    have noBlock : ¬ ∃ line ∈ (Text.lines doc).drop 1, isIndented line = true := by
      simpa using indented
    rw [if_neg indented, or_iff_left noBlock]
    constructor
    · intro same line later first
      have starts := ofLines_lines_starts doc
      rw [same] at starts
      have lost := starts line later 13 first
      cases lost
    · intro returns
      exact ofLines_lines normal fun line later => isHorizontal_head (flush line later) (returns line later)

end Documentation

/-- A normal text is written as a comment that is scanned as one token. -/
theorem Scans.writeDoc (blank : indent.all Byte.isHorizontal = true) (normal : Documentation.IsNormal doc)
    (follows : Lexeme.opensDocLine (Lexeme.afterBlanks k) = false) :
    Scans file p (writeDoc indent doc) k
      [Token.place file (p.advance indent) .documentation (Documentation.readBack doc)] := by
  unfold ThetaSchema.writeDoc Documentation.readBack
  dsimp only
  by_cases indented : ((Text.lines doc).drop 1).any isIndented = true
  · -- A text with an indented later line does not close a block, so it is written as one.
    have closed := normal.closed (List.any_eq_true.mp indented)
    have written : indent ++ "/**\n" ++ (Text.lines doc).flatMap (docLine (indent ++ " *")) ++ indent ++
        " */\n" = indent ++ ("/**" ++ blockBody indent doc ++ "*/") ++ "\n" := by
      simp [blockBody]
      rfl
    rw [indented, closed, if_pos rfl, Bool.not_false, Bool.true_and, if_pos rfl, written]
    exact Scans.docBlock blank normal closed
  · rw [Bool.not_eq_true] at indented
    rw [indented, Bool.false_and, if_neg Bool.false_ne_true, if_neg Bool.false_ne_true]
    exact Scans.docLines (isBlank_of_isHorizontal blank) (Text.lines_ne_nil doc)
      (fun l mem => Text.not_mem_of_mem_lines mem) follows

/-! ## Documentation tokens -/

/-- The documentation tokens of a text are normal. -/
theorem Token.isNormal_of_mem {file text : Text} {t : Token} (inside : t ∈ Token.ofText file text)
    (documentation : t.kind = .documentation) : Documentation.IsNormal t.text := by
  rw [ofText, placeAll_eq, List.mem_append, List.mem_singleton] at inside
  rcases inside with scanned | stop
  · rcases mem_scan scanned with ⟨b, rest, read⟩
    rw [documentation] at read
    exact Lexeme.isNormal_of_read read
  · rw [stop] at documentation
    cases documentation

/-- A text that is scanned as one token has that token and the end of input. -/
theorem Scans.ofText {file t : Text} {token : Token} (h : Scans file {} t [] [token]) :
    ∃ stop, Token.ofText file t = [token, stop] ∧ stop.kind = .endOfInput := by
  rw [Scans, List.append_nil, Token.scan_nil, List.append_nil] at h
  refine ⟨Token.place file (Position.advance {} t) .endOfInput [], ?_, rfl⟩
  rw [Token.ofText_eq, h]
  rfl

/-- Documentation of any text, written at any indentation of spaces, is read back as a single token in front
of the end of input.  The token carries the same documentation exactly when no later line of it starts with
a carriage return or some later line is indented. -/
theorem written_documentation_read (file text : Text) (t : Token) (inside : t ∈ Token.ofText file text)
    (documentation : t.kind = .documentation) (width : Nat) (file' : Text) :
    ∃ read stop, Token.ofText file' (writeDoc (List.replicate width Byte.space) t.text) = [read, stop] ∧
      read.kind = .documentation ∧ stop.kind = .endOfInput ∧
        (read.text = t.text ↔ Documentation.Survives t.text) := by
  have normal : Documentation.IsNormal t.text := Token.isNormal_of_mem inside documentation
  have blank : (List.replicate width Byte.space).all Byte.isHorizontal = true := by
    rw [List.all_replicate]
    split <;> rfl
  have scanned : Scans file' {} (writeDoc (List.replicate width Byte.space) t.text) [] _ :=
    Scans.writeDoc blank normal rfl
  rcases scanned.ofText with ⟨stop, tokens, isStop⟩
  exact ⟨_, stop, tokens, rfl, isStop, Documentation.readBack_eq_iff normal⟩

/-- A block whose second line is indented comes back as it was, six columns further in. -/
theorem written_documentation_read_indented :
    ∃ t read stop, t ∈ Token.ofText "in.theta" "/** a\n *  b */" ∧ t.kind = .documentation ∧
      Token.ofText "out.theta" (writeDoc (List.replicate 6 Byte.space) t.text) = [read, stop] ∧
        read.kind = .documentation ∧ read.text = t.text := by
  have inside : ⟨.documentation, "a\n b", ⟨"in.theta", 1, 1⟩, 0⟩ ∈
      Token.ofText "in.theta" "/** a\n *  b */" := by
    decide +kernel
  rcases written_documentation_read _ _ _ inside rfl 6 "out.theta" with
    ⟨read, stop, tokens, isRead, -, kept⟩
  exact ⟨_, read, stop, inside, rfl, tokens, isRead, kept.mpr (.inr (by decide +kernel))⟩

/-- A block whose second line starts with a carriage return does not come back as it was. -/
theorem written_documentation_changed :
    ¬ ∀ (file text : Text) (t : Token), t ∈ Token.ofText file text → t.kind = .documentation →
      ∀ (width : Nat) (file' : Text), ∃ read stop,
        Token.ofText file' (writeDoc (List.replicate width Byte.space) t.text) = [read, stop] ∧
          read.kind = .documentation ∧ read.text = t.text ∧ stop.kind = .endOfInput := by
  intro survives
  have inside : ⟨.documentation, "a\n\rb", ⟨"in.theta", 1, 1⟩, 0⟩ ∈
      Token.ofText "in.theta" "/** a\n * \rb */" := by
    decide +kernel
  rcases survives _ _ _ inside rfl 0 "in.theta" with ⟨read, stop, tokens, -, same, -⟩
  have first : (Token.ofText "in.theta" (writeDoc [] "a\n\rb")).head?.map (·.text) = some "a\nb" := by
    decide +kernel
  rw [List.replicate_zero] at tokens
  rw [tokens, List.head?_cons, Option.map_some, same] at first
  exact absurd first (by decide +kernel)

end ThetaSchema
