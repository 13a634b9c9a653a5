import ThetaSchema.Documentation
import ThetaSchema.Token.Basic

/-!
# Lexemes

A lexeme is what stands at the front of a text: a blank, a plain comment, or a token.  Reading a lexeme
cuts the text in two, the bytes of the lexeme and the rest, so that no byte is lost and every step makes
progress.

Main results:

- `Lexeme.read_extent_append_rest`: the bytes of a lexeme and the rest make up the text.
- `Lexeme.read_rest_length_lt`: on a nonempty text the rest is shorter.
-/

namespace ThetaSchema

/-- The lexeme at the front of a text: the kind and text of its token, if it is one, the bytes it covers,
and what follows. -/
structure Lexeme where
  token? : Option (TokenKind × Text)
  extent : Text
  rest : Text
  deriving DecidableEq, Repr

namespace Lexeme

/-! ## Comments -/

/-- Whether a text opens with exactly three slashes, so with a documentation line. -/
def opensDocLine (t : Text) : Bool :=
  t.take 3 == [Byte.slash, Byte.slash, Byte.slash] && t[3]? != some Byte.slash

/-- Whether a text opens with a slash and two stars that no slash follows, so with a documentation
block. -/
def opensDocBlock (t : Text) : Bool :=
  t.take 3 == [Byte.slash, Byte.star, Byte.star] && t[3]? != some Byte.slash

/-- The part of a text on its first line. -/
def firstLine (t : Text) : Text :=
  t.takeWhile (· != Byte.newline)

/-- A text from the end of its first line on. -/
def afterFirstLine (t : Text) : Text :=
  t.dropWhile (· != Byte.newline)

theorem firstLine_append_afterFirstLine (t : Text) : firstLine t ++ afterFirstLine t = t :=
  List.takeWhile_append_dropWhile

theorem afterFirstLine_length_le (t : Text) : (afterFirstLine t).length ≤ t.length :=
  (List.dropWhile_suffix _).length_le

/-- The blanks at the front of a text. -/
def blanks (t : Text) : Text :=
  t.takeWhile Byte.isBlank

/-- A text behind the blanks at its front. -/
def afterBlanks (t : Text) : Text :=
  t.dropWhile Byte.isBlank

theorem blanks_append_afterBlanks (t : Text) : blanks t ++ afterBlanks t = t :=
  List.takeWhile_append_dropWhile

/-- Consecutive documentation lines: what follows the slashes of each, the bytes from behind the slashes
of the first line to the end of the last, and what follows. -/
structure DocRun where
  lines : List Text
  extent : Text
  rest : Text
  deriving DecidableEq, Repr

/-- Reads documentation lines, given the text behind the slashes of the first one.  Lines belong together
when only blanks separate them. -/
def docRun (t : Text) : DocRun :=
  let next := afterBlanks (afterFirstLine t)
  if opensDocLine next then
    let run := docRun (next.drop 3)
    ⟨firstLine t :: run.lines, firstLine t ++ blanks (afterFirstLine t) ++ next.take 3 ++ run.extent,
      run.rest⟩
  else ⟨[firstLine t], firstLine t, afterFirstLine t⟩
termination_by t.length
decreasing_by
  next opens =>
  have behind := afterFirstLine_length_le t
  have after : (afterBlanks (afterFirstLine t)).length ≤ (afterFirstLine t).length :=
    (List.dropWhile_suffix _).length_le
  have slashes : (next.take 3).length = 3 := by
    simp only [opensDocLine, Bool.and_eq_true, beq_iff_eq] at opens
    rw [opens.1]
    rfl
  simp only [List.length_take, List.length_drop, next] at slashes ⊢
  omega

/-- The documentation lines that are read together are cut off at the front of the text. -/
theorem docRun_extent_append_rest (t : Text) : (docRun t).extent ++ (docRun t).rest = t := by
  fun_induction docRun t with
  | case1 t next opens run ih =>
    simp only [List.append_assoc, run, ih, List.take_append_drop, next, blanks_append_afterBlanks,
      firstLine_append_afterFirstLine]
  | case2 t => exact firstLine_append_afterFirstLine t

/-- Cuts a text at its first closing mark of a block comment: what stands before the mark, and what
follows it. -/
def cutAtClose : Text → Option (Text × Text)
  | [] => none
  | b :: rest =>
    if b = Byte.star ∧ rest.head? = some Byte.slash then some ([], rest.tail)
    else (cutAtClose rest).map fun (body, after) => (b :: body, after)

/-- A text that is cut at the end of a comment is the two parts with the mark between them. -/
theorem cutAtClose_eq_some {t body after : Text} (h : cutAtClose t = some (body, after)) :
    t = body ++ Byte.star :: Byte.slash :: after := by
  induction t generalizing body with
  | nil => cases h
  | cons b rest ih =>
    unfold cutAtClose at h
    split at h
    · next close =>
      obtain ⟨rfl, head⟩ := close
      obtain ⟨tail, rfl⟩ := List.head?_eq_some_iff.mp head
      cases h
      rfl
    · obtain ⟨⟨body', after'⟩, eq, pair⟩ := Option.map_eq_some_iff.mp h
      cases pair
      rw [ih eq]
      rfl

/-! ## Numbers -/

/-- The numeral at the front of a text: digits, with single dots between digits. -/
def numeral : Text → Text
  | [] => []
  | b :: rest =>
    if Byte.isDigit b then b :: numeral rest
    else if b = Byte.dot ∧ rest.head?.any Byte.isDigit then b :: numeral rest
    else []

/-- A numeral is cut off at the front of the text. -/
theorem numeral_append_drop (t : Text) : numeral t ++ t.drop (numeral t).length = t := by
  induction t with
  | nil => rfl
  | cons b rest ih =>
    unfold numeral
    split
    · simp [ih]
    · split
      · simp [ih]
      · rfl

/-! ## One lexeme -/

/-- The kind of the token that a byte makes on its own. -/
def punctuation (b : UInt8) : TokenKind :=
  if b = 40 then .parenOpen
  else if b = 41 then .parenClose
  else if b = 91 then .bracketOpen
  else if b = 93 then .bracketClose
  else if b = 123 then .braceOpen
  else if b = 125 then .braceClose
  else if b = 44 then .comma
  else if b = 46 then .dot
  else if b = 58 then .colon
  else if b = 61 then .equal
  else if b = 124 then .pipe
  else if b = 63 then .question
  else if b = 45 then .minus
  else .invalid

/-- A lexeme that is the front of a text as far as a class of bytes reaches. -/
def ofRun (kind : TokenKind) (p : UInt8 → Bool) (t : Text) : Lexeme :=
  ⟨some (kind, t.takeWhile p), t.takeWhile p, t.dropWhile p⟩

/-- The lexeme of a block comment, given its opening mark and what follows the mark.  A comment without a
closing mark covers the rest of the text. -/
def ofBlock (mark t : Text) (token : Text → Option (TokenKind × Text)) : Lexeme :=
  match cutAtClose t with
  | some (body, after) => ⟨token body, mark ++ body ++ [Byte.star, Byte.slash], after⟩
  | none => ⟨some (.unterminatedComment, mark), mark ++ t, []⟩

/-- The lexeme of a comment, for a text that starts with a slash and a second byte that is a slash or a
star. -/
def ofComment (t : Text) : Lexeme :=
  if opensDocLine t then
    let run := docRun (t.drop 3)
    ⟨some (.documentation, Documentation.ofLines run.lines), t.take 3 ++ run.extent, run.rest⟩
  else if t.take 2 == [Byte.slash, Byte.slash] then
    ⟨none, firstLine t, afterFirstLine t⟩
  else if opensDocBlock t then
    ofBlock (t.take 3) (t.drop 3) fun body => some (.documentation, Documentation.ofBlock body)
  else
    ofBlock (t.take 2) (t.drop 2) fun _ => none

/-- Whether a text starts with a comment. -/
def opensComment (t : Text) : Bool :=
  t.take 2 == [Byte.slash, Byte.slash] || t.take 2 == [Byte.slash, Byte.star]

/-- Whether a text starts with three dashes, so with a separator. -/
def opensSeparator (t : Text) : Bool :=
  t.take 3 == [Byte.dash, Byte.dash, Byte.dash]

/-- The lexeme at the front of the text `b :: rest`. -/
def read (b : UInt8) (rest : Text) : Lexeme :=
  if Byte.isBlank b then ⟨none, [b], rest⟩
  else if opensComment (b :: rest) then ofComment (b :: rest)
  else if opensSeparator (b :: rest) then
    { ofRun .separator (· == Byte.dash) (b :: rest) with token? := some (.separator, "---") }
  else if Byte.isIdentifierStart b then ofRun .identifier Byte.isIdentifierByte (b :: rest)
  else if Byte.isDigit b then
    let text := numeral (b :: rest)
    ⟨some (if text.contains Byte.dot then .version else .integer, text), text,
      (b :: rest).drop text.length⟩
  else ⟨some (punctuation b, [b]), [b], rest⟩

/-! ## Nothing is lost -/

/-- A run of bytes is cut off at the front of the text. -/
theorem ofRun_extent_append_rest (kind : TokenKind) (p : UInt8 → Bool) (t : Text) :
    (ofRun kind p t).extent ++ (ofRun kind p t).rest = t :=
  List.takeWhile_append_dropWhile

/-- A block comment is cut off at the front of the text, behind its mark. -/
theorem ofBlock_extent_append_rest (mark t : Text) (token : Text → Option (TokenKind × Text)) :
    (ofBlock mark t token).extent ++ (ofBlock mark t token).rest = mark ++ t := by
  unfold ofBlock
  split
  · next eq => rw [cutAtClose_eq_some eq]; simp
  · simp

/-- A comment is cut off at the front of the text, whatever kind of comment it is. -/
theorem ofComment_extent_append_rest (t : Text) : (ofComment t).extent ++ (ofComment t).rest = t := by
  unfold ofComment
  split
  · simp only [List.append_assoc, docRun_extent_append_rest, List.take_append_drop]
  · split
    · exact firstLine_append_afterFirstLine t
    · split <;> simp only [ofBlock_extent_append_rest, List.take_append_drop]

/-- The bytes of a lexeme and the rest make up the text. -/
theorem read_extent_append_rest (b : UInt8) (rest : Text) :
    (read b rest).extent ++ (read b rest).rest = b :: rest := by
  unfold read
  repeat' split
  · rfl
  · exact ofComment_extent_append_rest _
  · exact ofRun_extent_append_rest .separator _ _
  · exact ofRun_extent_append_rest _ _ _
  · exact numeral_append_drop _
  · rfl

/-- A block comment has its mark at least. -/
theorem ofBlock_extent_ne_nil {mark : Text} (h : mark ≠ []) (t : Text)
    (token : Text → Option (TokenKind × Text)) : (ofBlock mark t token).extent ≠ [] := by
  unfold ofBlock
  split <;> simp [h]

/-- A comment has its first byte at least. -/
theorem ofComment_extent_ne_nil {b : UInt8} {rest : Text} (h : b ≠ Byte.newline) :
    (ofComment (b :: rest)).extent ≠ [] := by
  unfold ofComment
  repeat' split
  · simp
  · simp [firstLine, h]
  · exact ofBlock_extent_ne_nil (by simp) _ _
  · exact ofBlock_extent_ne_nil (by simp) _ _

/-- A lexeme covers at least one byte. -/
theorem read_extent_ne_nil (b : UInt8) (rest : Text) : (read b rest).extent ≠ [] := by
  unfold read
  repeat' split
  · simp
  · next blank _ =>
    refine ofComment_extent_ne_nil ?_
    rintro rfl
    exact blank rfl
  · next opens =>
    have dash : b = Byte.dash := by
      simp only [opensSeparator, List.take_succ_cons, beq_iff_eq, List.cons.injEq] at opens
      exact opens.1
    simp [ofRun, dash]
  · next start => simp [ofRun, Byte.isIdentifierByte, start]
  · next isDigit => simp [numeral, isDigit]
  · simp

/-- What follows a lexeme is shorter than the text. -/
theorem read_rest_length_lt (b : UInt8) (rest : Text) : (read b rest).rest.length < (b :: rest).length := by
  have total := congrArg List.length (read_extent_append_rest b rest)
  have nonempty := List.length_pos_iff.mpr (read_extent_ne_nil b rest)
  simp only [List.length_append] at total
  omega

end Lexeme
end ThetaSchema
