import ThetaSchema.Proofs.Documentation.Normal
import ThetaSchema.Proofs.Token.Seam
import ThetaSchema.Proofs.Token.Words

/-!
# What tokens cover

Every kind of token covers bytes of a form of its own, and so do the blanks and comments between tokens.
The forms are given here without reading anything, and then every lexeme is shown to have the one of its
kind.

Main definitions:

- `PlainComment`, `Gap`: comments without a token, and what stands between tokens.
- `DocLines`, `DocComment`: runs of documentation lines, and documentation comments of either form.
- `OpenComment`: comments without an end.
- `TokenKind.Covers`: the bytes that a token of a kind covers.
- `Lexeme.Formed`: a lexeme that covers what its token covers, or that is a gap.

Main results:

- `Lexeme.read_formed`: every lexeme covers the bytes of its kind.
- `Lexeme.Formed.seam`: runs of dashes are not cut.
-/

namespace ThetaSchema

/-! ## Comments -/

/-- A text that does not go on with a line. -/
def EndsLine (k : Text) : Prop :=
  ∀ b ∈ k.head?, b = Byte.newline

/-- A text without the closing mark of a block. -/
def NoClose (t : Text) : Prop :=
  ¬ [Byte.star, Byte.slash] <:+: t

/-- A comment that no token stands for, complete in front of the text `k`: two slashes, or four and more,
up to the end of the line, or a block that is no documentation. -/
inductive PlainComment (k : Text) : Text → Prop where
  | line {body : Text} (single : Byte.newline ∉ body)
      (plain : body.head? = some Byte.slash → body[1]? = some Byte.slash) (ends : EndsLine k) :
      PlainComment k ("//" ++ body)
  | block {body : Text} (plain : body.head? ≠ some Byte.star) (closed : NoClose body) :
      PlainComment k ("/*" ++ body ++ "*/")

/-- What stands between tokens: a blank, or a comment that no token stands for. -/
inductive Gap (k : Text) : Text → Prop where
  | blank {b : UInt8} (blank : Byte.isBlank b = true) : Gap k [b]
  | comment {t : Text} (comment : PlainComment k t) : Gap k t

/-- What follows the slashes of a documentation line. -/
structure DocLine (line : Text) : Prop where
  single : Byte.newline ∉ line
  three : line.head? ≠ some Byte.slash

/-- A run of documentation lines with only blanks between them: what follows the slashes of each, and the
bytes of the run. -/
inductive DocLines : List Text → Text → Prop where
  | last {line : Text} (doc : DocLine line) : DocLines [line] ("///" ++ line)
  | cons {line gap more : Text} {lines : List Text} (doc : DocLine line)
      (blank : ∀ b ∈ gap, Byte.isBlank b = true) (ends : gap.head? = some Byte.newline)
      (others : DocLines lines more) : DocLines (line :: lines) ("///" ++ line ++ gap ++ more)

/-- A documentation comment in front of the text `k`, with the text it carries: a run of lines that does not
go on, or a block. -/
inductive DocComment (k : Text) : Text → Text → Prop where
  | lines {lines : List Text} {extent : Text} (run : DocLines lines extent) (ends : EndsLine k)
      (whole : Lexeme.opensDocLine (Lexeme.afterBlanks k) = false) :
      DocComment k (Documentation.ofLines lines) extent
  | block {body : Text} (doc : body.head? ≠ some Byte.slash) (closed : NoClose body) :
      DocComment k (Documentation.ofBlock body) ("/**" ++ body ++ "*/")

/-- A block comment without an end, with its opening mark. -/
inductive OpenComment : Text → Text → Prop where
  | plain {body : Text} (plain : body.head? ≠ some Byte.star) (noClose : NoClose body) :
      OpenComment "/*" ("/*" ++ body)
  | doc {body : Text} (doc : body.head? ≠ some Byte.slash) (noClose : NoClose body) :
      OpenComment "/**" ("/**" ++ body)

/-! ## Tokens -/

/-- The bytes that a token of a kind covers in front of the text `k`.  Identifiers, numbers and single bytes
cover their text; the other kinds cover what their text is taken from. -/
def TokenKind.Covers (k text extent : Text) : TokenKind → Prop
  | .endOfInput => False
  | .identifier => extent = text ∧ isIdentifier text = true ∧ EndsWord k
  | .integer => extent = text ∧ text ≠ [] ∧ ∀ b ∈ text, Byte.isDigit b = true
  | .version => extent = text ∧ (∀ b ∈ text.head?, Byte.isDigit b = true) ∧ Byte.dot ∈ text ∧
      ∀ b ∈ text, b = Byte.dot ∨ Byte.isDigit b = true
  | .separator => text = "---" ∧ (∃ n ≥ 3, extent = List.replicate n Byte.dash) ∧ k.head? ≠ some Byte.dash
  | .documentation => DocComment k text extent
  | .unterminatedComment => OpenComment text extent ∧ k = []
  | kind => extent = text ∧ ∃ b, text = [b] ∧ kind = Lexeme.punctuation b ∧ ¬ ("---" : Text) <+: b :: k

namespace Lexeme

/-- A lexeme whose bytes are of the form of its kind. -/
def Formed (l : Lexeme) : Prop :=
  match l.token? with
  | none => Gap l.rest l.extent
  | some (kind, text) => kind.Covers l.rest text l.extent

variable {t : Text}

/-! ## Lines and marks -/

/-- A text that starts with a mark is the mark and what follows it. -/
theorem eq_mark_append {n : Nat} {mark : Text} (h : (t.take n == mark) = true) : t = mark ++ t.drop n := by
  rw [← beq_iff_eq.mp h, List.take_append_drop]

theorem endsLine_afterFirstLine (t : Text) : EndsLine (afterFirstLine t) := by
  intro b first
  have stop := Text.head?_dropWhile b first
  simpa using stop

theorem head?_firstLine (h : t.head? ≠ some Byte.slash) : (firstLine t).head? ≠ some Byte.slash := by
  intro first
  obtain ⟨line, same⟩ := List.head?_eq_some_iff.mp first
  apply h
  rw [← firstLine_append_afterFirstLine t, same]
  rfl

/-- A text starts with a mark of three bytes that no slash may follow. -/
theorem opens_noSlash_iff {mark : Text} (size : mark.length = 3) :
    (t.take 3 == mark && t[3]? != some Byte.slash) = true ↔
      ∃ rest, t = mark ++ rest ∧ rest.head? ≠ some Byte.slash := by
  rw [Bool.and_eq_true, bne_iff_ne, ← List.head?_drop]
  constructor
  · rintro ⟨opens, noSlash⟩
    exact ⟨t.drop 3, eq_mark_append opens, noSlash⟩
  · rintro ⟨rest, rfl, noSlash⟩
    rw [← size, List.take_left, List.drop_left]
    exact ⟨beq_self_eq_true mark, noSlash⟩

/-- What follows a documentation line's slashes does not start with a slash. -/
theorem opensDocLine_iff : opensDocLine t = true ↔
    ∃ line, t = "///" ++ line ∧ line.head? ≠ some Byte.slash :=
  opens_noSlash_iff rfl

/-- The same for a documentation block. -/
theorem opensDocBlock_iff : opensDocBlock t = true ↔
    ∃ body, t = "/**" ++ body ∧ body.head? ≠ some Byte.slash :=
  opens_noSlash_iff rfl

/-- A third slash is followed by a fourth one where no documentation line opens. -/
theorem firstLine_of_not_opensDocLine {body : Text} (noDoc : opensDocLine ("//" ++ body) ≠ true)
    (third : (firstLine body).head? = some Byte.slash) : (firstLine body)[1]? = some Byte.slash := by
  have slash : body.head? = some Byte.slash := by
    by_contra other
    exact head?_firstLine other third
  obtain ⟨line, rfl⟩ := List.head?_eq_some_iff.mp slash
  have fourth : line.head? = some Byte.slash := by
    by_contra other
    exact noDoc (opensDocLine_iff.mpr ⟨line, rfl, other⟩)
  obtain ⟨others, rfl⟩ := List.head?_eq_some_iff.mp fourth
  rfl

/-- The documentation line at the front of a text. -/
theorem docLine_firstLine (h : t.head? ≠ some Byte.slash) : DocLine (firstLine t) :=
  ⟨not_mem_firstLine t, head?_firstLine h⟩

/-- Blanks between documentation lines start with the newline that ends the first of the two. -/
theorem head?_blanks_afterFirstLine (follows : afterBlanks (afterFirstLine t) ≠ []) :
    (blanks (afterFirstLine t)).head? = some Byte.newline := by
  have ends := endsLine_afterFirstLine t
  cases after : afterFirstLine t with
  | nil =>
    rw [after] at follows
    exact absurd rfl follows
  | cons b rest =>
    have newline : b = Byte.newline := ends b (by rw [after]; rfl)
    rw [newline]
    rfl

/-! ## Documentation lines -/

/-- What is read behind three slashes is a run of documentation lines. -/
theorem docLines_docRun (h : t.head? ≠ some Byte.slash) :
    DocLines (docRun t).lines ("///" ++ (docRun t).extent) := by
  fun_induction docRun t with
  | case1 t next opens run ih =>
    obtain ⟨line, same, three⟩ := opensDocLine_iff.mp opens
    have drop : next.drop 3 = line := by rw [same]; rfl
    have take : next.take 3 = "///" := by rw [same]; rfl
    have others := ih (by rwa [drop])
    have blank : ∀ b ∈ blanks (afterFirstLine t), Byte.isBlank b = true :=
      List.all_eq_true.mp List.all_takeWhile
    have follows : next ≠ [] := by
      rw [same]
      exact List.cons_ne_nil _ _
    have all := DocLines.cons (docLine_firstLine h) blank (head?_blanks_afterFirstLine follows) others
    simpa only [take, List.append_assoc] using all
  | case2 t => exact .last (docLine_firstLine h)

/-- A run of documentation lines ends with a line, and does not go on. -/
theorem docRun_rest (t : Text) :
    EndsLine (docRun t).rest ∧ opensDocLine (afterBlanks (docRun t).rest) = false := by
  fun_induction docRun t with
  | case1 t next opens run ih => exact ih
  | case2 t next noLine => exact ⟨endsLine_afterFirstLine t, Bool.eq_false_iff.mpr noLine⟩

/-! ## Block comments -/

/-- A text that is not cut at a closing mark has none. -/
theorem noClose_of_cutAtClose (h : cutAtClose t = none) : NoClose t := by
  induction t with
  | nil => simp [NoClose]
  | cons b rest ih =>
    unfold cutAtClose at h
    split at h
    · cases h
    · next noMark =>
      rw [Option.map_eq_none_iff] at h
      rw [NoClose, List.infix_cons_iff, not_or]
      refine ⟨?_, ih h⟩
      rw [List.cons_prefix_cons]
      rintro ⟨isStar, others, same⟩
      exact noMark ⟨isStar.symm, by rw [← same]; rfl⟩

theorem noClose_body {body after : Text} (h : cutAtClose t = some (body, after)) : NoClose body :=
  containsClose_eq_false_iff.mp (containsClose_of_cutAtClose h)

/-- A star behind the mark of a block that is no documentation closes the block. -/
theorem cutAtClose_of_star {u : Text} (noDoc : opensDocBlock ("/*" ++ u) ≠ true)
    (star : u.head? = some Byte.star) : ∃ after, cutAtClose u = some ([], after) := by
  obtain ⟨rest, rfl⟩ := List.head?_eq_some_iff.mp star
  have slash : rest.head? = some Byte.slash := by
    by_contra other
    exact noDoc (opensDocBlock_iff.mpr ⟨rest, rfl, other⟩)
  exact ⟨rest.tail, by rw [cutAtClose, if_pos ⟨rfl, slash⟩]⟩

/-- A block that is no documentation is a plain comment, or has no end. -/
theorem ofBlock_formed_plain {u : Text} (noDoc : opensDocBlock ("/*" ++ u) ≠ true) :
    (ofBlock "/*" u fun _ => none).Formed := by
  unfold ofBlock
  cases cut : cutAtClose u with
  | some parts =>
    refine .comment (.block ?_ (noClose_body cut))
    intro star
    obtain ⟨others, same⟩ := List.head?_eq_some_iff.mp star
    obtain ⟨after, empty⟩ := cutAtClose_of_star noDoc (by rw [cutAtClose_eq_some cut, same]; rfl)
    rw [cut, Option.some.injEq] at empty
    rw [empty] at star
    cases star
  | none =>
    refine ⟨.plain ?_ (noClose_of_cutAtClose cut), rfl⟩
    intro star
    obtain ⟨after, closed⟩ := cutAtClose_of_star noDoc star
    rw [cut] at closed
    cases closed

/-- A block that is documentation carries the text between its marks, or has no end. -/
theorem ofBlock_formed_doc {u : Text} (doc : u.head? ≠ some Byte.slash) :
    (ofBlock "/**" u fun body => some (.documentation, Documentation.ofBlock body)).Formed := by
  unfold ofBlock
  cases cut : cutAtClose u with
  | some parts =>
    refine .block ?_ (noClose_body cut)
    intro slash
    obtain ⟨others, same⟩ := List.head?_eq_some_iff.mp slash
    apply doc
    rw [cutAtClose_eq_some cut, same]
    rfl
  | none => exact ⟨.doc doc (noClose_of_cutAtClose cut), rfl⟩

/-! ## One lexeme -/

/-- A comment covers the bytes of a comment. -/
theorem ofComment_formed {t : Text} (opens : opensComment t = true) : (ofComment t).Formed := by
  unfold ofComment
  split
  · next docLine =>
    obtain ⟨line, rfl, three⟩ := opensDocLine_iff.mp docLine
    obtain ⟨ends, whole⟩ := docRun_rest line
    exact .lines (docLines_docRun three) ends whole
  · next noDocLine =>
    split
    · next slashes =>
      have same := eq_mark_append slashes
      generalize t.drop 2 = body at same
      subst same
      exact .comment (.line (not_mem_firstLine body) (firstLine_of_not_opensDocLine noDocLine)
        (endsLine_afterFirstLine body))
    · next noSlashes =>
      have star : (t.take 2 == [Byte.slash, Byte.star]) = true := by
        rw [opensComment, Bool.or_eq_true] at opens
        exact opens.resolve_left noSlashes
      split
      · next docBlock =>
        obtain ⟨body, rfl, doc⟩ := opensDocBlock_iff.mp docBlock
        exact ofBlock_formed_doc doc
      · next noDocBlock =>
        have same := eq_mark_append star
        rw [same] at noDocBlock
        rw [beq_iff_eq.mp star]
        exact ofBlock_formed_plain noDocBlock

/-- A run of dashes covers a separator. -/
theorem separator_formed {t : Text} (opens : opensSeparator t = true) :
    ({ ofRun .separator (· == Byte.dash) t with token? := some (.separator, "---") } : Lexeme).Formed := by
  refine ⟨rfl, ⟨(t.takeWhile (· == Byte.dash)).length, ?_, ?_⟩, ?_⟩
  · rw [eq_mark_append opens]
    simp
  · refine List.eq_replicate_of_mem fun b mem => ?_
    simpa using List.all_eq_true.mp List.all_takeWhile b mem
  · intro dash
    have stop := Text.head?_dropWhile _ dash
    simp at stop

/-- A run of identifier bytes covers an identifier. -/
theorem identifier_formed {b : UInt8} (start : Byte.isIdentifierStart b = true) (rest : Text) :
    (ofRun .identifier Byte.isIdentifierByte (b :: rest)).Formed := by
  refine ⟨rfl, ?_, fun c first => Text.head?_dropWhile c first⟩
  have first : Byte.isIdentifierByte b = true := by rw [Byte.isIdentifierByte, start, Bool.true_or]
  rw [List.takeWhile_cons_of_pos first, isIdentifier, start, Bool.true_and]
  exact List.all_takeWhile

/-- The bytes of a numeral are digits and dots. -/
theorem mem_numeral {t : Text} : ∀ b ∈ numeral t, b = Byte.dot ∨ Byte.isDigit b = true := by
  fun_induction numeral t with
  | case1 => simp
  | case2 b rest digit ih =>
    intro c mem
    rcases List.mem_cons.mp mem with rfl | later
    · exact .inr digit
    · exact ih c later
  | case3 b rest noDigit dot ih =>
    intro c mem
    rcases List.mem_cons.mp mem with rfl | later
    · exact .inl dot.1
    · exact ih c later
  | case4 => simp

/-- A numeral covers a number, which is a version if it has a dot. -/
theorem numeral_formed {b : UInt8} (digit : Byte.isDigit b = true) (rest k : Text) :
    Formed ⟨some (if (numeral (b :: rest)).contains Byte.dot then .version else .integer, numeral (b :: rest)),
      numeral (b :: rest), k⟩ := by
  have bytes := @mem_numeral (b :: rest)
  have start : numeral (b :: rest) = b :: numeral rest := by rw [numeral, if_pos digit]
  by_cases dotted : (numeral (b :: rest)).contains Byte.dot = true
  · rw [if_pos dotted]
    refine ⟨rfl, ?_, by simpa using dotted, bytes⟩
    rw [start]
    rintro c ⟨⟩
    exact digit
  · rw [if_neg dotted]
    refine ⟨rfl, by rw [start]; exact List.cons_ne_nil _ _, fun c mem => ?_⟩
    rcases bytes c mem with rfl | isDigit
    · exact absurd (by simpa using mem) dotted
    · exact isDigit

/-- What a token of a single byte covers. -/
theorem covers_punctuation_iff {b : UInt8} {k text extent : Text} :
    (punctuation b).Covers k text extent ↔
      extent = text ∧ ∃ c, text = [c] ∧ punctuation b = punctuation c ∧ ¬ ("---" : Text) <+: c :: k := by
  generalize kind : punctuation b = mark
  cases mark with
  | endOfInput | identifier | integer | version | documentation | separator | unterminatedComment =>
    exact absurd kind (by fun_cases punctuation b <;> decide)
  | _ => rfl

/-- A byte that is a token on its own covers itself. -/
theorem punctuation_formed {b : UInt8} {rest : Text} (noSeparator : opensSeparator (b :: rest) ≠ true) :
    Formed ⟨some (punctuation b, [b]), [b], rest⟩ := by
  refine covers_punctuation_iff.mpr ⟨rfl, b, rfl, rfl, ?_⟩
  rintro ⟨k, same⟩
  rw [← same] at noSeparator
  exact noSeparator rfl

/-- Every lexeme covers the bytes of its kind. -/
theorem read_formed (b : UInt8) (rest : Text) : (read b rest).Formed := by
  unfold read
  split
  · next blank => exact .blank blank
  · split
    · next opens => exact ofComment_formed opens
    · split
      · next opens => exact separator_formed opens
      · next noSeparator =>
        split
        · next start => exact identifier_formed start rest
        · split
          · next digit => exact numeral_formed digit rest _
          · exact punctuation_formed noSeparator

end Lexeme

/-! ## Seams -/

theorem EndsLine.noSeparator {k : Text} (h : EndsLine k) : ¬ ("---" : Text) <+: k := by
  rintro ⟨others, rfl⟩
  exact absurd (h Byte.dash rfl) (by decide)

/-- What ends with the closing mark of a block does not end with a dash. -/
theorem getLast?_close (t : Text) : (t ++ "*/").getLast? = some Byte.slash := by
  rw [List.getLast?_append]
  rfl

/-- No separator starts behind a gap that ends with a dash. -/
theorem Gap.seam {k extent : Text} (h : Gap k extent) (dash : extent.getLast? = some Byte.dash) :
    ¬ ("---" : Text) <+: k := by
  cases h with
  | blank blank =>
    cases dash
    cases blank
  | comment comment =>
    cases comment with
    | line single plain ends => exact ends.noSeparator
    | block plain closed =>
      rw [getLast?_close] at dash
      cases dash

/-- No separator starts behind a token that ends with a dash. -/
theorem TokenKind.Covers.seam {kind : TokenKind} {k text extent : Text} (h : kind.Covers k text extent)
    (dash : extent.getLast? = some Byte.dash) : ¬ ("---" : Text) <+: k := by
  have inside := List.mem_of_getLast? dash
  cases kind with
  | endOfInput => exact h.elim
  | identifier =>
    obtain ⟨rfl, word, -⟩ := h
    exact absurd (all_isIdentifierByte word _ inside) (by decide)
  | integer =>
    obtain ⟨rfl, -, digits⟩ := h
    exact absurd (digits _ inside) (by decide)
  | version =>
    obtain ⟨rfl, -, -, bytes⟩ := h
    exact absurd (bytes _ inside) (by decide)
  | separator =>
    obtain ⟨-, -, stop⟩ := h
    rintro ⟨others, rfl⟩
    exact stop rfl
  | documentation =>
    cases h with
    | lines run ends whole => exact ends.noSeparator
    | block doc closed =>
      rw [getLast?_close] at dash
      cases dash
  | unterminatedComment =>
    obtain ⟨-, rfl⟩ := h
    rintro ⟨others, same⟩
    cases same
  | _ =>
    obtain ⟨rfl, b, rfl, -, noSeparator⟩ := h
    rintro ⟨others, rfl⟩
    cases dash
    exact noSeparator ⟨Byte.dash :: others, rfl⟩

/-- No separator starts behind a lexeme that ends with a dash, so runs of dashes are not cut. -/
theorem Lexeme.Formed.seam {l : Lexeme} (h : l.Formed) (dash : l.extent.getLast? = some Byte.dash) :
    ¬ ("---" : Text) <+: l.rest := by
  unfold Lexeme.Formed at h
  split at h
  · exact h.seam dash
  · exact h.seam dash

end ThetaSchema
