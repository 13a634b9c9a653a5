import Mathlib.Data.List.TakeWhile
import ThetaSchema.Proofs.Token.Scan

/-!
# Texts with a line break between them

A newline separates what stands in front of it from what stands behind it: a lexeme that ends in front of
the newline is the same one with anything behind.  There are two exceptions, which only the last token of
a text can be.  A comment without an end goes on behind the newline, and so does documentation if what
follows goes on with another line of it.

Main definitions:

- `Lexeme.extend`: a lexeme with more text behind it.
- `Lexeme.Sealed`: a lexeme that does not reach over a newline behind its text.

Main results:

- `Lexeme.read_append_newline`: a lexeme in front of a newline and any text.
- `Scans.of_last`: a text in front of a newline and another text is scanned as it is on its own.
-/

namespace ThetaSchema

namespace Lexeme

variable {t k : Text}

/-- The same lexeme with more text behind it. -/
def extend (l : Lexeme) (k : Text) : Lexeme :=
  { l with rest := l.rest ++ k }

/-! ## Opening marks and runs -/

/-- A mark without a newline stands at the front of a text with a newline and anything behind exactly if it
stands at the front of the text. -/
theorem take_append_newline {mark : Text} (absent : Byte.newline ∉ mark) (t k : Text) :
    ((t ++ Byte.newline :: k).take mark.length == mark) = (t.take mark.length == mark) := by
  induction mark generalizing t with
  | nil => simp
  | cons b mark ih =>
    rw [List.mem_cons, not_or] at absent
    cases t with
    | nil => simp [absent.1]
    | cons c t => simp [ih absent.2 t]

/-- A text that starts with a mark is as long as the mark at least. -/
theorem length_of_take_beq {n : Nat} {t mark : Text} (h : (t.take n == mark) = true) (size : mark.length = n) :
    n ≤ t.length := by
  have same := congrArg List.length (beq_iff_eq.mp h)
  rw [List.length_take, size] at same
  omega

/-- The same for a mark of three bytes that no slash may follow. -/
theorem take_append_newline_noSlash {mark : Text} (absent : Byte.newline ∉ mark) (size : mark.length = 3)
    (t k : Text) :
    ((t ++ Byte.newline :: k).take 3 == mark && (t ++ Byte.newline :: k)[3]? != some Byte.slash) =
      (t.take 3 == mark && t[3]? != some Byte.slash) := by
  rw [← size, take_append_newline absent, size]
  cases starts : t.take 3 == mark with
  | false => rfl
  | true =>
    rcases Nat.eq_or_lt_of_le (length_of_take_beq starts size) with exact | more
    · rw [List.getElem?_append_right exact.ge, List.getElem?_eq_none exact.ge, exact, Nat.sub_self]
      rfl
    · rw [List.getElem?_append_left more]

/-- Whether a documentation line opens is decided in front of a newline. -/
theorem opensDocLine_append_newline (t k : Text) :
    opensDocLine (t ++ Byte.newline :: k) = opensDocLine t :=
  take_append_newline_noSlash (by decide) rfl t k

/-- Whether a documentation block opens is decided in front of a newline. -/
theorem opensDocBlock_append_newline (t k : Text) :
    opensDocBlock (t ++ Byte.newline :: k) = opensDocBlock t :=
  take_append_newline_noSlash (by decide) rfl t k

/-- Whether a comment opens is decided in front of a newline. -/
theorem opensComment_append_newline (t k : Text) :
    opensComment (t ++ Byte.newline :: k) = opensComment t :=
  congrArg₂ or (@take_append_newline [Byte.slash, Byte.slash] (by decide) t k)
    (@take_append_newline [Byte.slash, Byte.star] (by decide) t k)

/-- Whether a separator opens is decided in front of a newline. -/
theorem opensSeparator_append_newline (t k : Text) :
    opensSeparator (t ++ Byte.newline :: k) = opensSeparator t :=
  @take_append_newline [Byte.dash, Byte.dash, Byte.dash] (by decide) t k

/-- A run of a class of bytes that newlines do not belong to ends at a newline. -/
theorem run_append_newline {q : UInt8 → Bool} (stop : q Byte.newline = false) (t k : Text) :
    (t ++ Byte.newline :: k).takeWhile q = t.takeWhile q ∧
      (t ++ Byte.newline :: k).dropWhile q = t.dropWhile q ++ Byte.newline :: k := by
  induction t with
  | nil => simp [stop]
  | cons b t ih => cases h : q b <;> simp [h, ih]

/-- A run of bytes without newlines ends in front of a newline. -/
theorem ofRun_append_newline {q : UInt8 → Bool} (stop : q Byte.newline = false) (kind : TokenKind) (t k : Text) :
    ofRun kind q (t ++ Byte.newline :: k) = (ofRun kind q t).extend (Byte.newline :: k) := by
  obtain ⟨taken, left⟩ := run_append_newline stop t k
  rw [ofRun, taken, left]
  rfl

/-! ## Documentation lines -/

/-- Blanks that something follows are the same with more text behind. -/
theorem blanks_append {u : Text} (follows : afterBlanks u ≠ []) (k : Text) :
    blanks (u ++ k) = blanks u ∧ afterBlanks (u ++ k) = afterBlanks u ++ k := by
  induction u with
  | nil => exact absurd rfl follows
  | cons b u ih =>
    simp only [blanks, afterBlanks] at follows ih ⊢
    cases blank : Byte.isBlank b with
    | false => simp [blank]
    | true =>
      rw [List.dropWhile_cons_of_pos blank] at follows
      simp [blank, ih follows]

/-- Blanks in front of a newline go on behind it. -/
theorem afterBlanks_append_newline {u : Text} (blank : afterBlanks u = []) (k : Text) :
    afterBlanks (u ++ Byte.newline :: k) = afterBlanks k := by
  rw [afterBlanks, List.dropWhile_append_of_pos (List.dropWhile_eq_nil_iff.mp blank)]
  rfl

/-- A first line ends at a newline that is put behind it. -/
theorem firstLine_extend (t k : Text) :
    firstLine (t ++ Byte.newline :: k) = firstLine t ∧
      afterFirstLine (t ++ Byte.newline :: k) = afterFirstLine t ++ Byte.newline :: k :=
  run_append_newline rfl t k

/-- A documentation line has three slashes at least. -/
theorem length_of_opensDocLine {t : Text} (opens : opensDocLine t = true) : 3 ≤ t.length := by
  rw [opensDocLine, Bool.and_eq_true] at opens
  exact length_of_take_beq opens.1 rfl

/-- A run of documentation lines in front of a newline is the same with any text behind, if that text does
not go on with the run. -/
theorem docRun_append_newline {t k : Text}
    (settled : afterBlanks (docRun t).rest = [] → opensDocLine (afterBlanks k) = false) :
    docRun (t ++ Byte.newline :: k) = { docRun t with rest := (docRun t).rest ++ Byte.newline :: k } := by
  fun_induction docRun t with
  | case1 t next opens run ih =>
    -- The blanks end at the next line of the run, so they do not reach the newline.
    have long := length_of_opensDocLine opens
    have follows : next ≠ [] := List.ne_nil_of_length_pos (by omega)
    obtain ⟨first, after⟩ := firstLine_extend t k
    obtain ⟨gap, behind⟩ := blanks_append follows (Byte.newline :: k)
    rw [docRun, first, after, gap, behind]
    change (if opensDocLine (next ++ Byte.newline :: k) = true then _ else _) = _
    rw [opensDocLine_append_newline, if_pos opens, List.take_append_of_le_length long,
      List.drop_append_of_le_length long, ih settled]
  | case2 t next noLine =>
    obtain ⟨first, after⟩ := firstLine_extend t k
    have ends : opensDocLine (afterBlanks (afterFirstLine t ++ Byte.newline :: k)) = false := by
      by_cases follows : next = []
      · rw [afterBlanks_append_newline follows]
        exact settled follows
      · rw [(blanks_append follows _).2, opensDocLine_append_newline]
        exact Bool.eq_false_iff.mpr noLine
    rw [docRun, first, after]
    simp only [ends]
    rfl

/-! ## Block comments -/

/-- A block comment that is closed is the same with any text behind. -/
theorem cutAtClose_extend {t body after : Text} (cut : cutAtClose t = some (body, after)) (k : Text) :
    cutAtClose (t ++ k) = some (body, after ++ k) := by
  induction t generalizing body with
  | nil => cases cut
  | cons b rest ih =>
    unfold cutAtClose at cut
    split at cut
    · next close =>
      obtain ⟨rfl, head⟩ := close
      obtain ⟨tail, rfl⟩ := List.head?_eq_some_iff.mp head
      cases cut
      simp [cutAtClose]
    · next goes =>
      obtain ⟨⟨body', after'⟩, inner, pair⟩ := Option.map_eq_some_iff.mp cut
      cases pair
      have next : (rest ++ k).head? = rest.head? := by
        cases rest with
        | nil => cases inner
        | cons => rfl
      rw [List.cons_append, cutAtClose, next, if_neg goes, ih inner]
      rfl

/-- A block comment that is closed does not depend on what stands behind. -/
theorem ofBlock_extend {mark t : Text} {token : Text → Option (TokenKind × Text)}
    (ended : ∀ text, (ofBlock mark t token).token? ≠ some (.unterminatedComment, text)) (k : Text) :
    ofBlock mark (t ++ k) token = (ofBlock mark t token).extend k := by
  unfold ofBlock at ended ⊢
  cases cut : cutAtClose t with
  | none =>
    rw [cut] at ended
    exact absurd rfl (ended mark)
  | some parts => rw [cutAtClose_extend cut]; rfl

/-! ## Lexemes in front of a newline -/

/-- A lexeme that does not reach over a newline behind its text: no comment without an end, and no
documentation that the text behind the newline goes on with. -/
structure Sealed (l : Lexeme) (k : Text) : Prop where
  ended : ∀ text, l.token? ≠ some (.unterminatedComment, text)
  settled : ∀ text, l.token? = some (.documentation, text) → afterBlanks l.rest = [] →
    opensDocLine (afterBlanks k) = false

/-- A comment ends in front of a newline, as far as its seal tells. -/
theorem ofComment_append_newline {t k : Text} (opens : opensComment t = true) (h : (ofComment t).Sealed k) :
    ofComment (t ++ Byte.newline :: k) = (ofComment t).extend (Byte.newline :: k) := by
  have two : 2 ≤ t.length := by
    rw [opensComment, Bool.or_eq_true] at opens
    exact opens.elim (length_of_take_beq · rfl) (length_of_take_beq · rfl)
  unfold ofComment at h ⊢
  rw [opensDocLine_append_newline, opensDocBlock_append_newline, List.take_append_of_le_length two]
  split
  · next line =>
    have three := length_of_opensDocLine line
    rw [if_pos line] at h
    rw [List.take_append_of_le_length three, List.drop_append_of_le_length three,
      docRun_append_newline (h.settled _ rfl)]
    rfl
  · next noLine =>
    rw [if_neg noLine] at h
    split
    · obtain ⟨first, after⟩ := firstLine_extend t k
      rw [first, after]
      rfl
    · next noSlashes =>
      rw [if_neg noSlashes] at h
      split
      · next block =>
        have three : 3 ≤ t.length := by
          rw [opensDocBlock, Bool.and_eq_true] at block
          exact length_of_take_beq block.1 rfl
        rw [if_pos block] at h
        rw [List.take_append_of_le_length three, List.drop_append_of_le_length three]
        exact ofBlock_extend h.ended _
      · next noBlock =>
        rw [if_neg noBlock] at h
        rw [List.drop_append_of_le_length two]
        exact ofBlock_extend h.ended _

/-- A numeral ends at a newline. -/
theorem numeral_append_newline (t k : Text) : numeral (t ++ Byte.newline :: k) = numeral t := by
  induction t with
  | nil => rfl
  | cons b rest ih =>
    have next : (rest ++ Byte.newline :: k).head?.any Byte.isDigit = rest.head?.any Byte.isDigit := by
      cases rest <;> rfl
    rw [List.cons_append, numeral, numeral, next, ih]

/-- A numeral is no longer than its text. -/
theorem length_numeral_le (t : Text) : (numeral t).length ≤ t.length := by
  have whole := congrArg List.length (numeral_append_drop t)
  rw [List.length_append] at whole
  omega

/-- A lexeme in front of a newline and any text is the one in front of nothing. -/
theorem read_append_newline {b : UInt8} {rest k : Text} (h : (read b rest).Sealed k) :
    read b (rest ++ Byte.newline :: k) = (read b rest).extend (Byte.newline :: k) := by
  have dashes := ofRun_append_newline (q := (· == Byte.dash)) rfl .separator (b :: rest) k
  have word := ofRun_append_newline (q := Byte.isIdentifierByte) rfl .identifier (b :: rest) k
  have left : (b :: rest ++ Byte.newline :: k).drop (numeral (b :: rest)).length = _ :=
    List.drop_append_of_le_length (length_numeral_le (b :: rest))
  unfold read at h ⊢
  rw [← List.cons_append, opensComment_append_newline, opensSeparator_append_newline, numeral_append_newline,
    dashes, word]
  split
  · rfl
  · next noBlank =>
    rw [if_neg noBlank] at h
    split
    · next opens =>
      rw [if_pos opens] at h
      exact ofComment_append_newline opens h
    · split
      · rfl
      · split
        · rfl
        · split
          · simp only [left]
            rfl
          · rfl

/-! ## Comments without an end -/

/-- Nothing follows the lexeme if it is a comment without an end. -/
def EndsUnterminated (l : Lexeme) : Prop :=
  ∀ text, l.token? = some (.unterminatedComment, text) → l.rest = []

/-- A lexeme of another kind than that of comments without an end is not one. -/
theorem endsUnterminated_of_ne {kind : TokenKind} {text extent rest : Text}
    (other : kind ≠ .unterminatedComment) : EndsUnterminated ⟨some (kind, text), extent, rest⟩ := by
  intro text' same
  cases same
  exact absurd rfl other

/-- A block comment without an end covers the rest of the text. -/
theorem ofBlock_endsUnterminated {mark t : Text} {token : Text → Option (TokenKind × Text)}
    (other : ∀ body text, token body ≠ some (.unterminatedComment, text)) :
    EndsUnterminated (ofBlock mark t token) := by
  intro text same
  unfold ofBlock at same ⊢
  split at same
  · exact absurd same (other _ _)
  · rfl

/-- A comment without an end covers the rest of the text. -/
theorem read_endsUnterminated (b : UInt8) (rest : Text) : EndsUnterminated (read b rest) := by
  unfold read
  split
  · intro text same
    cases same
  · split
    · unfold ofComment
      split
      · exact endsUnterminated_of_ne (by decide)
      · split
        · intro text same
          cases same
        · split
          · exact ofBlock_endsUnterminated fun _ _ same => by cases same
          · exact ofBlock_endsUnterminated fun _ _ same => by cases same
    · repeat' split
      · exact endsUnterminated_of_ne (by decide)
      · exact endsUnterminated_of_ne (by decide)
      · exact endsUnterminated_of_ne (by split <;> decide)
      · exact endsUnterminated_of_ne (by fun_cases punctuation b <;> decide)

end Lexeme

/-! ## Texts in front of a newline -/

/-- Blanks hold no token. -/
theorem Token.scan_of_blank {t : Text} (blank : Lexeme.afterBlanks t = []) (file : Text) (p : Position) :
    scan file p t = [] := by
  have scanned : Scans file p t [] [] :=
    Scans.blanks (List.all_eq_true.mpr (List.dropWhile_eq_nil_iff.mp blank))
  rwa [Scans, List.append_nil, scan_nil] at scanned

/-- A text in front of a newline and another text is scanned as it is on its own, unless its last token is a
comment without an end, or documentation that the other text goes on with. -/
theorem Scans.of_last {file : Text} {p : Position} {t k : Text}
    (last : ∀ token ∈ (Token.scan file p t).getLast?, token.kind ≠ .unterminatedComment ∧
      (token.kind = .documentation → Lexeme.opensDocLine (Lexeme.afterBlanks k) = false)) :
    Scans file p t (Byte.newline :: k) (Token.scan file p t) := by
  cases t with
  | nil =>
    rw [Token.scan_nil]
    exact Scans.nil file p _
  | cons b rest =>
    rw [Token.scan_cons] at last ⊢
    have isLast : ∀ {kind text}, (Lexeme.read b rest).token? = some (kind, text) →
        Lexeme.afterBlanks (Lexeme.read b rest).rest = [] → kind ≠ .unterminatedComment ∧
          (kind = .documentation → Lexeme.opensDocLine (Lexeme.afterBlanks k) = false) := by
      intro kind text read blank
      refine last (Token.place file p kind text) ?_
      rw [read, Token.scan_of_blank blank]
      exact rfl
    have isSealed : (Lexeme.read b rest).Sealed k := by
      refine ⟨fun text read => ?_, fun text read blank => (isLast read blank).2 rfl⟩
      have nothing := Lexeme.read_endsUnterminated b rest text read
      exact (isLast read (by rw [nothing]; rfl)).1 rfl
    have shorter := Lexeme.read_rest_length_lt b rest
    have inner : Scans file (p.advance (Lexeme.read b rest).extent) (Lexeme.read b rest).rest _ _ :=
      Scans.of_last fun token mem => last token (by rw [List.getLast?_append, mem]; exact rfl)
    rw [Scans] at inner ⊢
    rw [List.cons_append, Token.scan_cons, Lexeme.read_append_newline isSealed]
    simp only [Lexeme.extend]
    rw [inner, ← Position.advance_append, Lexeme.read_extent_append_rest, List.append_assoc]
termination_by t.length

/-- The tokens behind a newline follow those of the text in front of it. -/
theorem Scans.scan_newline {file : Text} {p : Position} {t k : Text} {ts : List Token}
    (h : Scans file p t (Byte.newline :: k) ts) :
    Token.scan file p (t ++ Byte.newline :: k) =
      ts ++ Token.scan file (p.advance (t ++ [Byte.newline])) k := by
  have joined : Scans file p (t ++ [Byte.newline]) k (ts ++ []) := Scans.append h (Scans.blank rfl)
  rwa [Scans, List.append_assoc, List.append_nil] at joined

end ThetaSchema
