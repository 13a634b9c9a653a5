import ThetaSchema.QualifiedName
import ThetaSchema.Token.Lexer

/-!
# Scanning texts piece by piece

The tokens of a text that is put together from pieces are the tokens of the pieces, as long as no lexeme
reaches over a seam.  A piece is scanned at some position and in front of what follows it, so the facts
about pieces can be chained.

Main definitions:

- `Token.scan`: the tokens of a text from a position on, without the end of input.
- `Scans`: a piece in front of a text is cut into given tokens.

Main results:

- `TokenStream.tokens_ofText`: the tokens of a stream are scanned from the start of its text.
- `Token.mem_scan`: a token comes from a lexeme of the text.
- `Scans.append`: pieces are scanned one after the other.
-/

namespace ThetaSchema

/-! ## Positions -/

namespace Position

@[simp]
theorem advance_cons (p : Position) (b : UInt8) (t : Text) : p.advance (b :: t) = (p.next b).advance t :=
  rfl

/-- Every byte moves the offset by one, newlines included. -/
theorem next_offset (p : Position) (b : UInt8) : (p.next b).offset = p.offset + 1 := by
  unfold next
  split <;> rfl

/-- The offset counts the bytes of a stretch. -/
theorem advance_offset (p : Position) (t : Text) :
    (p.advance t).offset = p.offset + t.length.toUInt64 := by
  induction t generalizing p with
  | nil => simp
  | cons b t ih =>
    rw [advance_cons, ih, next_offset, List.length_cons, Nat.toUInt64_eq, Nat.toUInt64_eq,
      UInt64.ofNat_add, UInt64.add_assoc, UInt64.add_comm 1]
    rfl

/-- A stretch without a newline stays on its line. -/
theorem advance_line {t : Text} (h : Byte.newline ∉ t) (p : Position) :
    (p.advance t).line = p.line := by
  induction t generalizing p with
  | nil => rfl
  | cons b t ih =>
    rw [List.mem_cons, not_or] at h
    rw [advance_cons, ih h.2, next, if_neg (Ne.symm h.1)]

/-- A newline ends a line. -/
theorem advance_newline_line (p : Position) : (p.advance "\n").line = p.line + 1 := rfl

end Position

/-! ## Tokens from a position on -/

namespace Token

/-- A token touches the one that is placed behind its text. -/
theorem adjacentTo_place (file : Text) (p : Position) (kind kind' : TokenKind) (t u : Text) :
    (place file p kind t).adjacentTo (place file (p.advance t) kind' u) = true := by
  rw [Token.adjacentTo, Token.limit, beq_iff_eq]
  exact (Position.advance_offset p t).symm

/-- The tokens among lexemes that start at a position. -/
def scanLexemes (file : Text) (p : Position) : List Lexeme → List Token
  | [] => []
  | l :: others =>
    (l.token?.map fun token => place file p token.1 token.2).toList ++
      scanLexemes file (p.advance l.extent) others

/-- The tokens of a text that starts at a position. -/
def scan (file : Text) (p : Position) (t : Text) : List Token :=
  scanLexemes file p (Lexeme.ofText t)

/-- The placed tokens are the scanned ones and the end mark behind all lexemes. -/
theorem placeAll_eq (file : Text) (p : Position) (ls : List Lexeme) :
    placeAll file p ls = scanLexemes file p ls ++
      [place file (p.advance (ls.flatMap Lexeme.extent)) .endOfInput []] := by
  induction ls generalizing p with
  | nil => rfl
  | cons l others ih =>
    rw [placeAll, scanLexemes, ih]
    rcases l with ⟨_ | ⟨kind, text⟩, extent, rest⟩ <;> simp

/-- The tokens of a text are the scanned ones and the end mark behind its last byte. -/
theorem ofText_eq (file t : Text) :
    ofText file t = scan file {} t ++ [place file (({} : Position).advance t) .endOfInput []] := by
  rw [ofText, placeAll_eq, Lexeme.flatMap_extent_ofText]
  rfl

/-- Without its end mark a text has the scanned tokens. -/
@[simp]
theorem dropLast_ofText (file t : Text) : (ofText file t).dropLast = scan file {} t := by
  rw [ofText_eq, List.dropLast_concat]

@[simp]
theorem scan_nil (file : Text) (p : Position) : scan file p [] = [] := by
  rw [scan, Lexeme.ofText, scanLexemes]

/-- A text is scanned lexeme by lexeme. -/
theorem scan_cons (file : Text) (p : Position) (b : UInt8) (rest : Text) :
    scan file p (b :: rest) =
      ((Lexeme.read b rest).token?.map fun token => place file p token.1 token.2).toList ++
        scan file (p.advance (Lexeme.read b rest).extent) (Lexeme.read b rest).rest := by
  rw [scan, Lexeme.ofText, scanLexemes, scan]

/-- Every token of a text is a lexeme of it at some place. -/
theorem mem_scan {file : Text} {p : Position} {t : Text} {token : Token}
    (h : token ∈ scan file p t) :
    ∃ b rest, (Lexeme.read b rest).token? = some (token.kind, token.text) := by
  rw [scan] at h
  fun_induction Lexeme.ofText t generalizing p with
  | case1 => simp [scanLexemes] at h
  | case2 b rest ih =>
    rw [scanLexemes, List.mem_append] at h
    rcases h with here | later
    · rcases read : (Lexeme.read b rest).token? with _ | ⟨kind, text⟩
      · simp [read] at here
      · have same : token = place file p kind text := by simpa [read] using here
        exact ⟨b, rest, by rw [read, same]; rfl⟩
    · exact ih later

end Token

namespace Lexeme

theorem punctuation_ne_endOfInput (b : UInt8) : punctuation b ≠ .endOfInput := by
  fun_cases punctuation b <;> decide

/-- The token of a block comment is its own or stands for a comment without an end. -/
theorem ofBlock_kind {mark t text : Text} {token : Text → Option (TokenKind × Text)} {kind : TokenKind}
    (h : (ofBlock mark t token).token? = some (kind, text)) :
    kind = .unterminatedComment ∨ ∃ body, token body = some (kind, text) := by
  unfold ofBlock at h
  split at h
  · next body after cut => exact .inr ⟨body, h⟩
  · cases h
    exact .inl rfl

/-- The token of a comment is documentation, or stands for a comment without an end. -/
theorem ofComment_kind {t text : Text} {kind : TokenKind}
    (h : (ofComment t).token? = some (kind, text)) :
    kind = .documentation ∨ kind = .unterminatedComment := by
  unfold ofComment at h
  split at h
  · cases h
    exact .inl rfl
  · split at h
    · cases h
    · split at h
      · rcases ofBlock_kind h with unterminated | ⟨body, same⟩
        · exact .inr unterminated
        · cases same
          exact .inl rfl
      · rcases ofBlock_kind h with unterminated | ⟨body, same⟩
        · exact .inr unterminated
        · cases same

/-- No lexeme is the end of input. -/
theorem read_kind_ne_endOfInput {b : UInt8} {rest text : Text} {kind : TokenKind}
    (h : (read b rest).token? = some (kind, text)) : kind ≠ .endOfInput := by
  unfold read at h
  split at h
  · cases h
  · split at h
    · rcases ofComment_kind h with rfl | rfl <;> decide
    · split at h
      · cases h
        decide
      · split at h
        · cases h
          decide
        · split at h
          · cases h
            split <;> decide
          · cases h
            exact punctuation_ne_endOfInput b

end Lexeme

/-- The tokens of a stream are scanned from the start of its text. -/
theorem TokenStream.tokens_ofText (file t : Text) :
    (TokenStream.ofText file t).tokens = Token.scan file {} t := by
  have proper : ∀ token ∈ Token.scan file {} t, decide (token.kind ≠ .endOfInput) = true := by
    intro token inside
    rcases Token.mem_scan inside with ⟨b, rest, read⟩
    exact decide_eq_true (Lexeme.read_kind_ne_endOfInput read)
  rw [TokenStream.ofText, Token.ofText_eq, TokenStream.ofTokens]
  rw [List.dropWhile_append_of_pos proper, List.takeWhile_append_of_pos proper]
  simp [Token.place]

/-! ## Pieces of a text -/

/-- The text `t`, from the position `p` on and in front of `k`, is cut into the tokens `ts`, and what
follows is cut on its own. -/
def Scans (file : Text) (p : Position) (t k : Text) (ts : List Token) : Prop :=
  Token.scan file p (t ++ k) = ts ++ Token.scan file (p.advance t) k

variable {file : Text} {p : Position} {k : Text}

theorem Scans.nil (file : Text) (p : Position) (k : Text) : Scans file p [] k [] := rfl

/-- Pieces are scanned one after the other. -/
theorem Scans.append {s t : Text} {ts us : List Token} (first : Scans file p s (t ++ k) ts)
    (second : Scans file (p.advance s) t k us) : Scans file p (s ++ t) k (ts ++ us) := by
  unfold Scans at first second ⊢
  rw [List.append_assoc, first, second, Position.advance_append, List.append_assoc]

/-- A piece that is a lexeme without a token. -/
theorem Scans.skip {b : UInt8} {t : Text} (h : Lexeme.read b (t ++ k) = ⟨none, b :: t, k⟩) :
    Scans file p (b :: t) k [] := by
  rw [Scans, List.cons_append, Token.scan_cons, h]
  rfl

/-- A piece that is a token. -/
theorem Scans.token {b : UInt8} {t text : Text} {kind : TokenKind}
    (h : Lexeme.read b (t ++ k) = ⟨some (kind, text), b :: t, k⟩) :
    Scans file p (b :: t) k [Token.place file p kind text] := by
  rw [Scans, List.cons_append, Token.scan_cons, h]
  rfl

/-- A blank is no token. -/
theorem Scans.blank {b : UInt8} (h : Byte.isBlank b = true) : Scans file p [b] k [] :=
  Scans.skip (by rw [Lexeme.read, if_pos h]; rfl)

/-- Blanks are no tokens. -/
theorem Scans.blanks {t : Text} (h : t.all Byte.isBlank = true) : Scans file p t k [] := by
  induction t generalizing p with
  | nil => exact Scans.nil file p k
  | cons b t ih =>
    rw [List.all_cons, Bool.and_eq_true] at h
    exact Scans.append (Scans.blank h.1) (ih h.2)

/-- A byte that starts no comment, no separator, no identifier and no number is a token on its own. -/
theorem Scans.punctuation {b : UInt8} (blank : Byte.isBlank b = false) (slash : b ≠ Byte.slash)
    (dash : b ≠ Byte.dash) (start : Byte.isIdentifierStart b = false) (digit : Byte.isDigit b = false) :
    Scans file p [b] k [Token.place file p (Lexeme.punctuation b) [b]] := by
  apply Scans.token
  have noComment : Lexeme.opensComment (b :: k) = false := by
    simp [Lexeme.opensComment, slash]
  have noSeparator : Lexeme.opensSeparator (b :: k) = false := by
    simp [Lexeme.opensSeparator, dash]
  simp [Lexeme.read, blank, noComment, noSeparator, start, digit]

end ThetaSchema
