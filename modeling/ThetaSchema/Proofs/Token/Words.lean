import ThetaSchema.Proofs.Token.Scan
import ThetaSchema.Version

/-!
# Scanning words, numbers and marks

Identifiers and numbers are scanned as one token each, in front of anything that does not go on with them;
and whatever is scanned as an identifier is one.

Main results:

- `Scans.identifier`, `Scans.integer`, `Scans.version`: words and numbers are single tokens.
- `Lexeme.isIdentifier_of_read`: the text of an identifier token is an identifier.
-/

namespace ThetaSchema

/-! ## Classes of bytes -/

/-- What holds of every number below 256 holds of every byte. -/
theorem Byte.forall_of_forall_fin {P : UInt8 → Prop} (h : ∀ n : Fin 256, P (UInt8.ofFin n)) :
    ∀ b, P b := by
  intro b
  have same : UInt8.ofFin b.toFin = b := by simp
  rw [← same]
  exact h b.toFin

/-- A byte that starts an identifier starts nothing else. -/
theorem Byte.isIdentifierStart_only : ∀ {b : UInt8}, isIdentifierStart b = true →
    isBlank b = false ∧ b ≠ slash ∧ b ≠ dash ∧ b ≠ dot ∧ b ≠ newline :=
  @(forall_of_forall_fin (by decide +kernel))

/-- A digit starts a number and nothing else. -/
theorem Byte.isDigit_only : ∀ {b : UInt8}, isDigit b = true →
    isBlank b = false ∧ b ≠ slash ∧ b ≠ dash ∧ b ≠ dot ∧ b ≠ newline ∧
      isIdentifierStart b = false :=
  @(forall_of_forall_fin (by decide +kernel))

/-- Neither a dot nor a newline belongs to an identifier. -/
theorem Byte.isIdentifierByte_only {b : UInt8} (h : isIdentifierByte b = true) :
    b ≠ dot ∧ b ≠ newline := by
  rw [isIdentifierByte, Bool.or_eq_true] at h
  rcases h with start | digit
  · exact (isIdentifierStart_only start).2.2.2
  · exact ⟨(isDigit_only digit).2.2.2.1, (isDigit_only digit).2.2.2.2.1⟩

/-- Every byte of an identifier belongs to the class of identifier bytes. -/
theorem all_isIdentifierByte {w : Text} (h : isIdentifier w = true) :
    ∀ b ∈ w, Byte.isIdentifierByte b = true := by
  cases w with
  | nil => simp
  | cons b t =>
    simp only [isIdentifier, Bool.and_eq_true, List.all_eq_true] at h
    intro c inside
    rcases List.mem_cons.mp inside with rfl | later
    · simp [Byte.isIdentifierByte, h.1]
    · exact h.2 c later

/-- An identifier has no dot and no newline. -/
theorem not_mem_identifier {w : Text} (h : isIdentifier w = true) :
    Byte.dot ∉ w ∧ Byte.newline ∉ w := by
  constructor
  · intro inside
    exact (Byte.isIdentifierByte_only (all_isIdentifierByte h _ inside)).1 rfl
  · intro inside
    exact (Byte.isIdentifierByte_only (all_isIdentifierByte h _ inside)).2 rfl

/-! ## Identifiers -/

/-- A text that does not go on with an identifier. -/
def EndsWord (k : Text) : Prop :=
  ∀ b ∈ k.head?, Byte.isIdentifierByte b = false

theorem EndsWord.cons {b : UInt8} (h : Byte.isIdentifierByte b = false) (k : Text) : EndsWord (b :: k) := by
  simpa [EndsWord] using h

/-- A run of a class of bytes ends where the next byte is outside the class. -/
theorem run_append {q : UInt8 → Bool} {t k : Text} (inside : ∀ b ∈ t, q b = true)
    (outside : ∀ b ∈ k.head?, q b = false) :
    (t ++ k).takeWhile q = t ∧ (t ++ k).dropWhile q = k := by
  rw [List.takeWhile_append_of_pos inside, List.dropWhile_append_of_pos inside]
  cases k with
  | nil => simp
  | cons b k =>
    have stop : q b = false := outside b rfl
    simp [stop]

variable {file : Text} {p : Position} {k : Text}

/-- An identifier is a token of its own. -/
theorem Scans.identifier {w : Text} (h : isIdentifier w = true) (ends : EndsWord k) :
    Scans file p w k [Token.place file p .identifier w] := by
  rcases run_append (all_isIdentifierByte h) ends with ⟨taken, dropped⟩
  cases w with
  | nil => cases h
  | cons b t =>
    simp only [isIdentifier, Bool.and_eq_true] at h
    rcases Byte.isIdentifierStart_only h.1 with ⟨blank, slash, dash, -⟩
    apply Scans.token
    have noComment : Lexeme.opensComment (b :: (t ++ k)) = false := by
      simp [Lexeme.opensComment, slash]
    have noSeparator : Lexeme.opensSeparator (b :: (t ++ k)) = false := by
      simp [Lexeme.opensSeparator, dash]
    rw [List.cons_append] at taken dropped
    rw [Lexeme.read, if_neg (by simp [blank]), if_neg (by simp [noComment]),
      if_neg (by simp [noSeparator]), if_pos h.1, Lexeme.ofRun, taken, dropped]

/-- The text of an identifier token is an identifier. -/
theorem Lexeme.isIdentifier_of_read {b : UInt8} {rest text : Text}
    (h : (read b rest).token? = some (.identifier, text)) : isIdentifier text = true := by
  unfold read at h
  split at h
  · cases h
  · split at h
    · rcases ofComment_kind h with other | other <;> cases other
    · split at h
      · cases h
      · split at h
        · next start =>
          have same : (b :: rest).takeWhile Byte.isIdentifierByte = text := by
            simpa [ofRun] using h
          have first : Byte.isIdentifierByte b = true := by simp [Byte.isIdentifierByte, start]
          rw [List.takeWhile_cons_of_pos first] at same
          subst same
          simp [isIdentifier, start]
        · split at h
          · simp only [Option.some.injEq, Prod.mk.injEq] at h
            split at h <;> cases h.1
          · revert h
            fun_cases punctuation b <;> simp

/-! ## Numbers -/

/-- A text that does not go on with a number. -/
def EndsNumber (k : Text) : Prop :=
  ∀ b ∈ k.head?, Byte.isDigit b = false ∧ b ≠ Byte.dot

/-- A number ends in front of a byte that is neither a digit nor a dot. -/
theorem EndsNumber.cons {b : UInt8} (digit : Byte.isDigit b = false) (dot : b ≠ Byte.dot) (k : Text) :
    EndsNumber (b :: k) := by
  simpa [EndsNumber] using And.intro digit dot

namespace Lexeme

/-- No numeral starts where a number has ended. -/
theorem numeral_of_ends (ends : EndsNumber k) : numeral k = [] := by
  cases k with
  | nil => rfl
  | cons b k =>
    have stop := ends b rfl
    simp [numeral, stop]

/-- Digits go on with the number behind them. -/
theorem numeral_digits {t : Text} (h : t.all Byte.isDigit = true) (k : Text) :
    numeral (t ++ k) = t ++ numeral k := by
  induction t with
  | nil => rfl
  | cons b t ih =>
    rw [List.all_cons, Bool.and_eq_true] at h
    rw [List.cons_append, numeral, if_pos h.1, ih h.2]
    rfl

/-- A dot in front of digits belongs to the number. -/
theorem numeral_dot {t : Text} (nonempty : t ≠ []) (h : t.all Byte.isDigit = true) (k : Text) :
    numeral (Byte.dot :: (t ++ k)) = Byte.dot :: (t ++ numeral k) := by
  rw [numeral, if_neg (by decide), if_pos, numeral_digits h]
  cases t with
  | nil => exact absurd rfl nonempty
  | cons b t =>
    rw [List.all_cons, Bool.and_eq_true] at h
    simp [h.1]

end Lexeme

/-- A number is a token of its own; a dot in it makes it a version. -/
theorem Scans.number {t : Text} (start : ∀ b ∈ t.head?, Byte.isDigit b = true) (nonempty : t ≠ [])
    (whole : Lexeme.numeral (t ++ k) = t) :
    Scans file p t k [Token.place file p (if t.contains Byte.dot then .version else .integer) t] := by
  cases t with
  | nil => exact absurd rfl nonempty
  | cons b t =>
    have digit : Byte.isDigit b = true := start b rfl
    rcases Byte.isDigit_only digit with ⟨blank, slash, dash, -, -, identifier⟩
    apply Scans.token
    have noComment : Lexeme.opensComment (b :: (t ++ k)) = false := by
      simp [Lexeme.opensComment, slash]
    have noSeparator : Lexeme.opensSeparator (b :: (t ++ k)) = false := by
      simp [Lexeme.opensSeparator, dash]
    have left : (b :: (t ++ k)).drop (b :: t).length = k := by simp
    rw [List.cons_append] at whole
    rw [Lexeme.read, if_neg (by simp [blank]), if_neg (by simp [noComment]),
      if_neg (by simp [noSeparator]), if_neg (by simp [identifier]), if_pos digit, whole]
    dsimp only
    rw [left]

/-- A number is written with a digit in front. -/
theorem Decimal.head_render (n : Nat) : ∀ b ∈ (render n).head?, Byte.isDigit b = true := by
  intro b first
  have digits := all_isDigit_render n
  rw [List.all_eq_true] at digits
  exact digits b (List.mem_of_mem_head? first)

/-- A number is written without dots and newlines. -/
theorem Decimal.not_mem_render (n : Nat) : Byte.dot ∉ render n ∧ Byte.newline ∉ render n := by
  have digits := all_isDigit_render n
  rw [List.all_eq_true] at digits
  constructor
  · intro inside
    exact absurd (digits _ inside) (by decide)
  · intro inside
    exact absurd (digits _ inside) (by decide)

/-- A written number is an integer token. -/
theorem Scans.integer (n : Nat) (ends : EndsNumber k) :
    Scans file p (Decimal.render n) k [Token.place file p .integer (Decimal.render n)] := by
  have whole : Lexeme.numeral (Decimal.render n ++ k) = Decimal.render n := by
    rw [Lexeme.numeral_digits (Decimal.all_isDigit_render n), Lexeme.numeral_of_ends ends, List.append_nil]
  have scanned : Scans file p _ k _ :=
    Scans.number (Decimal.head_render n) (Decimal.render_ne_nil n) whole
  simpa [(Decimal.not_mem_render n).1] using scanned

/-- A version is written as three numbers with dots between them. -/
theorem Version.render_eq (v : Version) :
    v.render = Decimal.render v.major.toNat ++ Byte.dot :: (Decimal.render v.minor.toNat ++
      Byte.dot :: Decimal.render v.patch.toNat) := by
  have point : ("." : Text) = [Byte.dot] := by decide
  rw [Version.render, point]
  simp

/-- A written version is a version token. -/
theorem Scans.version (v : Version) (ends : EndsNumber k) :
    Scans file p v.render k [Token.place file p .version v.render] := by
  have whole : Lexeme.numeral (v.render ++ k) = v.render := by
    rw [Version.render_eq, List.append_assoc, List.cons_append, List.append_assoc, List.cons_append,
      Lexeme.numeral_digits (Decimal.all_isDigit_render _),
      Lexeme.numeral_dot (Decimal.render_ne_nil _) (Decimal.all_isDigit_render _),
      Lexeme.numeral_dot (Decimal.render_ne_nil _) (Decimal.all_isDigit_render _),
      Lexeme.numeral_of_ends ends, List.append_nil]
  have nonempty : v.render ≠ [] := by
    rw [Version.render_eq]
    simp
  have start : ∀ b ∈ v.render.head?, Byte.isDigit b = true := by
    intro b first
    rw [Version.render_eq, List.head?_append] at first
    rcases List.exists_cons_of_ne_nil (Decimal.render_ne_nil v.major.toNat) with ⟨d, ds, digits⟩
    rw [digits] at first
    exact Decimal.head_render v.major.toNat b (by rw [digits]; exact first)
  have dotted : v.render.contains Byte.dot = true := by
    rw [Version.render_eq]
    simp
  have scanned : Scans file p _ k _ := Scans.number start nonempty whole
  rwa [if_pos dotted] at scanned

end ThetaSchema
