import ThetaSchema.Proofs.Grammar.Body
import ThetaSchema.Proofs.Text.Parts
import ThetaSchema.Proofs.Token.Words

/-!
# Texts that spell phrases

A text spells a phrase of the grammar if its tokens derive the phrase, wherever the text starts.  Whether
it does may depend on what follows it, since a word could go on there.  Phrases that are spelled one after
the other make up larger ones.

Main definitions:

- `Spells`: a text is cut into tokens that a rule accepts.

Main results:

- `Spells.tokens_ofText`: the tokens of a whole text are those it is cut into.
- `Spells.append`: texts that are put together spell what their parts spell.
- `Spells.items`, `Spells.join`: lists with a mark between neighbours.
-/

namespace ThetaSchema

/-- The text `t` in front of `k` is cut into tokens with a property, wherever it starts. -/
def Spells (file t k : Text) (P : List Token → Prop) : Prop :=
  ∀ p, ∃ ts, Scans file p t k ts ∧ P ts

variable {file s t k : Text} {P Q : List Token → Prop}

namespace Spells

theorem imp (h : Spells file t k P) (implies : ∀ ts, P ts → Q ts) : Spells file t k Q := by
  intro p
  rcases h p with ⟨ts, scanned, property⟩
  exact ⟨ts, scanned, implies ts property⟩

/-- Texts that are put together are cut into the tokens of the one and of the other. -/
theorem append (first : Spells file s (t ++ k) P) (second : Spells file t k Q) :
    Spells file (s ++ t) k fun ts => ∃ us vs, ts = us ++ vs ∧ P us ∧ Q vs := by
  intro p
  rcases first p with ⟨us, scanned, property⟩
  rcases second (p.advance s) with ⟨vs, scanned', property'⟩
  exact ⟨us ++ vs, scanned.append scanned', us, vs, rfl, property, property'⟩

/-- Blanks in front of a text do not matter. -/
theorem behind (blank : s.all Byte.isBlank = true) (h : Spells file t k P) :
    Spells file (s ++ t) k P := by
  intro p
  rcases h (p.advance s) with ⟨ts, scanned, property⟩
  exact ⟨ts, (Scans.blanks blank).append scanned, property⟩

/-- Blanks behind a text do not matter. -/
theorem before (h : Spells file s (t ++ k) P) (blank : t.all Byte.isBlank = true) :
    Spells file (s ++ t) k P := by
  intro p
  rcases h p with ⟨ts, scanned, property⟩
  refine ⟨ts, ?_, property⟩
  have whole := scanned.append (Scans.blanks (p := p.advance s) blank)
  rwa [List.append_nil] at whole

/-- The empty text spells nothing. -/
theorem nil : Spells file [] k (· = []) := by
  intro p
  exact ⟨[], Scans.nil file p k, rfl⟩

/-- The tokens of a whole text are those it is cut into. -/
theorem tokens_ofText (h : Spells file t [] P) : P (TokenStream.ofText file t).tokens := by
  rcases h {} with ⟨ts, scanned, property⟩
  have whole : Token.scan file {} t = ts := by
    rw [Scans, List.append_nil, Token.scan_nil, List.append_nil] at scanned
    exact scanned
  rwa [TokenStream.tokens_ofText, whole]

/-! ## Words and marks -/

/-- An identifier is a word. -/
theorem word {w : Text} (identifier : isIdentifier w = true) (ends : EndsWord k) :
    Spells file w k fun ts => ∃ t, ts = [t] ∧ t.kind = .identifier ∧ t.text = w := by
  intro p
  exact ⟨_, Scans.identifier identifier ends, _, rfl, rfl, rfl⟩

end Spells

/-- A byte that is a token of its own. -/
def IsMark (b : UInt8) (kind : TokenKind) : Prop :=
  Byte.isBlank b = false ∧ b ≠ Byte.slash ∧ b ≠ Byte.dash ∧ Byte.isIdentifierStart b = false ∧
    Byte.isDigit b = false ∧ Lexeme.punctuation b = kind

instance (b : UInt8) (kind : TokenKind) : Decidable (IsMark b kind) :=
  inferInstanceAs (Decidable (_ ∧ _))

namespace Spells

theorem mark {b : UInt8} {kind : TokenKind} (h : IsMark b kind) :
    Spells file [b] k fun ts => ∃ t, ts = [t] ∧ t.kind = kind := by
  rcases h with ⟨blank, slash, dash, start, digit, same⟩
  intro p
  exact ⟨_, Scans.punctuation blank slash dash start digit, _, rfl, same⟩

/-- A mark and what stands behind it. -/
theorem mark_cons {b : UInt8} {kind : TokenKind} (h : IsMark b kind) (rest : Spells file t k P) :
    Spells file (b :: t) k fun ts => ∃ u us, ts = u :: us ∧ u.kind = kind ∧ P us := by
  refine ((mark h).append rest).imp ?_
  rintro _ ⟨_, us, rfl, ⟨u, rfl, isMark⟩, property⟩
  exact ⟨u, us, rfl, isMark, property⟩

/-- A word and what stands behind it. -/
theorem word_append {w : Text} (identifier : isIdentifier w = true) (ends : EndsWord (t ++ k))
    (rest : Spells file t k P) :
    Spells file (w ++ t) k fun ts =>
      ∃ u us, ts = u :: us ∧ u.kind = .identifier ∧ u.text = w ∧ P us := by
  refine ((word identifier ends).append rest).imp ?_
  rintro _ ⟨_, us, rfl, ⟨u, rfl, kind, text⟩, property⟩
  exact ⟨u, us, rfl, kind, text, property⟩

/-! ## Lists -/

variable {α β : Type} {mark : TokenKind} {item : List Token → β → Prop}

/-- An item and further ones with a mark in front of each are a list. -/
theorem items {first : Text} {b : β} (next : α → Text) (read : α → β) (as : List α)
    (one : ∀ k, EndsWord k → Spells file first k (item · b))
    (apart : ∀ a k, EndsWord (next a ++ k))
    (others : ∀ a ∈ as, ∀ k, EndsWord k → Spells file (next a) k fun ts =>
      ∃ u us, ts = u :: us ∧ u.kind = mark ∧ item us (read a))
    (ends : EndsWord k) :
    Spells file (first ++ as.flatMap next) k (DerivesList mark item · (b :: as.map read)) := by
  -- A further item follows what ends a word, whether or not there is one.
  have follows : ∀ as : List α, EndsWord (as.flatMap next ++ k) := by
    intro as
    cases as with
    | nil => exact ends
    | cons a as =>
      rw [List.flatMap_cons, List.append_assoc]
      exact apart a _
  have further : ∀ as : List α, (∀ a ∈ as, ∀ k, EndsWord k → Spells file (next a) k fun ts =>
      ∃ u us, ts = u :: us ∧ u.kind = mark ∧ item us (read a)) →
      Spells file (as.flatMap next) k fun ts => ∀ first b, item first b →
        DerivesList mark item (first ++ ts) (b :: as.map read) := by
    intro as each
    induction as with
    | nil =>
      refine nil.imp ?_
      rintro _ rfl first b one
      rw [List.append_nil]
      exact .single one
    | cons a as ih =>
      have rest := ih fun x mem => each x (List.mem_cons_of_mem a mem)
      refine ((each a List.mem_cons_self _ (follows as)).append rest).imp ?_
      rintro _ ⟨_, vs, rfl, ⟨u, us, rfl, isMark, derived⟩, more⟩ first b one
      exact .cons one isMark (more us _ derived)
  refine ((one _ (follows as)).append (further as others)).imp ?_
  rintro _ ⟨us, vs, rfl, derived, more⟩
  exact more us b derived

end Spells

/-- A text that separates items: a mark between blanks, with a blank or the mark in front. -/
structure IsSeparator (separator : Text) (mark : TokenKind) : Prop where
  split : ∃ front b back, separator = front ++ b :: back ∧ front.all Byte.isBlank = true ∧
    IsMark b mark ∧ back.all Byte.isBlank = true
  ends : ∀ k, EndsWord (separator ++ k)

namespace Spells

variable {α β : Type} {mark : TokenKind} {item : List Token → β → Prop}

/-- Items that are joined by a separator are a list. -/
theorem join {separator : Text} (separates : IsSeparator separator mark) (write : α → Text) (read : α → β)
    {as : List α} (nonempty : as ≠ [])
    (each : ∀ a ∈ as, ∀ k, EndsWord k → Spells file (write a) k (item · (read a))) (ends : EndsWord k) :
    Spells file (Text.join separator (as.map write)) k (DerivesList mark item · (as.map read)) := by
  cases as with
  | nil => exact absurd rfl nonempty
  | cons a as =>
    rw [List.map_cons, List.map_cons, Text.join_cons, List.flatMap_map]
    refine items (fun x => separator ++ write x) read as (each a List.mem_cons_self) ?_ ?_ ends
    · intro x k
      rw [List.append_assoc]
      exact separates.ends _
    · intro x mem k follows
      rcases separates.split with ⟨front, b, back, rfl, blank, isMark, blank'⟩
      rw [List.append_assoc, List.cons_append]
      exact behind blank (mark_cons isMark (behind blank' (each x (List.mem_cons_of_mem a mem) k follows)))

end Spells

end ThetaSchema
