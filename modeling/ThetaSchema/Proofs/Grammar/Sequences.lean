import ThetaSchema.Proofs.Grammar.BodyCompleteness

/-!
# Readers as sequences

The readers of fields, cases, symbols, entries and bodies call themselves on what they have left.  Here they
are written as a reader of one item and what follows from the tokens behind it, so that facts about readers
in sequence apply to them.

Main results:

- `readFields_eq_andThen`, `readCases_eq_andThen`, `readSymbols_eq_andThen`, `readEntries_cons_of_ne`,
  `readBody_cons`: lists of items, item by item.
- `readPathTail_eq_nil`: where a path ends.
-/

namespace ThetaSchema

variable {rest : List Token}

/-- Where no dot follows, an identifier is a whole path. -/
theorem readPathTail_eq_nil {last : Token} (ends : startsWith .dot rest = false) :
    readPathTail last rest = .accepted [] rest := by
  cases rest with
  | nil => rfl
  | cons t others =>
    rw [startsWith_cons, decide_eq_false_iff_not] at ends
    unfold readPathTail
    rw [if_neg fun touches => ends touches.1]

/-- Fields are a field and what its separator leads to. -/
theorem readFields_eq_andThen (m : Metadata) (tokens : List Token) :
    readFields m tokens = (readField m tokens).andThen fun field left =>
      match left with
      | [] => reject .fieldEnd []
      | t :: others =>
        if t.kind = .comma then (readFields m others).map (field :: ·)
        else if t.kind = .braceClose then .accepted [field] others
        else reject .fieldEnd (t :: others) := by
  rw [readFields]
  split <;> simp [*]

/-- Cases are a case and what its separator leads to. -/
theorem readCases_eq_andThen (m : Metadata) (tokens : List Token) :
    readCases m tokens = (readCase m tokens).andThen fun case left =>
      match left with
      | [] => .accepted [case] []
      | t :: others =>
        if t.kind = .pipe then (readCases m others).map (case :: ·) else .accepted [case] (t :: others) := by
  rw [readCases]
  split <;> simp [*]

/-- Symbols are a symbol and what its separator leads to. -/
theorem readSymbols_eq_andThen (tokens : List Token) :
    readSymbols tokens = ((expect .identifier .enumSymbol tokens).map Token.text).andThen fun symbol left =>
      match left with
      | [] => .accepted [symbol] []
      | t :: others =>
        if t.kind = .pipe then (readSymbols others).map (symbol :: ·) else .accepted [symbol] (t :: others) := by
  cases tokens with
  | nil => rfl
  | cons t rest =>
    by_cases isIdentifier : t.kind = .identifier
    · rw [expect_cons isIdentifier, readSymbols.eq_def]
      exact if_pos isIdentifier
    · rw [expect, if_neg isIdentifier, readSymbols.eq_def]
      exact if_neg isIdentifier

/-- Entries are an entry and those behind it, where neither the separator nor documentation stands. -/
theorem readEntries_cons_of_ne {t : Token} (noSeparator : t.kind ≠ .separator) (noDoc : t.kind ≠ .documentation)
    (draft : HeaderDraft) (others : List Token) :
    readEntries draft (t :: others) = (readEntry draft (t :: others)).andThen readEntries := by
  rw [readEntries, if_neg noSeparator, if_neg noDoc]
  split <;> simp [*]

/-- A body that is not empty is a statement and the rest of the body. -/
theorem readBody_cons (m : Metadata) (t : Token) (others : List Token) :
    readBody m (t :: others) =
      (readStatement m (t :: others)).andThen fun s left => (readBody m left).map (s :: ·) := by
  rw [readBody]
  split <;> simp [*]

end ThetaSchema
