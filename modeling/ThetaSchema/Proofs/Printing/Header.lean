import ThetaSchema.Grammar.Header
import ThetaSchema.Proofs.Documentation.Written
import ThetaSchema.Proofs.Printing.Spells
import ThetaSchema.Proofs.Text.Versions
import ThetaSchema.Schema.Printer

/-!
# Written headers are read back

The header of a module is written on four lines: a comment, two entries and the separator.  The lines of
the tokens matter, since the separator may share its line with no other token.

Main results:

- `Scans.entry`: an entry is scanned as tokens of one line that are read as the entry.
- `SchemaModule.header_accepted`: a written header is read back, in front of a body that starts behind the
  separator's line.
-/

namespace ThetaSchema

/-! ## Entries -/

variable {file k : Text}

/-- A dash that no dash follows is a token of its own. -/
theorem Scans.minus {p : Position} (apart : k.head? ≠ some Byte.dash) :
    Scans file p [Byte.dash] k [Token.place file p .minus [Byte.dash]] := by
  apply Scans.token
  have noComment : Lexeme.opensComment (Byte.dash :: k) = false := by
    cases k <;> rfl
  have noSeparator : Lexeme.opensSeparator (Byte.dash :: k) = false := by
    cases k with
    | nil => rfl
    | cons b k =>
      rw [List.head?_cons, ne_eq, Option.some.injEq] at apart
      simp [Lexeme.opensSeparator, apart]
  rw [List.nil_append, Lexeme.read, if_neg (by decide), if_neg (by simp [noComment]),
    if_neg (by simp [noSeparator]), if_neg (by decide), if_neg (by decide)]
  rfl

/-- A written entry of a header: its key, which is two words, and its version. -/
def entryText (first second : Text) (v : Version) : Text :=
  first ++ ([Byte.dash] ++ (second ++ ([58] ++ ([Byte.space] ++ v.render))))

/-- An entry stays on its line. -/
theorem not_mem_entryText {first second : Text} (v : Version) (identifier : isIdentifier first = true)
    (identifier' : isIdentifier second = true) : Byte.newline ∉ entryText first second v := by
  have version : Byte.newline ∉ v.render := by
    rw [Version.render_eq]
    simp only [List.mem_append, List.mem_cons, not_or]
    exact ⟨(Decimal.not_mem_render _).2, by decide, (Decimal.not_mem_render _).2, by decide,
      (Decimal.not_mem_render _).2⟩
  simp only [entryText, List.mem_append, not_or]
  exact ⟨(not_mem_identifier identifier).2, by decide, (not_mem_identifier identifier').2, by decide,
    by decide, version⟩

/-- Two touching words with a dash, a colon and a version are read as an entry. -/
theorem readEntry_tokens {first dash second colon version : Token} {key : HeaderKey} {v : Version}
    (isFirst : first.kind = .identifier) (isDash : dash.kind = .minus) (isSecond : second.kind = .identifier)
    (isColon : colon.kind = .colon) (isVersion : version.kind = .version)
    (touches : first.adjacentTo dash = true) (touches' : dash.adjacentTo second = true)
    (spelling : HeaderKey.ofText? (first.text ++ Byte.dash :: second.text) = some key)
    (value : Version.parse? version.text = some v) {draft : HeaderDraft} (unset : draft.get? key = none)
    (rest : List Token) :
    readEntry draft (first :: dash :: second :: colon :: version :: rest) =
      .accepted (draft.set v key) rest := by
  have stops : readKeyTail second (colon :: version :: rest) = ([], colon :: version :: rest) := by
    rw [readKeyTail, if_neg]
    simp [isColon]
  have tail : readKeyTail first (dash :: second :: colon :: version :: rest) =
      (Byte.dash :: second.text, colon :: version :: rest) := by
    rw [readKeyTail, if_pos ⟨isDash, touches, isSecond, touches'⟩, stops, List.append_nil]
  rw [readEntry, expect_cons isFirst, Outcome.andThen_accepted]
  dsimp only
  rw [tail]
  dsimp only
  rw [spelling]
  dsimp only
  rw [unset, if_neg (by simp), readSetting, expect_cons isColon, Outcome.andThen_accepted, readVersion,
    if_pos (.inl isVersion), value]
  rfl

/-- An entry is scanned as tokens of one line that are read as the entry. -/
theorem Scans.entry {first second : Text} {key : HeaderKey} (v : Version)
    (identifier : isIdentifier first = true) (identifier' : isIdentifier second = true)
    (spelling : HeaderKey.ofText? (first ++ Byte.dash :: second) = some key) (p : Position) :
    ∃ ts, Scans file p (entryText first second v) (Byte.newline :: k) ts ∧
      (∀ t ∈ ts, t.location.line = p.line) ∧ (∃ t us, ts = t :: us ∧ t.kind = .identifier) ∧
        ∀ draft rest, draft.get? key = none →
          readEntry draft (ts ++ rest) = .accepted (draft.set v key) rest := by
  have noDash : (second ++ ([58] ++ ([Byte.space] ++ v.render)) ++ Byte.newline :: k).head? ≠ some Byte.dash := by
    cases second with
    | nil => cases identifier'
    | cons b second =>
      simp only [isIdentifier, Bool.and_eq_true] at identifier'
      simpa using (Byte.isIdentifierStart_only identifier'.1).2.2.1
  have colon : IsMark 58 .colon := by decide
  rcases colon with ⟨blank, slash, dash, start, digit, isColon⟩
  -- The tokens of the entry, each at the position behind what stands before it.
  have word : ∀ p, Scans file p first ([Byte.dash] ++ (second ++ ([58] ++ ([Byte.space] ++ v.render))) ++
      Byte.newline :: k) [Token.place file p .identifier first] :=
    fun p => Scans.identifier identifier (EndsWord.cons (by decide) _)
  have minus : ∀ p, Scans file p [Byte.dash] (second ++ ([58] ++ ([Byte.space] ++ v.render)) ++
      Byte.newline :: k) [Token.place file p .minus [Byte.dash]] := fun p => Scans.minus noDash
  have word' : ∀ p, Scans file p second ([58] ++ ([Byte.space] ++ v.render) ++ Byte.newline :: k)
      [Token.place file p .identifier second] :=
    fun p => Scans.identifier identifier' (EndsWord.cons (by decide) _)
  have mark : ∀ p, Scans file p [58] ([Byte.space] ++ v.render ++ Byte.newline :: k)
      [Token.place file p (Lexeme.punctuation 58) [58]] :=
    fun p => Scans.punctuation blank slash dash start digit
  have space : ∀ p, Scans file p [Byte.space] (v.render ++ Byte.newline :: k) [] :=
    fun p => Scans.blank (by decide)
  have version : ∀ p, Scans file p v.render (Byte.newline :: k) _ :=
    fun p => Scans.version v (EndsNumber.cons (by decide) (by decide) _)
  refine ⟨_, (word p).append ((minus _).append ((word' _).append ((mark _).append ((space _).append (version _))))), ?_,
    ⟨_, _, rfl, rfl⟩, ?_⟩
  · have word₁ := (not_mem_identifier identifier).2
    have word₂ := (not_mem_identifier identifier').2
    have mark₁ : Byte.newline ∉ [Byte.dash] := by decide
    have mark₂ : Byte.newline ∉ ([58] : Text) := by decide
    have mark₃ : Byte.newline ∉ [Byte.space] := by decide
    simp only [List.cons_append, List.nil_append, List.forall_mem_cons, Token.place,
      Position.advance_line word₁, Position.advance_line word₂, Position.advance_line mark₁,
      Position.advance_line mark₂, Position.advance_line mark₃]
    simp
  · intro draft rest unset
    exact readEntry_tokens rfl rfl rfl isColon rfl (Token.adjacentTo_place _ _ _ _ _ _)
      (Token.adjacentTo_place _ _ _ _ _ _) spelling (Version.parse?_render v) unset rest

/-! ## The other lines -/

/-- A line that starts with two slashes and no third one is no token. -/
theorem Scans.lineComment {p : Position} {t : Text} (noNewline : Byte.newline ∉ t)
    (apart : t.head? ≠ some Byte.slash) :
    Scans file p (Byte.slash :: Byte.slash :: t) (Byte.newline :: k) [] := by
  apply Scans.skip
  have comment : Lexeme.opensComment (Byte.slash :: (Byte.slash :: t ++ Byte.newline :: k)) = true := rfl
  have noDoc : Lexeme.opensDocLine (Byte.slash :: (Byte.slash :: t ++ Byte.newline :: k)) = false := by
    cases t with
    | nil => rfl
    | cons b t =>
      rw [List.head?_cons, ne_eq, Option.some.injEq] at apart
      simp [Lexeme.opensDocLine, apart]
  have slashes : ((Byte.slash :: (Byte.slash :: t ++ Byte.newline :: k)).take 2 ==
      [Byte.slash, Byte.slash]) = true := rfl
  have all : Byte.newline ∉ Byte.slash :: Byte.slash :: t := by
    rw [List.mem_cons, List.mem_cons, not_or, not_or]
    exact ⟨by decide, by decide, noNewline⟩
  rcases Lexeme.firstLine_append_newline all k with ⟨line, rest⟩
  rw [List.cons_append, List.cons_append] at line rest
  rw [Lexeme.read, if_neg (by decide), if_pos comment, Lexeme.ofComment,
    if_neg (Bool.eq_false_iff.mp noDoc), if_pos slashes, List.cons_append, line, rest]

/-- Three dashes at the end of a line are a separator. -/
theorem Scans.separator {p : Position} :
    Scans file p "---" (Byte.newline :: k) [Token.place file p .separator "---"] := by
  refine Scans.token (b := Byte.dash) (t := "--") ?_
  have noComment : Lexeme.opensComment (Byte.dash :: ("--" ++ Byte.newline :: k)) = false := rfl
  have separator : Lexeme.opensSeparator (Byte.dash :: ("--" ++ Byte.newline :: k)) = true := rfl
  rw [Lexeme.read, if_neg (by decide), if_neg (Bool.eq_false_iff.mp noComment), if_pos separator]
  rfl

/-! ## Headers -/

/-- Entries that are read one after the other, up to the separator. -/
theorem readEntries_cons {draft : HeaderDraft} {d : HeaderDraft} {t : Token} {us rest : List Token}
    (identifier : t.kind = .identifier) (accepted : readEntry draft (t :: us ++ rest) = .accepted d rest) :
    readEntries draft (t :: us ++ rest) = readEntries d rest := by
  rw [List.cons_append] at accepted ⊢
  rw [readEntries, if_neg (by simp [identifier]), if_neg (by simp [identifier])]
  split
  · next rejected =>
    rw [accepted] at rejected
    cases rejected
  · next accepted' =>
    rw [accepted] at accepted'
    cases accepted'
    rfl

theorem lastConsumed?_append (tokens rest : List Token) :
    lastConsumed? (tokens ++ rest) rest = tokens.getLast? := by
  simp [lastConsumed?]

/-- Two entries and a separator on three lines are read as a header. -/
theorem readHeader_lines {moduleName : Text} {m : Metadata} (named : m.moduleName = moduleName)
    {ts us rest : List Token} {separator : Token} (isSeparator : separator.kind = .separator)
    (first : ∃ t vs, ts = t :: vs ∧ t.kind = .identifier)
    (second : ∃ t vs, us = t :: vs ∧ t.kind = .identifier)
    (language : ∀ draft rest, draft.get? .language = none →
      readEntry draft (ts ++ rest) = .accepted (draft.set m.language .language) rest)
    (encoding : ∀ draft rest, draft.get? .encoding = none →
      readEntry draft (us ++ rest) = .accepted (draft.set m.encoding .encoding) rest)
    (before : ∀ t ∈ us, t.location.line ≠ separator.location.line)
    (behind : ∀ t ∈ rest.head?, t.location.line ≠ separator.location.line) :
    readHeader none moduleName (ts ++ (us ++ separator :: rest)) = .accepted m rest := by
  rcases first with ⟨t, vs, rfl, identifier⟩
  rcases second with ⟨u, ws, rfl, identifier'⟩
  have entries : readEntries {} (t :: vs ++ (u :: ws ++ separator :: rest)) =
      .accepted ⟨some m.language, some m.encoding⟩ (separator :: rest) := by
    rw [readEntries_cons identifier (language {} _ rfl), readEntries_cons identifier' (encoding _ _ rfl),
      readEntries, if_pos isSeparator]
    rfl
  have noneBefore : ((lastConsumed? (t :: vs ++ (u :: ws ++ separator :: rest)) (separator :: rest)).or
      none).any separator.sharesLine = false := by
    rw [← List.append_assoc, lastConsumed?_append, Option.or_none]
    have part : (t :: vs ++ u :: ws).getLast? = (u :: ws).getLast? := by
      rw [List.getLast?_append, List.getLast?_cons, Option.some_or]
    rw [part]
    cases last : (u :: ws).getLast? with
    | none => rfl
    | some v => simpa [Token.sharesLine] using (before v (List.mem_of_getLast? last)).symm
  have noneBehind : rest.head?.any separator.sharesLine = false := by
    cases rest with
    | nil => rfl
    | cons v rest => simpa [Token.sharesLine] using (behind v rfl).symm
  rw [readHeader, entries, Outcome.andThen_accepted, closeHeader, noneBefore, noneBehind,
    if_neg (by decide), ← named]

/-- The comment line of a written module. -/
def headerComment (x : SchemaModule) : Text :=
  "// module " ++ x.name ++ Text.onlyIf (!x.file.isEmpty) (" (" ++ x.file ++ ")")

theorem SchemaModule.header_eq (x : SchemaModule) : x.header = headerComment x ++ ("\n" ++
    (entryText "language" "version" x.metadata.language ++ ("\n" ++
      (entryText "encoding" "version" x.metadata.encoding ++ ("\n" ++ ("---" ++ "\n")))))) := by
  simp only [SchemaModule.header, headerComment, entryText, List.append_assoc]
  rfl

/-- The comment line stays on its line if the name of the module and the name of the file do. -/
theorem not_mem_headerComment {x : SchemaModule} (named : Byte.newline ∉ x.name)
    (filed : Byte.newline ∉ x.file) : Byte.newline ∉ headerComment x := by
  have parenthesized : Byte.newline ∉ Text.onlyIf (!x.file.isEmpty) (" (" ++ x.file ++ ")") := by
    cases x.file.isEmpty
    · simp only [Bool.not_false, Text.onlyIf, if_true, List.mem_append, not_or]
      exact ⟨⟨by decide, filed⟩, by decide⟩
    · simp [Text.onlyIf]
  simp only [headerComment, List.mem_append, not_or]
  exact ⟨⟨by decide, named⟩, parenthesized⟩

/-- The comment line is no token. -/
theorem Scans.headerComment {x : SchemaModule} {p : Position}
    (oneLine : Byte.newline ∉ ThetaSchema.headerComment x) :
    Scans file p (ThetaSchema.headerComment x) (Byte.newline :: k) [] := by
  have written : ∃ t, ThetaSchema.headerComment x = Byte.slash :: Byte.slash :: t ∧
      t.head? ≠ some Byte.slash := ⟨_, rfl, show some Byte.space ≠ some Byte.slash by decide⟩
  rcases written with ⟨t, same, apart⟩
  rw [same, List.mem_cons, List.mem_cons, not_or, not_or] at oneLine
  rw [same]
  exact Scans.lineComment oneLine.2.2 apart

/-- A line and the newline behind it lead to the next line. -/
theorem Position.line_behind {t : Text} (h : Byte.newline ∉ t) (p : Position) :
    ((p.advance t).advance "\n").line = p.line + 1 := by
  rw [Position.advance_newline_line, Position.advance_line h]

/-- A written header is read back, in front of a body that starts on the next line or the one after. -/
theorem SchemaModule.header_accepted (file : Text) {x : SchemaModule} (named : Byte.newline ∉ x.name)
    (filed : Byte.newline ∉ x.file) (body : Text)
    (behind : ∀ t ∈ (Token.scan file (({} : Position).advance x.header) body).head?,
      t.location.line = (({} : Position).advance x.header).line ∨
        t.location.line = (({} : Position).advance x.header).line + 1) :
    readHeader none x.name (Token.scan file {} (x.header ++ body)) =
      .accepted x.metadata (Token.scan file (({} : Position).advance x.header) body) := by
  rw [SchemaModule.header_eq] at behind ⊢
  have spelling : HeaderKey.ofText? ("language" ++ Byte.dash :: "version") = some .language := by decide
  have spelling' : HeaderKey.ofText? ("encoding" ++ Byte.dash :: "version") = some .encoding := by decide
  have line₀ := not_mem_headerComment named filed
  have line₁ : Byte.newline ∉ entryText "language" "version" x.metadata.language :=
    not_mem_entryText _ (by decide) (by decide)
  have line₂ : Byte.newline ∉ entryText "encoding" "version" x.metadata.encoding :=
    not_mem_entryText _ (by decide) (by decide)
  have scan₀ : ∀ k, Scans file {} (headerComment x) (Byte.newline :: k) [] :=
    fun k => Scans.headerComment line₀
  generalize headerComment x = comment at *
  -- The positions at the starts of the other lines.
  generalize start₁ : (({} : Position).advance comment).advance "\n" = p₁
  generalize start₂ : (p₁.advance (entryText "language" "version" x.metadata.language)).advance "\n" = p₂
  generalize start₃ : (p₂.advance (entryText "encoding" "version" x.metadata.encoding)).advance "\n" = p₃
  have number₁ : p₁.line = 2 := by
    rw [← start₁, Position.line_behind line₀]
    rfl
  have number₂ : p₂.line = 3 := by
    rw [← start₂, Position.line_behind line₁, number₁]
    rfl
  have number₃ : p₃.line = 4 := by
    rw [← start₃, Position.line_behind line₂, number₂]
    rfl
  have newline : ∀ (p : Position) (k : Text), Scans file p "\n" k [] := fun p k => Scans.blank (by decide)
  rcases @Scans.entry file (entryText "encoding" "version" x.metadata.encoding ++
    ("\n" ++ ("---" ++ "\n")) ++ body) _ _ _ x.metadata.language (by decide) (by decide) spelling p₁ with
    ⟨ts, scan₁, lines₁, first₁, read₁⟩
  rcases @Scans.entry file ("---" ++ "\n" ++ body) _ _ _ x.metadata.encoding (by decide) (by decide)
    spelling' p₂ with ⟨us, scan₂, lines₂, first₂, read₂⟩
  have scan₃ : Scans file p₃ "---" ("\n" ++ body) [Token.place file p₃ .separator "---"] := Scans.separator
  subst start₁ start₂ start₃
  have whole := (scan₀ _).append ((newline _ _).append (scan₁.append ((newline _ _).append (scan₂.append
    ((newline _ _).append (scan₃.append (newline _ _)))))))
  have number₄ : (({} : Position).advance (comment ++ ("\n" ++ (entryText "language" "version"
      x.metadata.language ++ ("\n" ++ (entryText "encoding" "version" x.metadata.encoding ++
        ("\n" ++ ("---" ++ "\n")))))))).line = 5 := by
    simp only [Position.advance_append, Position.advance_newline_line]
    rw [Position.advance_line (t := "---") (by decide), number₃]
    rfl
  rw [number₄] at behind
  rw [whole]
  simp only [List.nil_append, List.append_assoc, List.append_nil, List.singleton_append]
  refine readHeader_lines rfl rfl first₁ first₂ read₁ read₂ ?_ ?_
  · intro t mem
    rw [lines₂ t mem, number₂, Token.place, number₃]
    exact show (3 : UInt32) ≠ 4 by decide
  · intro t mem
    rw [Token.place, number₃]
    rcases behind t mem with here | next
    · rw [here]
      exact show (5 : UInt32) ≠ 4 by decide
    · rw [next]
      exact show (5 + 1 : UInt32) ≠ 4 by decide

end ThetaSchema
