import ThetaSchema.Proofs.Grammar.Sequences

/-!
# Readings that persist

What is accepted is accepted again, with the same value and the same locations, when statements are put
behind the tokens and when the language version changes to one at which their words mean the same.  No
reader looks over the seam: a statement starts with an identifier or with documentation, and neither
continues anything that may stand at the end of another statement.

Main definitions:

- `SameWord`: a word that means the same at two language versions.
- `Metadata.ReadsAlike`: metadata under which the words of tokens mean the same.
- `Outcome.Persists`: an acceptance that is repeated with more tokens behind.

Main results:

- `Outcome.Persists.andThen`: readers that follow one another persist if each of them does.
- `readStatement_persists`: statements persist in front of other ones.
- `readBody_append`: a body in front of more tokens is read up to them.
-/

namespace ThetaSchema

/-! ## Words at two versions -/

/-- A word is the keyword of the same primitive type, or of none, at both versions, and starts a fixed type
at both or at neither. -/
structure SameWord (language language' : Version) (word : Text) : Prop where
  primitive : Primitive.ofKeyword? language' word = Primitive.ofKeyword? language word
  fixed : word = Feature.fixed.keyword →
    Feature.fixed.enabledAt language' = Feature.fixed.enabledAt language

namespace SameWord

variable {language language' : Version} {word : Text}

theorem refl (language : Version) (word : Text) : SameWord language language word := ⟨rfl, fun _ => rfl⟩

/-- A word that means the same at two versions is reserved at both or at neither. -/
theorem isReservedWord_eq (h : SameWord language language' word) :
    isReservedWord language' word = isReservedWord language word := by
  rw [isReservedWord, isReservedWord, h.primitive]
  by_cases keyword : word = Feature.fixed.keyword
  · rw [h.fixed keyword]
  · rw [beq_false_of_ne keyword, Bool.and_false, Bool.and_false]

end SameWord

/-- Under the metadata `m'` the tokens are read as they are under `m`: the module has the same name, no
kind of definition is lost, and the words mean the same. -/
structure Metadata.ReadsAlike (m m' : Metadata) (tokens : List Token) : Prop where
  sameName : m'.moduleName = m.moduleName
  enumeration : Feature.enumeration.enabledAt m.language = true →
    Feature.enumeration.enabledAt m'.language = true
  words : ∀ t ∈ tokens, t.kind = .identifier → SameWord m.language m'.language t.text

namespace Metadata.ReadsAlike

variable {m m' : Metadata} {tokens rest : List Token}

theorem refl (m : Metadata) (tokens : List Token) : m.ReadsAlike m tokens :=
  ⟨rfl, id, fun t _ _ => .refl m.language t.text⟩

theorem mono (h : m.ReadsAlike m' tokens) (part : rest <:+ tokens) : m.ReadsAlike m' rest :=
  ⟨h.sameName, h.enumeration, fun t mem => h.words t (part.subset mem)⟩

theorem tail {t : Token} (h : m.ReadsAlike m' (t :: rest)) : m.ReadsAlike m' rest :=
  h.mono (List.suffix_cons t rest)

end Metadata.ReadsAlike

/-! ## Acceptances that are repeated -/

variable {α β : Type} {more : List Token}

/-- The second outcome accepts what the first one accepts, and leaves more tokens.  A rejection says
nothing about the second outcome. -/
inductive Outcome.Persists (more : List Token) : Outcome α → Outcome α → Prop
  | accepted (a : α) (rest : List Token) : Persists more (.accepted a rest) (.accepted a (rest ++ more))
  | rejected (f : Failure) (rest : List Token) (o : Outcome α) : Persists more (.rejected f rest) o

namespace Outcome.Persists

variable {o o' : Outcome α}

theorem eq_accepted (h : Persists more o o') {a : α} {rest : List Token} (accepted : o = .accepted a rest) :
    o' = .accepted a (rest ++ more) := by
  subst accepted
  cases h
  rfl

/-- Readers that follow one another persist if each of them does. -/
theorem andThen {next next' : α → List Token → Outcome β} (first : Persists more o o')
    (second : ∀ a rest, o = .accepted a rest → Persists more (next a rest) (next' a (rest ++ more))) :
    Persists more (o.andThen next) (o'.andThen next') := by
  cases first with
  | accepted a rest => exact second a rest rfl
  | rejected f rest => exact .rejected f rest _

theorem map (h : Persists more o o') (g : α → β) : Persists more (o.map g) (o'.map g) := by
  cases h with
  | accepted a rest => exact .accepted (g a) rest
  | rejected f rest => exact .rejected f rest _

end Outcome.Persists

/-! ## Single tokens -/

/-- An expected token is found again, whatever stands behind the tokens. -/
theorem expect_persists (kind : TokenKind) (expected : Expectation) (tokens : List Token) :
    (expect kind expected tokens).Persists more (expect kind expected (tokens ++ more)) := by
  cases tokens with
  | nil => exact .rejected _ _ _
  | cons t rest =>
    rw [List.cons_append]
    unfold expect
    dsimp only
    split
    · exact .accepted t rest
    · exact .rejected _ _ _

/-- Statements behind the tokens do not change what they start with, unless they start like a statement. -/
theorem startsWith_append (follows : StartsStatement more) {kind : TokenKind}
    (identifier : kind ≠ .identifier) (documentation : kind ≠ .documentation) (tokens : List Token) :
    startsWith kind (tokens ++ more) = startsWith kind tokens := by
  cases tokens with
  | nil => exact follows.startsWith identifier documentation
  | cons t rest => rfl

/-- The first token of a list that is not empty stays the first one. -/
theorem startsWith_cons_append (kind : TokenKind) (t : Token) (rest more : List Token) :
    startsWith kind (t :: (rest ++ more)) = startsWith kind (t :: rest) := rfl

/-- Documentation in front is skipped again, as long as there is a token at all. -/
theorem afterDoc_append {tokens : List Token} (nonempty : tokens ≠ []) (more : List Token) :
    afterDoc (tokens ++ more) = afterDoc tokens ++ more := by
  cases tokens with
  | nil => exact absurd rfl nonempty
  | cons t rest =>
    unfold afterDoc
    rw [List.cons_append, startsWith_cons_append]
    split <;> rfl

/-! ## Type expressions -/

/-- A path does not go on with a statement: no dot starts one. -/
theorem readPathTail_persists (follows : StartsStatement more) (last : Token) (tokens : List Token) :
    (readPathTail last tokens).Persists more (readPathTail last (tokens ++ more)) := by
  have noDot : startsWith .dot more = false := follows.startsWith (by decide) (by decide)
  fun_induction readPathTail last tokens with
  | case1 last =>
    rw [List.nil_append, readPathTail_eq_nil noDot]
    exact .accepted [] []
  | case2 => exact .rejected _ _ _
  | case3 last dot isDot next others touches ih =>
    have read : readPathTail last (dot :: next :: (others ++ more)) =
        (readPathTail next (others ++ more)).map (next.text :: ·) := by
      rw [readPathTail, if_pos isDot, if_pos touches]
    rw [List.cons_append, List.cons_append, read]
    exact ih.map _
  | case4 => exact .rejected _ _ _
  | case5 last t rest untouched =>
    rw [List.cons_append]
    unfold readPathTail
    rw [if_neg untouched]
    exact .accepted [] (t :: rest)

/-- A path is accepted again. -/
theorem readPath_persists (follows : StartsStatement more) (tokens : List Token) :
    (readPath tokens).Persists more (readPath (tokens ++ more)) :=
  (expect_persists _ _ tokens).andThen fun first rest _ => (readPathTail_persists follows first rest).map _

/-- No size follows a keyword across the seam, since no parenthesis starts a statement. -/
theorem sizeFollows_append (follows : StartsStatement more) (t : Token) (rest : List Token) :
    sizeFollows t (rest ++ more) = sizeFollows t rest := by
  cases rest with
  | nil =>
    cases more with
    | nil => rfl
    | cons next others =>
      have noParen : startsWith .parenOpen (next :: others) = false :=
        follows.startsWith (by decide) (by decide)
      rw [startsWith_cons, decide_eq_false_iff_not] at noParen
      simp [sizeFollows, noParen]
  | cons next others => rfl

/-- A size ends with a parenthesis of its own. -/
theorem readSize_persists (location : Location) (tokens : List Token) :
    (readSize location tokens).Persists more (readSize location (tokens ++ more)) := by
  refine (expect_persists _ _ tokens).andThen fun size rest _ => ?_
  split
  · exact .rejected _ _ _
  · exact (expect_persists _ _ rest).map _

variable {m m' : Metadata}

/-- A reference is accepted again, in the same module. -/
theorem readReference_persists (follows : StartsStatement more) (sameName : m'.moduleName = m.moduleName)
    (t : Token) (rest : List Token) :
    (readReference m t rest).Persists more (readReference m' t (rest ++ more)) := by
  unfold readReference
  rw [sameName]
  exact (readPathTail_persists follows t rest).map _

/-- An identifier is the same keyword again, or the same reference. -/
theorem readNamed_persists (follows : StartsStatement more) {t : Token} {rest : List Token}
    (alike : m.ReadsAlike m' (t :: rest)) (identifier : t.kind = .identifier) :
    (readNamed m t rest).Persists more (readNamed m' t (rest ++ more)) := by
  have word := alike.words t List.mem_cons_self identifier
  have reference := readReference_persists follows alike.sameName t rest
  unfold readNamed
  rw [sizeFollows_append follows, word.primitive]
  split
  · next keyword =>
    rw [word.fixed keyword]
    split
    · split
      · next sized =>
        obtain ⟨opening, others, rfl⟩ : ∃ opening others, rest = opening :: others := by
          cases rest with
          | nil => cases sized
          | cons opening others => exact ⟨opening, others, rfl⟩
        exact readSize_persists t.location others
      · exact .rejected _ _ _
    · split
      · exact .rejected _ _ _
      · exact reference
  · split
    · exact .accepted _ rest
    · exact reference

/-- No question mark starts a statement, so the type has none again. -/
theorem readOptionalMark_persists (follows : StartsStatement more) (e : TypeExpr) (tokens : List Token) :
    (readOptionalMark e tokens).Persists more (readOptionalMark e (tokens ++ more)) := by
  cases tokens with
  | nil =>
    cases more with
    | nil => exact .accepted e []
    | cons t others =>
      have noMark : startsWith .question (t :: others) = false := follows.startsWith (by decide) (by decide)
      rw [startsWith_cons, decide_eq_false_iff_not] at noMark
      rw [List.nil_append, readOptionalMark, readOptionalMark, if_neg noMark]
      exact .accepted e []
  | cons t rest =>
    rw [List.cons_append]
    unfold readOptionalMark
    dsimp only
    split
    · exact .accepted _ rest
    · exact .accepted e (t :: rest)

/-- An atom is accepted again, to any depth. -/
theorem readAtom_persists (follows : StartsStatement more) {tokens : List Token}
    (alike : m.ReadsAlike m' tokens) : (readAtom m tokens).Persists more (readAtom m' (tokens ++ more)) := by
  induction tokens with
  | nil => exact .rejected _ _ _
  | cons t rest ih =>
    have inner := (ih alike.tail).andThen fun e left _ => readOptionalMark_persists follows e left
    rw [List.cons_append]
    unfold readAtom
    split
    · exact inner.andThen fun e left _ => (expect_persists _ _ left).map _
    · exact inner.andThen fun e left _ => (expect_persists _ _ left).map _
    · next identifier => exact readNamed_persists follows alike identifier
    · exact .rejected _ _ _

theorem readType_persists (follows : StartsStatement more) {tokens : List Token}
    (alike : m.ReadsAlike m' tokens) : (readType m tokens).Persists more (readType m' (tokens ++ more)) :=
  (readAtom_persists follows alike).andThen fun e left _ => readOptionalMark_persists follows e left

/-! ## Fields and cases -/

/-- A declared name is accepted again, since it is reserved at both versions or at neither. -/
theorem readDeclaredName_persists {what : Declared} {tokens : List Token}
    (alike : m.ReadsAlike m' tokens) :
    (readDeclaredName m what tokens).Persists more (readDeclaredName m' what (tokens ++ more)) := by
  refine (expect_persists _ _ tokens).andThen fun t rest isIdentifier => ?_
  rcases expect_accepted isIdentifier with ⟨rfl, identifier⟩
  rw [(alike.words t List.mem_cons_self identifier).isReservedWord_eq, alike.sameName]
  split
  · exact .rejected _ _ _
  · exact .accepted _ rest

/-- Documentation that belongs to a name belongs to it in front of more tokens too. -/
theorem attached_append {t : Token} {rest : List Token}
    (h : ¬ (startsWith .documentation (t :: rest) && !startsWith .identifier (afterDoc (t :: rest))) = true) :
    ¬ (startsWith .documentation (t :: rest ++ more) &&
      !startsWith .identifier (afterDoc (t :: rest) ++ more)) = true := by
  by_cases documented : t.kind = .documentation
  · have behind : afterDoc (t :: rest) = rest := by simp [afterDoc, documented]
    rw [behind] at h ⊢
    cases rest with
    | nil => simp [documented] at h
    | cons name others => simpa [documented] using h
  · simp [documented]

/-- A field is accepted again. -/
theorem readField_persists (follows : StartsStatement more) {tokens : List Token}
    (alike : m.ReadsAlike m' tokens) : (readField m tokens).Persists more (readField m' (tokens ++ more)) := by
  cases tokens with
  | nil => exact .rejected _ _ _
  | cons t rest =>
    have alikeBehind := alike.mono (afterDoc_suffix (t :: rest))
    unfold readField
    rw [afterDoc_append (List.cons_ne_nil t rest) more]
    split
    · exact .rejected _ _ _
    · next attached =>
      rw [if_neg (attached_append attached)]
      refine (expect_persists _ _ _).andThen fun name afterName isName => ?_
      refine (expect_persists _ _ afterName).andThen fun colon afterColon isColon => ?_
      rcases expect_accepted isColon with ⟨rfl, -⟩
      have alikeType := (alikeBehind.mono ((expect_accepted isName).1 ▸ List.suffix_cons _ _)).tail
      exact (readType_persists follows alikeType).map _

/-- The fields of a block are accepted again, all of them. -/
theorem readFields_persists (follows : StartsStatement more) {tokens : List Token}
    (alike : m.ReadsAlike m' tokens) :
    (readFields m tokens).Persists more (readFields m' (tokens ++ more)) := by
  fun_induction readFields m tokens with
  | case1 => exact .rejected _ _ _
  | case2 => exact .rejected _ _ _
  | case3 tokens f t others one isComma ih =>
    have left := readField_suffix m tokens
    rw [one] at left
    rw [readFields_eq_andThen m', (readField_persists follows alike).eq_accepted one]
    rw [Outcome.andThen_accepted, List.cons_append]
    dsimp only
    rw [if_pos isComma]
    exact (ih (alike.mono ((List.suffix_cons t others).trans left))).map _
  | case4 tokens f t others one notComma isClosing =>
    rw [readFields_eq_andThen m', (readField_persists follows alike).eq_accepted one]
    rw [Outcome.andThen_accepted, List.cons_append]
    dsimp only
    rw [if_neg notComma, if_pos isClosing]
    exact .accepted [f] others
  | case5 => exact .rejected _ _ _

/-- A block of fields ends with a brace of its own. -/
theorem readFieldBlock_persists (follows : StartsStatement more) {tokens : List Token}
    (alike : m.ReadsAlike m' tokens) :
    (readFieldBlock m tokens).Persists more (readFieldBlock m' (tokens ++ more)) := by
  unfold readFieldBlock
  rw [startsWith_append follows (by decide) (by decide)]
  split
  · next closes =>
    cases tokens with
    | nil => cases closes
    | cons closing rest => exact .accepted [] rest
  · exact readFields_persists follows alike

/-- A case is accepted again, and a statement behind it opens no block for it. -/
theorem readCase_persists (follows : StartsStatement more) {tokens : List Token}
    (alike : m.ReadsAlike m' tokens) : (readCase m tokens).Persists more (readCase m' (tokens ++ more)) := by
  cases tokens with
  | nil => exact .rejected _ _ _
  | cons t rest =>
    have alikeBehind := alike.mono (afterDoc_suffix (t :: rest))
    unfold readCase
    rw [afterDoc_append (List.cons_ne_nil t rest) more]
    split
    · exact .rejected _ _ _
    · next attached =>
      rw [if_neg (attached_append attached)]
      refine (readDeclaredName_persists alikeBehind).andThen fun name afterName declared => ?_
      rcases readDeclaredName_sound declared with ⟨t', behind, -, -⟩
      rw [behind] at alikeBehind
      rw [startsWith_append follows (by decide) (by decide), behind]
      split
      · next opens =>
        cases afterName with
        | nil => cases opens
        | cons opening inside => exact (readFieldBlock_persists follows alikeBehind.tail.tail).map _
      · exact .accepted _ afterName

/-- Cases are accepted again, and no bar starts a statement that could go on with them. -/
theorem readCases_persists (follows : StartsStatement more) {tokens : List Token}
    (alike : m.ReadsAlike m' tokens) :
    (readCases m tokens).Persists more (readCases m' (tokens ++ more)) := by
  have noBar : startsWith .pipe more = false := follows.startsWith (by decide) (by decide)
  fun_induction readCases m tokens with
  | case1 => exact .rejected _ _ _
  | case2 tokens c one =>
    rw [readCases_eq_andThen m', (readCase_persists follows alike).eq_accepted one]
    rw [Outcome.andThen_accepted, List.nil_append]
    cases more with
    | nil => exact .accepted [c] []
    | cons t others =>
      rw [startsWith_cons, decide_eq_false_iff_not] at noBar
      dsimp only
      rw [if_neg noBar]
      exact .accepted [c] []
  | case3 tokens c t others one isBar ih =>
    have left := readCase_suffix m tokens
    rw [one] at left
    rw [readCases_eq_andThen m', (readCase_persists follows alike).eq_accepted one]
    rw [Outcome.andThen_accepted, List.cons_append]
    dsimp only
    rw [if_pos isBar]
    exact (ih (alike.mono ((List.suffix_cons t others).trans left))).map _
  | case4 tokens c t others one noBar =>
    rw [readCases_eq_andThen m', (readCase_persists follows alike).eq_accepted one]
    rw [Outcome.andThen_accepted, List.cons_append]
    dsimp only
    rw [if_neg noBar]
    exact .accepted [c] (t :: others)

/-- Symbols are accepted again, and no bar starts a statement that could go on with them. -/
theorem readSymbols_persists (follows : StartsStatement more) (tokens : List Token) :
    (readSymbols tokens).Persists more (readSymbols (tokens ++ more)) := by
  fun_induction readSymbols tokens with
  | case1 => exact .rejected _ _ _
  | case2 t identifier =>
    have noBar : startsWith .pipe more = false := follows.startsWith (by decide) (by decide)
    rw [List.singleton_append]
    unfold readSymbols
    rw [if_pos identifier]
    cases more with
    | nil => exact .accepted [t.text] []
    | cons bar others =>
      rw [startsWith_cons, decide_eq_false_iff_not] at noBar
      dsimp only
      rw [if_neg noBar]
      exact .accepted [t.text] []
  | case3 t identifier bar others isBar ih =>
    have read : readSymbols (t :: bar :: (others ++ more)) =
        (readSymbols (others ++ more)).map (t.text :: ·) := by
      rw [readSymbols, if_pos identifier, if_pos isBar]
    rw [List.cons_append, List.cons_append, read]
    exact ih.map _
  | case4 t identifier bar others noBar =>
    have read : readSymbols (t :: bar :: (others ++ more)) =
        .accepted [t.text] (bar :: (others ++ more)) := by
      rw [readSymbols, if_pos identifier, if_neg noBar]
    rw [List.cons_append, List.cons_append, read]
    exact .accepted [t.text] (bar :: others)
  | case5 => exact .rejected _ _ _

/-! ## Definitions -/

/-- What starts like a record does so in front of more tokens too. -/
theorem opensRecord_append {tokens : List Token} (h : opensRecord tokens = true) (more : List Token) :
    opensRecord (tokens ++ more) = true := by
  match tokens with
  | [] => cases h
  | [opening] => simp [opensRecord] at h
  | [opening, t] =>
    -- The second token decides, since no colon follows it.
    have decided : opening.kind = .braceOpen ∧ (t.kind = .braceClose ∨ t.kind = .documentation) := by
      simpa [opensRecord] using h
    simp [opensRecord, decided]
  | opening :: t :: u :: others => exact h

/-- Tokens start like a variant whatever statement follows them. -/
theorem opensVariant_append (follows : StartsStatement more) {tokens : List Token} (nonempty : tokens ≠ []) :
    opensVariant (tokens ++ more) = opensVariant tokens := by
  have noBlock : startsWith .braceOpen more = false := follows.startsWith (by decide) (by decide)
  have noBar : startsWith .pipe more = false := follows.startsWith (by decide) (by decide)
  match tokens with
  | [] => exact absurd rfl nonempty
  | [t] => simp [opensVariant, noBlock, noBar]
  | t :: u :: others => rfl

/-- A variant opens with a token at least. -/
theorem opensVariant_ne_nil {tokens : List Token} (h : opensVariant tokens = true) : tokens ≠ [] := by
  rintro rfl
  cases h

/-- Nothing starts both like a variant and like a record. -/
theorem opensRecord_of_opensVariant {tokens : List Token} (h : opensVariant tokens = true) :
    opensRecord tokens = false := by
  cases tokens with
  | nil => rfl
  | cons t rest =>
    have notOpening : t.kind ≠ .braceOpen := by
      intro opening
      simp [opensVariant, opening] at h
    simp [opensRecord, notOpening]

/-- The form of the body of a type is chosen as before, and the body accepted again. -/
theorem readTypeBody_persists (follows : StartsStatement more) (name : QualifiedName) {tokens : List Token}
    (alike : m.ReadsAlike m' tokens) :
    (readTypeBody m name tokens).Persists more (readTypeBody m' name (tokens ++ more)) := by
  unfold readTypeBody
  split
  · next opens =>
    rw [if_pos (opensRecord_append opens more)]
    cases tokens with
    | nil => cases opens
    | cons opening inside => exact (readFieldBlock_persists follows alike.tail).map _
  · split
    · next opens =>
      have opensBehind := (opensVariant_append follows (opensVariant_ne_nil opens)).trans opens
      rw [if_neg (by simp [opensRecord_of_opensVariant opensBehind]), if_pos opensBehind]
      cases tokens with
      | nil => cases opens
      | cons t others => exact (readCases_persists follows alike).map _
    · next noVariant =>
      have persists := readType_persists follows alike
      cases read : readType m tokens with
      | rejected f rest => exact .rejected _ _ _
      | accepted e rest =>
        rw [read] at persists
        rcases readType_sound read with ⟨signature, rfl, derived⟩
        have nonempty : signature ++ rest ≠ [] := by
          rcases derived.front with ⟨t, inside, rfl, -⟩
          exact List.cons_ne_nil _ _
        have noRecord := opensRecord_of_type derived (rest ++ more)
        rw [← List.append_assoc] at noRecord
        rw [noRecord, opensVariant_append follows nonempty, if_neg Bool.false_ne_true, if_neg noVariant]
        exact persists.map _

/-- The body of an enumeration is accepted again. -/
theorem readEnumBody_persists (follows : StartsStatement more) (name : QualifiedName) (tokens : List Token) :
    (readEnumBody name tokens).Persists more (readEnumBody name (tokens ++ more)) := by
  cases tokens with
  | nil => exact .rejected _ _ _
  | cons t rest => exact (readSymbols_persists follows (t :: rest)).map _

/-- A declaration persists if its body does. -/
theorem readDeclaration_persists {what : Declared}
    {body body' : QualifiedName → List Token → Outcome TypeExpr} {tokens : List Token}
    (alike : m.ReadsAlike m' tokens)
    (inner : ∀ name left, left <:+ tokens → (body name left).Persists more (body' name (left ++ more))) :
    (readDeclaration m what body tokens).Persists more (readDeclaration m' what body' (tokens ++ more)) := by
  refine (readDeclaredName_persists alike).andThen fun name afterName declared => ?_
  refine (expect_persists _ _ afterName).andThen fun equal afterEqual isEqual => ?_
  rcases readDeclaredName_sound declared with ⟨t, rfl, -, -⟩
  rcases expect_accepted isEqual with ⟨rfl, -⟩
  exact (inner name afterEqual ((List.suffix_cons _ _).trans (List.suffix_cons _ _))).map _

/-- A keyword starts the same kind of definition again. -/
theorem readKeyword_persists (follows : StartsStatement more) {t : Token} {rest : List Token}
    (alike : m.ReadsAlike m' rest) :
    (readKeyword m t rest).Persists more (readKeyword m' t (rest ++ more)) := by
  unfold readKeyword
  split
  · exact readDeclaration_persists alike fun name left part =>
      readTypeBody_persists follows name (alike.mono part)
  · split
    · exact readDeclaration_persists alike fun name left part => readType_persists follows (alike.mono part)
    · split
      · next enabled =>
        rw [if_pos (alike.enumeration enabled)]
        split
        · exact readDeclaration_persists alike fun name left part => readEnumBody_persists follows name left
        · exact .rejected _ _ _
      · split <;> exact .rejected _ _ _

/-- A definition is accepted again. -/
theorem readDefinition_persists (follows : StartsStatement more) (doc : Option Text) {tokens : List Token}
    (alike : m.ReadsAlike m' tokens) :
    (readDefinition m doc tokens).Persists more (readDefinition m' doc (tokens ++ more)) := by
  cases tokens with
  | nil => exact .rejected _ _ _
  | cons t rest =>
    rw [List.cons_append]
    unfold readDefinition
    dsimp only
    split
    · exact (readKeyword_persists follows alike.tail).map _
    · exact .rejected _ _ _

/-! ## Statements -/

/-- The first word of the tokens stays the first word, as long as there is a token at all. -/
theorem startsWithWord_append (word : Text) {tokens : List Token} (nonempty : tokens ≠ []) (more : List Token) :
    startsWithWord word (tokens ++ more) = startsWithWord word tokens := by
  cases tokens with
  | nil => exact absurd rfl nonempty
  | cons t rest => rfl

/-- An import is accepted again. -/
theorem readImport_persists (follows : StartsStatement more) {tokens : List Token} (nonempty : tokens ≠ []) :
    (readImport tokens).Persists more (readImport (tokens ++ more)) := by
  cases tokens with
  | nil => exact absurd rfl nonempty
  | cons keyword rest => exact (readPath_persists follows rest).map _

/-- Where documentation belongs to a statement, the statement is not empty. -/
theorem afterDoc_ne_nil {tokens : List Token} (nonempty : tokens ≠ [])
    (attached : ¬ (startsWith .documentation tokens && (endsDocumentation (afterDoc tokens) ||
      startsWithWord importKeyword (afterDoc tokens))) = true) : afterDoc tokens ≠ [] := by
  intro nothing
  by_cases documented : startsWith .documentation tokens = true
  · rw [nothing, documented] at attached
    exact attached rfl
  · rw [afterDoc, if_neg documented] at nothing
    exact nonempty nothing

/-- A statement is read again in front of other statements. -/
theorem readStatement_persists (follows : StartsStatement more) {tokens : List Token}
    (alike : m.ReadsAlike m' tokens) :
    (readStatement m tokens).Persists more (readStatement m' (tokens ++ more)) := by
  cases tokens with
  | nil => exact .rejected _ _ _
  | cons t rest =>
    have alikeBehind := alike.mono (afterDoc_suffix (t :: rest))
    unfold readStatement
    rw [afterDoc_append (List.cons_ne_nil t rest) more]
    split
    · exact .rejected _ _ _
    · next attached =>
      have nonempty := afterDoc_ne_nil (List.cons_ne_nil t rest) attached
      generalize afterDoc (t :: rest) = tokens at *
      -- The word behind the documentation is the same, so it may still be documented.
      have attachedBehind : ¬ (startsWith .documentation (t :: rest ++ more) && (endsDocumentation (tokens ++ more) ||
          startsWithWord importKeyword (tokens ++ more))) = true := by
        cases tokens with
        | nil => exact absurd rfl nonempty
        | cons u others => exact attached
      rw [if_neg attachedBehind, startsWithWord_append importKeyword nonempty]
      split
      · exact readImport_persists follows nonempty
      · exact (readDefinition_persists follows (docOf (t :: rest)) alikeBehind).map _

/-! ## Bodies -/

/-- A body in front of more statements is read up to them, and reading goes on there. -/
theorem readBody_append (follows : StartsStatement more) {tokens rest : List Token}
    {statements : List Statement} (alike : m.ReadsAlike m' tokens)
    (accepted : readBody m tokens = .accepted statements rest) :
    readBody m' (tokens ++ more) = (readBody m' more).map (statements ++ ·) := by
  fun_induction readBody m tokens generalizing statements with
  | case1 =>
    cases accepted
    rw [List.nil_append]
    cases readBody m' more <;> rfl
  | case2 => cases accepted
  | case3 t others s left one ih =>
    rcases Outcome.map_eq_accepted_iff.mp accepted with ⟨next, nextAccepted, rfl⟩
    have part := readStatement_suffix m (t :: others)
    rw [one, Outcome.rest_accepted] at part
    have first := (readStatement_persists follows alike).eq_accepted one
    rw [List.cons_append, readBody_cons, ← List.cons_append, first, Outcome.andThen_accepted,
      ih (alike.mono part) nextAccepted]
    cases readBody m' more <;> rfl

end ThetaSchema
