import ThetaSchema.Proofs.Grammar.Sequences
import ThetaSchema.Proofs.Schema.Relocation

/-!
# Readers do not look at places

Two lists of tokens are aligned if they agree in the kinds, in the texts and in what touches what, and the
locations are related.  A reader does the same on both: it accepts values that differ in their locations
alone, or rejects at tokens that stand in the same place of the lists and for the same cause, and what it
leaves is aligned again.

Main definitions:

- `Aligned`: lists of tokens that differ in their places alone.
- `Outcome.Matched`: outcomes that differ in places alone.

Main results:

- `Outcome.Matched.andThen`: readers that follow one another keep alignment.
- `readBody_matched`, `readLoneDefinition_matched`, `readLoneType_matched`: aligned tokens are read alike.
-/

namespace ThetaSchema

/-! ## Aligned tokens -/

/-- A token and the same token elsewhere. -/
structure Token.Moved (R : Location → Location → Prop) (t t' : Token) : Prop where
  kind : t.kind = t'.kind
  text : t.text = t'.text
  location : R t.location t'.location

/-- Tokens that differ in their places alone, where consecutive tokens touch in both lists or in neither. -/
inductive Aligned (R : Location → Location → Prop) : List Token → List Token → Prop
  | nil : Aligned R [] []
  | cons {t t' : Token} {rest rest' : List Token} (moved : t.Moved R t')
      (touch : ∀ u ∈ rest.head?, ∀ u' ∈ rest'.head?, t.adjacentTo u = t'.adjacentTo u')
      (more : Aligned R rest rest') : Aligned R (t :: rest) (t' :: rest')

variable {R : Location → Location → Prop} {α α' β β' : Type} {t t' : Token}
  {tokens tokens' rest rest' : List Token}

namespace Aligned

theorem length_eq (h : Aligned R tokens tokens') : tokens.length = tokens'.length := by
  induction h with
  | nil => rfl
  | cons _ _ _ ih => rw [List.length_cons, List.length_cons, ih]

theorem isEmpty_eq (h : Aligned R tokens tokens') : tokens.isEmpty = tokens'.isEmpty := by
  cases h <;> rfl

theorem head (h : Aligned R (t :: rest) (t' :: rest')) : t.Moved R t' := by
  cases h with
  | cons moved _ _ => exact moved

theorem behind (h : Aligned R (t :: rest) (t' :: rest')) : Aligned R rest rest' := by
  cases h with
  | cons _ _ more => exact more

theorem tail (h : Aligned R tokens tokens') : Aligned R tokens.tail tokens'.tail := by
  cases h with
  | nil => exact .nil
  | cons _ _ more => exact more

theorem startsWith_eq (h : Aligned R tokens tokens') (kind : TokenKind) :
    startsWith kind tokens = startsWith kind tokens' := by
  cases h with
  | nil => rfl
  | cons moved _ _ => rw [startsWith_cons, startsWith_cons, moved.kind]

theorem startsWithWord_eq (h : Aligned R tokens tokens') (word : Text) :
    startsWithWord word tokens = startsWithWord word tokens' := by
  cases h with
  | nil => rfl
  | cons moved _ _ =>
    simp only [startsWithWord, List.head?_cons, Option.any_some, moved.kind, moved.text]

theorem docOf_eq (h : Aligned R tokens tokens') : docOf tokens = docOf tokens' := by
  cases h with
  | nil => rfl
  | cons moved _ _ => simp only [docOf, List.head?_cons, Option.bind_some, moved.kind, moved.text]

/-- Aligned lists stay aligned behind their documentation. -/
theorem afterDoc (h : Aligned R tokens tokens') : Aligned R (afterDoc tokens) (afterDoc tokens') := by
  unfold ThetaSchema.afterDoc
  rw [h.startsWith_eq]
  split
  · exact h.tail
  · exact h

/-- Tokens that are not empty have related locations. -/
theorem locationOf (h : Aligned R tokens tokens') (nonempty : tokens ≠ []) :
    R (locationOf tokens) (locationOf tokens') := by
  cases h with
  | nil => exact absurd rfl nonempty
  | cons moved _ _ => exact moved.location

/-- Whether a size follows the keyword of a fixed type depends on what touches what. -/
theorem sizeFollows_eq (h : Aligned R (t :: rest) (t' :: rest')) :
    sizeFollows t rest = sizeFollows t' rest' := by
  cases h with
  | cons moved touch more =>
    cases more with
    | nil => rfl
    | cons next _ _ =>
      simp only [sizeFollows, List.head?_cons, Option.any_some, next.kind]
      rw [touch _ rfl _ rfl]

theorem endsDocumentation_eq (h : Aligned R tokens tokens') :
    endsDocumentation tokens = endsDocumentation tokens' := by
  rw [endsDocumentation, endsDocumentation, h.isEmpty_eq, h.startsWith_eq]

theorem opensRecord_eq (h : Aligned R tokens tokens') : opensRecord tokens = opensRecord tokens' := by
  simp only [opensRecord, h.startsWith_eq, h.tail.startsWith_eq, h.tail.tail.startsWith_eq]

theorem opensVariant_eq (h : Aligned R tokens tokens') : opensVariant tokens = opensVariant tokens' := by
  simp only [opensVariant, h.startsWith_eq, h.tail.startsWith_eq]

end Aligned

/-! ## Matched outcomes -/

/-- Outcomes that differ in places alone: values that are related, or one and the same cause at sites that
are aligned. -/
inductive Outcome.Matched (R : Location → Location → Prop) (S : α → α' → Prop) :
    Outcome α → Outcome α' → Prop
  | accepted {a : α} {a' : α'} {rest rest' : List Token} (value : S a a') (left : Aligned R rest rest') :
      Matched R S (.accepted a rest) (.accepted a' rest')
  | rejected {f f' : Failure} {rest rest' : List Token} (cause : f.cause = f'.cause)
      (site : Aligned R f.site f'.site) (left : Aligned R rest rest') :
      Matched R S (.rejected f rest) (.rejected f' rest')

namespace Outcome.Matched

variable {S : α → α' → Prop} {T : β → β' → Prop} {o : Outcome α} {o' : Outcome α'}

/-- Readers that follow one another keep alignment. -/
theorem andThen {next : α → List Token → Outcome β} {next' : α' → List Token → Outcome β'}
    (first : Matched R S o o')
    (second : ∀ {a a' rest rest'}, o = .accepted a rest → S a a' → Aligned R rest rest' →
      Matched R T (next a rest) (next' a' rest')) :
    Matched R T (o.andThen next) (o'.andThen next') := by
  cases first with
  | accepted value left => exact second rfl value left
  | rejected cause site left => exact .rejected cause site left

theorem map {g : α → β} {g' : α' → β'} (first : Matched R S o o')
    (value : ∀ {a a'}, S a a' → T (g a) (g' a')) : Matched R T (o.map g) (o'.map g') :=
  first.andThen fun _ related left => .accepted (value related) left

end Outcome.Matched

/-! ## Single tokens and paths -/

/-- A token that was not expected is blamed in both lists. -/
theorem reject_matched {S : α → α' → Prop} (expected : Expectation) (h : Aligned R tokens tokens') :
    Outcome.Matched R S (reject expected tokens) (reject expected tokens') :=
  .rejected rfl h h

/-- A token is expected in both lists, or in neither of them found. -/
theorem expect_matched (kind : TokenKind) (expected : Expectation) (h : Aligned R tokens tokens') :
    Outcome.Matched R (Token.Moved R) (expect kind expected tokens) (expect kind expected tokens') := by
  cases h with
  | nil => exact reject_matched expected .nil
  | cons moved touch more =>
    simp only [expect, moved.kind]
    split
    · exact .accepted moved more
    · exact reject_matched expected (.cons moved touch more)

/-- The tail of a path depends on whether its first dot touches the identifier before it. -/
theorem readPathTail_matched {t t' : Token} {rest rest' : List Token} (h : Aligned R (t :: rest) (t' :: rest')) :
    Outcome.Matched R Eq (readPathTail t rest) (readPathTail t' rest') := by
  cases h with
  | cons _ touch behind =>
    cases behind with
    | nil => exact .accepted rfl .nil
    | cons dot touchNext more =>
      unfold readPathTail
      rw [touch _ rfl _ rfl, dot.kind]
      split
      · cases more with
        | nil => exact reject_matched _ .nil
        | cons name touchOthers others =>
          simp only [touchNext _ rfl _ rfl, name.kind]
          split
          · exact (readPathTail_matched (.cons name touchOthers others)).map fun same => by rw [name.text, same]
          · exact reject_matched _ (.cons name touchOthers others)
      · exact .accepted rfl (.cons dot touchNext more)
termination_by rest.length

/-- Paths do not carry locations, so the names are the same. -/
theorem readPath_matched (h : Aligned R tokens tokens') :
    Outcome.Matched R Eq (readPath tokens) (readPath tokens') := by
  cases h with
  | nil => exact reject_matched _ .nil
  | cons moved touch more =>
    simp only [readPath, expect, moved.kind]
    split
    · exact (readPathTail_matched (.cons moved touch more)).map fun same => by rw [moved.text, same]
    · exact reject_matched _ (.cons moved touch more)

/-! ## Type expressions -/

/-- A size gives the same fixed type in a related place. -/
theorem readSize_matched {l l' : Location} (moved : R l l') (h : Aligned R tokens tokens') :
    Outcome.Matched R (TypeExpr.Relocated R) (readSize l tokens) (readSize l' tokens') := by
  refine (expect_matched _ _ h).andThen fun _ size left => ?_
  rw [size.text]
  split
  · exact .rejected rfl h left
  · exact (expect_matched _ _ left).map fun _ => .fixed moved _

/-- A reference gives the same name in a related place. -/
theorem readReference_matched (m : Metadata) (h : Aligned R (t :: rest) (t' :: rest')) :
    Outcome.Matched R (TypeExpr.Relocated R) (readReference m t rest) (readReference m t' rest') :=
  (readPathTail_matched h).map fun same => by
    rw [h.head.text, same]
    exact .reference h.head.location _

/-- A keyword is one in both lists, since words are the same. -/
theorem readNamed_matched (m : Metadata) (h : Aligned R (t :: rest) (t' :: rest')) :
    Outcome.Matched R (TypeExpr.Relocated R) (readNamed m t rest) (readNamed m t' rest') := by
  have reference := readReference_matched m h
  unfold readNamed
  rw [h.head.text, h.sizeFollows_eq]
  repeat' split
  · exact readSize_matched h.head.location h.behind.tail
  · exact .rejected rfl h h
  · exact .rejected rfl h h
  · exact reference
  · exact .accepted (.primitive h.head.location _) h.behind
  · exact reference

/-- A question mark wraps a type in both lists, in related places. -/
theorem readOptionalMark_matched {e e' : TypeExpr} (related : TypeExpr.Relocated R e e')
    (h : Aligned R tokens tokens') :
    Outcome.Matched R (TypeExpr.Relocated R) (readOptionalMark e tokens) (readOptionalMark e' tokens') := by
  cases h with
  | nil => exact .accepted related .nil
  | cons moved touch more =>
    simp only [readOptionalMark, moved.kind]
    split
    · exact .accepted (.optional related.location related) more
    · exact .accepted related (.cons moved touch more)

/-- Atoms are read alike, to any depth. -/
theorem readAtom_matched (m : Metadata) (h : Aligned R tokens tokens') :
    Outcome.Matched R (TypeExpr.Relocated R) (readAtom m tokens) (readAtom m tokens') := by
  induction h with
  | nil => exact reject_matched _ .nil
  | cons moved touch more ih =>
    have inner := ih.andThen fun _ => readOptionalMark_matched
    simp only [readAtom, moved.kind]
    split
    · exact inner.andThen fun _ element left =>
        (expect_matched _ _ left).map fun _ => .array moved.location element
    · exact inner.andThen fun _ value left =>
        (expect_matched _ _ left).map fun _ => .map moved.location value
    · exact readNamed_matched m (.cons moved touch more)
    · exact reject_matched _ (.cons moved touch more)

theorem readType_matched (m : Metadata) (h : Aligned R tokens tokens') :
    Outcome.Matched R (TypeExpr.Relocated R) (readType m tokens) (readType m tokens') :=
  (readAtom_matched m h).andThen fun _ => readOptionalMark_matched

/-! ## Fields and cases -/

/-- A declared name is accepted in both lists, or refused in both for the same reason. -/
theorem readDeclaredName_matched (m : Metadata) (what : Declared) (h : Aligned R tokens tokens') :
    Outcome.Matched R Eq (readDeclaredName m what tokens) (readDeclaredName m what tokens') := by
  refine (expect_matched _ _ h).andThen fun _ moved left => ?_
  rw [moved.text]
  split
  · exact .rejected rfl h left
  · exact .accepted rfl left

/-- Fields are read alike, with the same documentation. -/
theorem readField_matched (m : Metadata) (h : Aligned R tokens tokens') :
    Outcome.Matched R (FieldOf.Relocated R (TypeExpr.Relocated R)) (readField m tokens)
      (readField m tokens') := by
  unfold readField
  rw [h.startsWith_eq, h.afterDoc.startsWith_eq, h.docOf_eq]
  split
  · exact .rejected rfl h h.afterDoc
  · refine (expect_matched _ _ h.afterDoc).andThen fun _ name left => ?_
    rw [name.text]
    refine (expect_matched _ _ left).andThen fun _ _ left => ?_
    exact (readType_matched m left).map fun type => .intro name.location _ _ type

/-- As many fields are read in both lists, one like the other. -/
theorem readFields_matched (m : Metadata) {tokens tokens' : List Token} (h : Aligned R tokens tokens') :
    Outcome.Matched R (List.Forall₂ (FieldOf.Relocated R (TypeExpr.Relocated R))) (readFields m tokens)
      (readFields m tokens') := by
  rw [readFields_eq_andThen m tokens, readFields_eq_andThen m tokens']
  refine (readField_matched m h).andThen fun read field left => ?_
  -- What a field leaves is aligned again, and shorter in both lists, so one of them carries the recursion.
  have shorter := (readField_suffix m tokens).length_le
  cases left with
  | nil => exact reject_matched _ .nil
  | cons moved touch more =>
    simp only [moved.kind]
    repeat' split
    · exact (readFields_matched m more).map fun others => .cons field others
    · exact .accepted (.cons field .nil) more
    · exact reject_matched _ (.cons moved touch more)
termination_by tokens.length
decreasing_by
  rw [read] at shorter
  exact shorter

/-- Blocks of fields are read alike, empty ones included. -/
theorem readFieldBlock_matched (m : Metadata) (h : Aligned R tokens tokens') :
    Outcome.Matched R (List.Forall₂ (FieldOf.Relocated R (TypeExpr.Relocated R))) (readFieldBlock m tokens)
      (readFieldBlock m tokens') := by
  unfold readFieldBlock
  rw [h.startsWith_eq]
  split
  · exact .accepted .nil h.tail
  · exact readFields_matched m h

/-- Cases are read alike, with the same documentation. -/
theorem readCase_matched (m : Metadata) (h : Aligned R tokens tokens') :
    Outcome.Matched R (CaseOf.Relocated R (TypeExpr.Relocated R)) (readCase m tokens)
      (readCase m tokens') := by
  unfold readCase
  rw [h.startsWith_eq, h.afterDoc.startsWith_eq, h.docOf_eq]
  split
  · exact .rejected rfl h h.afterDoc
  · refine (readDeclaredName_matched m _ h.afterDoc).andThen fun named same left => ?_
    have nonempty : afterDoc tokens ≠ [] := by
      rcases readDeclaredName_sound named with ⟨t, behind, -⟩
      exact behind ▸ List.cons_ne_nil _ _
    have moved := h.afterDoc.locationOf nonempty
    rw [same, left.startsWith_eq]
    split
    · exact (readFieldBlock_matched m left.tail).map fun fields => .intro moved _ _ fields
    · exact .accepted (.intro moved _ _ .nil) left

/-- As many cases are read in both lists, one like the other. -/
theorem readCases_matched (m : Metadata) {tokens tokens' : List Token} (h : Aligned R tokens tokens') :
    Outcome.Matched R (List.Forall₂ (CaseOf.Relocated R (TypeExpr.Relocated R))) (readCases m tokens)
      (readCases m tokens') := by
  rw [readCases_eq_andThen m tokens, readCases_eq_andThen m tokens']
  refine (readCase_matched m h).andThen fun read case left => ?_
  have shorter := (readCase_suffix m tokens).length_le
  cases left with
  | nil => exact .accepted (.cons case .nil) .nil
  | cons moved touch more =>
    simp only [moved.kind]
    split
    · exact (readCases_matched m more).map fun others => .cons case others
    · exact .accepted (.cons case .nil) (.cons moved touch more)
termination_by tokens.length
decreasing_by
  rw [read] at shorter
  exact shorter

/-- Symbols do not carry locations, so they are the same. -/
theorem readSymbols_matched {tokens tokens' : List Token} (h : Aligned R tokens tokens') :
    Outcome.Matched R Eq (readSymbols tokens) (readSymbols tokens') := by
  cases h with
  | nil => exact reject_matched _ .nil
  | cons moved touch more =>
    unfold readSymbols
    rw [moved.kind, moved.text]
    split
    · cases more with
      | nil => exact .accepted rfl .nil
      | cons mark touchNext others =>
        simp only [mark.kind]
        split
        · exact (readSymbols_matched others).map fun same => by rw [same]
        · exact .accepted rfl (.cons mark touchNext others)
    · exact reject_matched _ (.cons moved touch more)
termination_by tokens.length

/-! ## Definitions -/

/-- The form of a body of a type is chosen alike, by the kinds of the first tokens. -/
theorem readTypeBody_matched (m : Metadata) (name : QualifiedName) (h : Aligned R tokens tokens') :
    Outcome.Matched R (TypeExpr.Relocated R) (readTypeBody m name tokens) (readTypeBody m name tokens') := by
  cases tokens with
  | nil =>
    cases h
    exact reject_matched .type .nil
  | cons t others =>
    have moved := h.locationOf (List.cons_ne_nil t others)
    unfold readTypeBody
    rw [h.opensRecord_eq, h.opensVariant_eq]
    repeat' split
    · exact (readFieldBlock_matched m h.tail).map fun fields => .record moved name fields
    · exact (readCases_matched m h).map fun cases => .variant moved name cases
    · exact (readType_matched m h).map fun underlying => .newtype underlying.location name underlying

/-- Enumerations are read alike. -/
theorem readEnumBody_matched (name : QualifiedName) (h : Aligned R tokens tokens') :
    Outcome.Matched R (TypeExpr.Relocated R) (readEnumBody name tokens) (readEnumBody name tokens') := by
  cases tokens with
  | nil =>
    cases h
    exact reject_matched .enumSymbol .nil
  | cons t others =>
    have moved := h.locationOf (List.cons_ne_nil t others)
    exact (readSymbols_matched h).map fun same => same ▸ .enumeration moved name _

/-- A name with a type, and the same name with the type elsewhere. -/
def DeclaredMoved (R : Location → Location → Prop) (d d' : QualifiedName × TypeExpr) : Prop :=
  d.1 = d'.1 ∧ TypeExpr.Relocated R d.2 d'.2

/-- Declarations are read alike, if their bodies are. -/
theorem readDeclaration_matched (m : Metadata) (what : Declared)
    {body : QualifiedName → List Token → Outcome TypeExpr}
    (inside : ∀ {name rest rest'}, Aligned R rest rest' →
      Outcome.Matched R (TypeExpr.Relocated R) (body name rest) (body name rest'))
    (h : Aligned R tokens tokens') :
    Outcome.Matched R (DeclaredMoved R) (readDeclaration m what body tokens)
      (readDeclaration m what body tokens') := by
  refine (readDeclaredName_matched m what h).andThen fun _ same left => ?_
  rw [same]
  refine (expect_matched _ _ left).andThen fun _ _ left => ?_
  exact (inside left).map fun type => ⟨rfl, type⟩

/-- The keyword of a definition decides alike in both lists. -/
theorem readKeyword_matched (m : Metadata) (h : Aligned R (t :: rest) (t' :: rest')) :
    Outcome.Matched R (DeclaredMoved R) (readKeyword m t rest) (readKeyword m t' rest') := by
  unfold readKeyword
  rw [h.head.text]
  repeat' split
  · exact readDeclaration_matched m .type (readTypeBody_matched m _) h.behind
  · exact readDeclaration_matched m .synonym (readType_matched m) h.behind
  · exact readDeclaration_matched m .enumeration (readEnumBody_matched _) h.behind
  · exact reject_matched _ h
  · exact .rejected rfl h h
  · exact reject_matched _ h

/-- Definitions are read alike, with the same documentation. -/
theorem readDefinition_matched (m : Metadata) (doc : Option Text) (h : Aligned R tokens tokens') :
    Outcome.Matched R (Definition.Relocated R) (readDefinition m doc tokens)
      (readDefinition m doc tokens') := by
  cases h with
  | nil => exact reject_matched _ .nil
  | cons moved touch more =>
    simp only [readDefinition, moved.kind]
    split
    · refine (readKeyword_matched m (.cons moved touch more)).map ?_
      rintro ⟨name, type⟩ ⟨_, type'⟩ ⟨rfl, related⟩
      exact .intro moved.location name doc related
    · exact reject_matched _ (.cons moved touch more)

/-! ## Statements -/

theorem readImport_matched (h : Aligned R tokens tokens') :
    Outcome.Matched R (Statement.Relocated R) (readImport tokens) (readImport tokens') := by
  cases tokens with
  | nil =>
    cases h
    exact reject_matched .identifier .nil
  | cons t others =>
    have moved := h.locationOf (List.cons_ne_nil t others)
    exact (readPath_matched h.tail).map fun same => same ▸ .imports moved _

/-- Statements are read alike. -/
theorem readStatement_matched (m : Metadata) (h : Aligned R tokens tokens') :
    Outcome.Matched R (Statement.Relocated R) (readStatement m tokens) (readStatement m tokens') := by
  unfold readStatement
  rw [h.startsWith_eq, h.afterDoc.endsDocumentation_eq, h.afterDoc.startsWithWord_eq, h.docOf_eq]
  repeat' split
  · exact .rejected rfl h h.afterDoc
  · exact readImport_matched h.afterDoc
  · exact (readDefinition_matched m _ h.afterDoc).map .defines

/-- Aligned tokens are read alike as a body. -/
theorem readBody_matched (m : Metadata) {tokens tokens' : List Token} (h : Aligned R tokens tokens') :
    Outcome.Matched R (List.Forall₂ (Statement.Relocated R)) (readBody m tokens) (readBody m tokens') := by
  cases h with
  | nil => simpa only [readBody] using .accepted .nil .nil
  | cons moved touch more =>
    rw [readBody_cons, readBody_cons]
    refine (readStatement_matched m (.cons moved touch more)).andThen fun read statement left => ?_
    have shorter := readStatement_accepted read
    exact (readBody_matched m left).map fun others => .cons statement others
termination_by tokens.length
decreasing_by exact shorter

/-- Whether anything stands behind a complete value is the same in both lists. -/
theorem finish_matched {S : α → α' → Prop} {a : α} {a' : α'} (related : S a a')
    (h : Aligned R tokens tokens') : Outcome.Matched R S (finish a tokens) (finish a' tokens') := by
  unfold finish
  rw [h.isEmpty_eq, h.startsWith_eq]
  repeat' split
  · exact .accepted related .nil
  · exact .rejected rfl h h
  · exact reject_matched _ h

/-- Aligned tokens are read alike as a definition on its own. -/
theorem readLoneDefinition_matched (m : Metadata) (h : Aligned R tokens tokens') :
    Outcome.Matched R (Definition.Relocated R) (readLoneDefinition m tokens)
      (readLoneDefinition m tokens') := by
  unfold readLoneDefinition
  rw [h.startsWith_eq, h.afterDoc.endsDocumentation_eq, h.docOf_eq]
  split
  · exact .rejected rfl h h.afterDoc
  · exact (readDefinition_matched m _ h.afterDoc).andThen fun _ => finish_matched

/-- Aligned tokens are read alike as a type expression on its own. -/
theorem readLoneType_matched (m : Metadata) (h : Aligned R tokens tokens') :
    Outcome.Matched R (TypeExpr.Relocated R) (readLoneType m tokens) (readLoneType m tokens') :=
  (readType_matched m h).andThen fun _ => finish_matched

end ThetaSchema
