import ThetaSchema.Grammar.Session

/-!
# Where readers find fault

A reader that rejects its tokens blames one of them, or their end.  The fact is passed on from reader to
reader by a rule for readers that follow one another, so each reader only has to account for the
rejections of its own.

Main definitions:

- `Outcome.FaultIn`: if tokens are rejected, the site of the failure is a part of them.

Main results:

- `Outcome.FaultIn.andThen`: readers that follow one another blame what they were given.
- `readHeader_faultIn`, `readBody_faultIn`, `readLoneDefinition_faultIn`, `readLoneType_faultIn`: the
  readers of headers, bodies, definitions and types do.
-/

namespace ThetaSchema

variable {α β : Type} {tokens : List Token}

/-- A failure is blamed on the tokens: its site is a part of them. -/
inductive Outcome.FaultIn (tokens : List Token) : Outcome α → Prop
  | accepted (a : α) (rest : List Token) : FaultIn tokens (.accepted a rest)
  | rejected {f : Failure} {rest : List Token} (inside : f.site <:+ tokens) :
      FaultIn tokens (.rejected f rest)

namespace Outcome.FaultIn

theorem site {f : Failure} {rest : List Token} (h : (Outcome.rejected f rest : Outcome α).FaultIn tokens) :
    f.site <:+ tokens := by
  cases h with
  | rejected inside => exact inside

/-- What is blamed on a part is blamed on the whole. -/
theorem mono {o : Outcome α} {whole : List Token} (h : o.FaultIn tokens) (part : tokens <:+ whole) :
    o.FaultIn whole := by
  cases h with
  | accepted a rest => exact .accepted a rest
  | rejected inside => exact .rejected (inside.trans part)

/-- Readers that follow one another blame what they were given. -/
theorem andThen {o : Outcome α} {next : α → List Token → Outcome β} (first : o.FaultIn tokens)
    (left : o.rest <:+ tokens) (second : ∀ a rest, (next a rest).FaultIn rest) :
    (o.andThen next).FaultIn tokens := by
  cases first with
  | accepted a rest => exact (second a rest).mono left
  | rejected inside => exact .rejected inside

theorem map {o : Outcome α} (h : o.FaultIn tokens) (g : α → β) : (o.map g).FaultIn tokens := by
  cases h with
  | accepted a rest => exact .accepted (g a) rest
  | rejected inside => exact .rejected inside

end Outcome.FaultIn

/-! ## Single tokens and paths -/

theorem reject_faultIn (expected : Expectation) (tokens : List Token) :
    (reject expected tokens : Outcome α).FaultIn tokens :=
  .rejected List.suffix_rfl

/-- A token of another kind is blamed itself, and the end of the input if no token is there. -/
theorem expect_faultIn (kind : TokenKind) (expected : Expectation) (tokens : List Token) :
    (expect kind expected tokens).FaultIn tokens := by
  unfold expect
  split
  · exact reject_faultIn expected []
  · split
    · exact .accepted _ _
    · exact reject_faultIn expected _

/-- A path is blamed for what stands behind a dot in place of a name. -/
theorem readPathTail_faultIn (last : Token) (tokens : List Token) :
    (readPathTail last tokens).FaultIn tokens := by
  fun_induction readPathTail last tokens with
  | case1 => exact .accepted _ _
  | case2 => exact .rejected List.nil_suffix
  | case3 last dot _ next others _ ih =>
    exact (ih.map _).mono ((List.suffix_cons _ _).trans (List.suffix_cons _ _))
  | case4 last dot _ next others => exact .rejected (List.suffix_cons _ _)
  | case5 => exact .accepted _ _

/-- A path is blamed for its first token, or for what breaks it off behind a dot. -/
theorem readPath_faultIn (tokens : List Token) : (readPath tokens).FaultIn tokens :=
  (expect_faultIn _ _ tokens).andThen (expect_suffix _ _ tokens) fun first rest =>
    (readPathTail_faultIn first rest).map _

/-! ## Type expressions -/

/-- A size is blamed itself if it is none or out of range, or else for what stands in place of its end. -/
theorem readSize_faultIn (location : Location) (tokens : List Token) :
    (readSize location tokens).FaultIn tokens := by
  unfold readSize
  cases size : expect .integer .fixedSize tokens with
  | rejected f rest => exact .rejected (size ▸ expect_faultIn _ _ tokens).site
  | accepted t rest =>
    have left := expect_suffix .integer .fixedSize tokens
    rw [size, Outcome.rest_accepted] at left
    rw [Outcome.andThen_accepted]
    -- A size that is out of range is blamed on its own token, which stands in front of `rest`.
    split
    · exact .rejected List.suffix_rfl
    · exact ((expect_faultIn _ _ rest).map _).mono left

theorem readReference_faultIn (m : Metadata) (first : Token) (rest : List Token) :
    (readReference m first rest).FaultIn rest :=
  (readPathTail_faultIn first rest).map _

/-- An identifier is blamed itself if it lacks a size or its version, or else for the path or the size behind
it. -/
theorem readNamed_faultIn (m : Metadata) (t : Token) (rest : List Token) :
    (readNamed m t rest).FaultIn (t :: rest) := by
  have behind := List.suffix_cons t rest
  have reference := (readReference_faultIn m t rest).mono behind
  unfold readNamed
  repeat' split
  · exact (readSize_faultIn t.location rest.tail).mono ((List.tail_suffix rest).trans behind)
  · exact .rejected List.suffix_rfl
  · exact .rejected List.suffix_rfl
  · exact reference
  · exact .accepted _ _
  · exact reference

/-- No type is blamed for the question mark behind it or for the lack of one. -/
theorem readOptionalMark_faultIn (e : TypeExpr) (tokens : List Token) :
    (readOptionalMark e tokens).FaultIn tokens := by
  unfold readOptionalMark
  repeat' split
  all_goals exact .accepted _ _

/-- An atom is blamed for its first token, or for what is wrong inside. -/
theorem readAtom_faultIn (m : Metadata) (tokens : List Token) : (readAtom m tokens).FaultIn tokens := by
  induction tokens with
  | nil => exact reject_faultIn .type []
  | cons t rest ih =>
    have inner : ((readAtom m rest).andThen readOptionalMark).FaultIn rest :=
      ih.andThen (readAtom_suffix m rest) readOptionalMark_faultIn
    have innerLeft : ((readAtom m rest).andThen readOptionalMark).rest <:+ rest := readType_suffix m rest
    unfold readAtom
    split
    · exact (inner.andThen innerLeft fun e left => (expect_faultIn _ _ left).map _).mono
        (List.suffix_cons t rest)
    · exact (inner.andThen innerLeft fun e left => (expect_faultIn _ _ left).map _).mono
        (List.suffix_cons t rest)
    · exact readNamed_faultIn m t rest
    · exact reject_faultIn .type (t :: rest)

theorem readType_faultIn (m : Metadata) (tokens : List Token) : (readType m tokens).FaultIn tokens :=
  (readAtom_faultIn m tokens).andThen (readAtom_suffix m tokens) readOptionalMark_faultIn

/-! ## Fields and cases -/

/-- A declared name is blamed if it is missing, and if it is reserved. -/
theorem readDeclaredName_faultIn (m : Metadata) (what : Declared) (tokens : List Token) :
    (readDeclaredName m what tokens).FaultIn tokens := by
  unfold readDeclaredName
  cases name : expect .identifier (.declaredName what) tokens with
  | rejected f rest => exact .rejected (name ▸ expect_faultIn _ _ tokens).site
  | accepted t rest =>
    rw [Outcome.andThen_accepted]
    split
    · exact .rejected List.suffix_rfl
    · exact .accepted _ _

/-- A field is blamed for its own tokens, behind its documentation. -/
theorem readField_faultIn (m : Metadata) (tokens : List Token) : (readField m tokens).FaultIn tokens := by
  unfold readField
  split
  · exact .rejected List.suffix_rfl
  · refine .mono ?_ (afterDoc_suffix tokens)
    refine (expect_faultIn _ _ _).andThen (expect_suffix _ _ _) fun name rest => ?_
    refine (expect_faultIn _ _ rest).andThen (expect_suffix _ _ rest) fun colon rest => ?_
    exact (readType_faultIn m rest).map _

/-- The fields of a block are blamed for the first field that fails, and for what stands where a comma may. -/
theorem readFields_faultIn (m : Metadata) (tokens : List Token) : (readFields m tokens).FaultIn tokens := by
  fun_induction readFields m tokens with
  | case1 tokens f rest h => exact .rejected (h ▸ readField_faultIn m tokens).site
  | case2 tokens field h => exact .rejected List.nil_suffix
  | case3 tokens field t rest h _ ih =>
    have left := readField_suffix m tokens
    rw [h] at left
    exact (ih.map _).mono ((List.suffix_cons t rest).trans left)
  | case4 => exact .accepted _ _
  | case5 tokens field t rest h =>
    have left := readField_suffix m tokens
    rw [h] at left
    exact .rejected left

/-- A block of fields is blamed for its first field that fails. -/
theorem readFieldBlock_faultIn (m : Metadata) (tokens : List Token) :
    (readFieldBlock m tokens).FaultIn tokens := by
  unfold readFieldBlock
  split
  · exact .accepted _ _
  · exact readFields_faultIn m tokens

/-- A case is blamed for its own tokens, behind its documentation. -/
theorem readCase_faultIn (m : Metadata) (tokens : List Token) : (readCase m tokens).FaultIn tokens := by
  unfold readCase
  split
  · exact .rejected List.suffix_rfl
  · refine .mono ?_ (afterDoc_suffix tokens)
    refine (readDeclaredName_faultIn m _ _).andThen (readDeclaredName_suffix m _ _) fun name rest => ?_
    split
    · exact ((readFieldBlock_faultIn m rest.tail).map _).mono (List.tail_suffix rest)
    · exact .accepted _ _

/-- The cases of a variant are blamed for the first case that fails. -/
theorem readCases_faultIn (m : Metadata) (tokens : List Token) : (readCases m tokens).FaultIn tokens := by
  fun_induction readCases m tokens with
  | case1 tokens f rest h => exact .rejected (h ▸ readCase_faultIn m tokens).site
  | case2 => exact .accepted _ _
  | case3 tokens c t rest h _ ih =>
    have left := readCase_suffix m tokens
    rw [h] at left
    exact (ih.map _).mono ((List.suffix_cons t rest).trans left)
  | case4 => exact .accepted _ _

/-- The symbols of an enumeration are blamed for the first one that is missing. -/
theorem readSymbols_faultIn (tokens : List Token) : (readSymbols tokens).FaultIn tokens := by
  fun_induction readSymbols tokens with
  | case1 => exact reject_faultIn .enumSymbol []
  | case2 => exact .accepted _ _
  | case3 t _ bar others _ ih =>
    exact (ih.map _).mono ((List.suffix_cons _ _).trans (List.suffix_cons _ _))
  | case4 => exact .accepted _ _
  | case5 t rest => exact reject_faultIn .enumSymbol (t :: rest)

/-! ## Definitions -/

/-- Each of the three forms of a body of a type is blamed for its own tokens. -/
theorem readTypeBody_faultIn (m : Metadata) (name : QualifiedName) (tokens : List Token) :
    (readTypeBody m name tokens).FaultIn tokens := by
  unfold readTypeBody
  repeat' split
  · exact ((readFieldBlock_faultIn m tokens.tail).map _).mono (List.tail_suffix tokens)
  · exact (readCases_faultIn m tokens).map _
  · exact (readType_faultIn m tokens).map _

/-- A declaration is blamed for its name, its equals sign or its body. -/
theorem readDeclaration_faultIn (m : Metadata) (what : Declared)
    {body : QualifiedName → List Token → Outcome TypeExpr} (h : ∀ name rest, (body name rest).FaultIn rest)
    (tokens : List Token) : (readDeclaration m what body tokens).FaultIn tokens := by
  refine (readDeclaredName_faultIn m _ _).andThen (readDeclaredName_suffix m _ _) fun name rest => ?_
  refine (expect_faultIn _ _ rest).andThen (expect_suffix _ _ rest) fun equal rest => ?_
  exact (h name rest).map _

/-- The keyword of a definition is blamed itself if no definition starts with it. -/
theorem readKeyword_faultIn (m : Metadata) (t : Token) (rest : List Token) :
    (readKeyword m t rest).FaultIn (t :: rest) := by
  have behind := List.suffix_cons t rest
  unfold readKeyword
  repeat' split
  · exact (readDeclaration_faultIn m .type (readTypeBody_faultIn m) rest).mono behind
  · exact (readDeclaration_faultIn m .synonym (fun _ => readType_faultIn m) rest).mono behind
  · exact (readDeclaration_faultIn m .enumeration (fun _ left => (readSymbols_faultIn left).map _) rest).mono
      behind
  · exact reject_faultIn .definition (t :: rest)
  · exact .rejected List.suffix_rfl
  · exact reject_faultIn .definition (t :: rest)

/-- A definition is blamed for its own tokens, keyword included. -/
theorem readDefinition_faultIn (m : Metadata) (doc : Option Text) (tokens : List Token) :
    (readDefinition m doc tokens).FaultIn tokens := by
  unfold readDefinition
  split
  · exact reject_faultIn .definition []
  · split
    · exact (readKeyword_faultIn m _ _).map _
    · exact reject_faultIn .definition _

/-! ## Statements -/

theorem readImport_faultIn (tokens : List Token) : (readImport tokens).FaultIn tokens :=
  ((readPath_faultIn tokens.tail).map _).mono (List.tail_suffix tokens)

/-- A statement is blamed for its own tokens, documentation included. -/
theorem readStatement_faultIn (m : Metadata) (tokens : List Token) :
    (readStatement m tokens).FaultIn tokens := by
  unfold readStatement
  repeat' split
  · exact .rejected List.suffix_rfl
  · exact (readImport_faultIn _).mono (afterDoc_suffix tokens)
  · exact ((readDefinition_faultIn m _ _).map _).mono (afterDoc_suffix tokens)

/-- A body is blamed for its first statement that fails. -/
theorem readBody_faultIn (m : Metadata) (tokens : List Token) : (readBody m tokens).FaultIn tokens := by
  fun_induction readBody m tokens with
  | case1 => exact .accepted _ _
  | case2 t others f rest h => exact .rejected (h ▸ readStatement_faultIn m (t :: others)).site
  | case3 t others s rest h ih =>
    have left := readStatement_suffix m (t :: others)
    rw [h] at left
    exact (ih.map _).mono left

/-- Behind a complete value the first token left is blamed. -/
theorem finish_faultIn (a : α) (tokens : List Token) : (finish a tokens).FaultIn tokens := by
  unfold finish
  repeat' split
  · exact .accepted _ _
  · exact .rejected List.suffix_rfl
  · exact reject_faultIn .endOfInput tokens

/-- A definition on its own is blamed for its tokens and for what stands behind them. -/
theorem readLoneDefinition_faultIn (m : Metadata) (tokens : List Token) :
    (readLoneDefinition m tokens).FaultIn tokens := by
  unfold readLoneDefinition
  split
  · exact .rejected List.suffix_rfl
  · refine .mono ?_ (afterDoc_suffix tokens)
    exact (readDefinition_faultIn m _ _).andThen (readDefinition_suffix m _ _) finish_faultIn

/-- A type on its own is blamed for its tokens and for what stands behind them. -/
theorem readLoneType_faultIn (m : Metadata) (tokens : List Token) :
    (readLoneType m tokens).FaultIn tokens :=
  (readType_faultIn m tokens).andThen (readType_suffix m tokens) finish_faultIn

/-! ## Headers -/

/-- A setting is blamed for a version that is missing or malformed. -/
theorem readVersion_faultIn (key : Text) (tokens : List Token) :
    (readVersion key tokens).FaultIn tokens := by
  unfold readVersion
  repeat' split
  · exact reject_faultIn _ []
  · exact .accepted _ _
  · exact .rejected List.suffix_rfl
  · exact reject_faultIn _ _

/-- A setting is blamed for its colon and its version. -/
theorem readSetting_faultIn (draft : HeaderDraft) (key : HeaderKey) (spelling : Text)
    (tokens : List Token) : (readSetting draft key spelling tokens).FaultIn tokens :=
  (expect_faultIn _ _ tokens).andThen (expect_suffix _ _ tokens) fun _ rest =>
    (readVersion_faultIn spelling rest).map _

/-- An entry is blamed for its key, if this is unknown or repeated, or for its setting. -/
theorem readEntry_faultIn (draft : HeaderDraft) (tokens : List Token) :
    (readEntry draft tokens).FaultIn tokens := by
  unfold readEntry
  cases key : expect .identifier .metadataKey tokens with
  | rejected f rest => exact .rejected (key ▸ expect_faultIn _ _ tokens).site
  | accepted first rest =>
    have left := expect_suffix .identifier .metadataKey tokens
    rw [key, Outcome.rest_accepted] at left
    rw [Outcome.andThen_accepted]
    dsimp only
    -- A key that is unknown or repeated is blamed on its first token.
    repeat' split
    · exact .rejected List.suffix_rfl
    · exact .rejected List.suffix_rfl
    · exact (readSetting_faultIn draft _ _ _).mono ((readKeyTail_suffix first rest).trans left)

/-- The entries of a header are blamed for the first one that fails. -/
theorem readEntries_faultIn (draft : HeaderDraft) (tokens : List Token) :
    (readEntries draft tokens).FaultIn tokens := by
  fun_induction readEntries draft tokens with
  | case1 => exact .rejected List.suffix_rfl
  | case2 => exact .accepted _ _
  | case3 draft t rest _ _ ih => exact ih.mono (List.suffix_cons t rest)
  | case4 draft t rest _ _ f left h => exact .rejected (h ▸ readEntry_faultIn draft (t :: rest)).site
  | case5 draft t rest _ _ d left h ih =>
    have entry := readEntry_suffix draft (t :: rest)
    rw [h] at entry
    exact ih.mono entry

/-- The end of a header is blamed on the separator or on the end of the input. -/
theorem closeHeader_faultIn (moduleName : Text) (draft : HeaderDraft) (previous : Option Token)
    (tokens : List Token) : (closeHeader moduleName draft previous tokens).FaultIn tokens := by
  unfold closeHeader
  repeat' split
  · exact .rejected List.suffix_rfl
  · exact .rejected List.suffix_rfl
  · exact .rejected List.suffix_rfl
  · exact .rejected List.suffix_rfl
  · exact .accepted _ _

/-- A header is blamed for its first entry that fails, or for its end. -/
theorem readHeader_faultIn (before : Option Token) (moduleName : Text) (tokens : List Token) :
    (readHeader before moduleName tokens).FaultIn tokens :=
  (readEntries_faultIn {} tokens).andThen (readEntries_suffix {} tokens) fun draft rest =>
    closeHeader_faultIn moduleName draft _ rest

end ThetaSchema
