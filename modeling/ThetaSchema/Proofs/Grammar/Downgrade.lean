import ThetaSchema.Proofs.Grammar.BodyCompleteness
import ThetaSchema.Proofs.Grammar.Parsed
import ThetaSchema.Proofs.Grammar.Sequences
import ThetaSchema.Proofs.Printing.Types
import ThetaSchema.Proofs.Schema.Features

/-!
# Reading at an older language version

A body that is read at a language version with every construct is read again at a version with none of
them.  Both readings go on in step until a construct comes up that the older version refuses; there the
second one ends, and if there is none it ends with the downgraded statements.

Main definitions:

- `Downgrade`: metadata of the same module at a newer and an older language version.
- `FeatureUse.StartsAt`: a token starts a construct.
- `Lowered`: what becomes of tokens at the older version, where the newer one reads a value.

Main results:

- `Lowered.andThen`: readings in step, one after the other.
- `readType_lowered`, `readStatement_lowered`, `readBody_lowered`: the readers of the grammar go in step.
- `body_downgraded`: what becomes of a module body.
-/

namespace ThetaSchema

/-! ## Versions -/

/-- Metadata that names a language version with every construct, and metadata of the same module that names
one without any of them. -/
structure Downgrade (m m' : Metadata) : Prop where
  newer : (⟨1, 1, 0⟩ : Version) ≤ m.language
  older : m'.language < (⟨1, 1, 0⟩ : Version)
  sameName : m'.moduleName = m.moduleName

namespace Downgrade

variable {m m' : Metadata}

theorem enabled (h : Downgrade m m') (f : Feature) : f.enabledAt m.language = true := by
  cases f <;> exact decide_eq_true h.newer

theorem disabled (h : Downgrade m m') (f : Feature) : f.enabledAt m'.language = false := by
  cases f <;> exact decide_eq_false fun atLeast => atLeast h.older

/-- Before a downgrade every primitive type is there. -/
theorem primitive_enabled (h : Downgrade m m') (kind : Primitive) : kind.enabledAt m.language = true := by
  cases kind with
  | uuid => exact h.enabled .uuid
  | _ => rfl

/-- The older version has every primitive type but one. -/
theorem primitive_enabled_iff (h : Downgrade m m') (kind : Primitive) :
    kind.enabledAt m'.language = true ↔ kind ≠ .uuid := by
  cases kind with
  | uuid => simp [Primitive.enabledAt, h.disabled]
  | _ => simp [Primitive.enabledAt]

/-- The older version has no keywords of primitive types of its own. -/
theorem ofKeyword?_eq_some_iff (h : Downgrade m m') {t : Text} {kind : Primitive} :
    Primitive.ofKeyword? m'.language t = some kind ↔
      Primitive.ofKeyword? m.language t = some kind ∧ kind ≠ .uuid := by
  rw [Primitive.ofKeyword?_eq_some_iff, Primitive.ofKeyword?_eq_some_iff, h.primitive_enabled,
    h.primitive_enabled_iff, and_comm]
  simp

/-- A word that is no keyword, or the one that is lost, is no keyword behind a downgrade. -/
theorem ofKeyword?_none (h : Downgrade m m') {t : Text}
    (free : ∀ kind, Primitive.ofKeyword? m.language t = some kind → kind = .uuid) :
    Primitive.ofKeyword? m'.language t = none := by
  rw [Option.eq_none_iff_forall_ne_some]
  intro kind keyword
  rcases h.ofKeyword?_eq_some_iff.mp keyword with ⟨found, other⟩
  exact other (free kind found)

/-- A name that may be declared may also be declared at the older version. -/
theorem declaresName (h : Downgrade m m') {t : Token} (declares : DeclaresName m t) : DeclaresName m' t where
  identifier := declares.identifier
  free := by
    rw [isReservedWord_eq_false_iff, h.disabled]
    have none := (isReservedWord_eq_false_iff.mp declares.free).1
    exact ⟨h.ofKeyword?_none fun kind found => by simp [none] at found, by simp⟩

end Downgrade

/-! ## Readings in step -/

/-- A token starts a construct if it is the construct's keyword at its location. -/
structure FeatureUse.StartsAt (u : FeatureUse) (t : Token) : Prop where
  isKeyword : IsKeyword u.feature.keyword t
  located : t.location = u.location

/-- What becomes of tokens at a language version without the constructs, where a version with them reads a
value that uses them: without uses a value is read from the same tokens, and otherwise the tokens are
rejected at the one that starts the first use, in front of those that start the others. -/
inductive Lowered {α : Type} (language : Version) (value : α) (rest : List Token) :
    List FeatureUse → List Token → Outcome α → Prop
  | kept {tokens : List Token} (read : List Token) (split : tokens = read ++ rest) :
      Lowered language value rest [] tokens (.accepted value rest)
  | refused {u : FeatureUse} {others : List FeatureUse} {tokens : List Token} {t : Token}
      (before after : List Token) (split : tokens = before ++ t :: after ++ rest) (first : u.StartsAt t)
      (later : ∀ v ∈ others, ∃ s ∈ after, v.StartsAt s) :
      Lowered language value rest (u :: others) tokens
        (.rejected ⟨t :: after ++ rest, .unavailable (.ofFeature u.feature language)⟩ (t :: after ++ rest))

namespace Lowered

variable {α β : Type} {language : Version} {a : α} {b : β} {tokens mid rest : List Token}
  {us vs ws : List FeatureUse} {o : Outcome α}

/-- All uses start at tokens that are read. -/
theorem starts (h : Lowered language a rest us tokens o) :
    ∃ read, tokens = read ++ rest ∧ ∀ u ∈ us, ∃ t ∈ read, u.StartsAt t := by
  cases h with
  | kept read split => exact ⟨read, split, by simp⟩
  | @refused u others _ t before after split first later =>
    refine ⟨before ++ t :: after, split, fun v mem => ?_⟩
    rcases List.mem_cons.mp mem with rfl | mem
    · exact ⟨t, by simp, first⟩
    · rcases later v mem with ⟨s, inside, starts⟩
      exact ⟨s, by simp [inside], starts⟩

/-- A reader that does not look at the language version goes in step with itself. -/
theorem of_accepted (language : Version) (h : o = .accepted a rest) (left : o.rest <:+ tokens) :
    Lowered language a rest [] tokens o := by
  subst h
  rcases left with ⟨read, split⟩
  exact .kept read split.symm

/-- More tokens in front that were read before. -/
theorem behind (h : Lowered language a rest us tokens o) {whole : List Token} (left : tokens <:+ whole) :
    Lowered language a rest us whole o := by
  rcases left with ⟨front, rfl⟩
  cases h with
  | kept read split =>
    exact .kept (front ++ read) (by rw [split, List.append_assoc])
  | @refused u others _ t before after split first later =>
    refine .refused (front ++ before) after ?_ first later
    rw [split]
    simp only [List.append_assoc]

/-- Readers that go in step do so one after the other. -/
theorem andThen {next : α → List Token → Outcome β} (first : Lowered language a mid us tokens o)
    (second : Lowered language b rest vs mid (next a mid)) (uses : ws = us ++ vs) :
    Lowered language b rest ws tokens (o.andThen next) := by
  subst uses
  cases first with
  | kept read split =>
    rw [List.nil_append, Outcome.andThen_accepted]
    exact second.behind ⟨read, split.symm⟩
  | @refused u others _ t before after split start later =>
    rcases second.starts with ⟨read, rfl, started⟩
    rw [Outcome.andThen_rejected, List.cons_append, ← List.append_assoc]
    refine .refused before (after ++ read) ?_ start ?_
    · rw [split]
      simp only [List.append_assoc, List.cons_append]
    · intro v mem
      rcases List.mem_append.mp mem with early | late
      · rcases later v early with ⟨s, inside, starts⟩
        exact ⟨s, List.mem_append_left _ inside, starts⟩
      · rcases started v late with ⟨s, inside, starts⟩
        exact ⟨s, List.mem_append_right _ inside, starts⟩

/-- Readers go in step under a function of the value. -/
theorem map (h : Lowered language a rest us tokens o) (g : α → β) :
    Lowered language (g a) rest us tokens (o.map g) := by
  cases h with
  | kept read split => exact .kept read split
  | refused before after split first later => exact .refused before after split first later

end Lowered

variable {m m' : Metadata} {tokens rest : List Token}

/-! ## Types -/

/-- An identifier is read in step: it is the same keyword, a reference, or the start of a use. -/
theorem readNamed_lowered (h : Downgrade m m') {t : Token} {e : TypeExpr} (identifier : t.kind = .identifier)
    (accepted : readNamed m t tokens = .accepted e rest) (ends : startsWith .dot rest = false) :
    Lowered m'.language (e.downgraded m.moduleName) rest e.featureUses (t :: tokens)
      (readNamed m' t tokens) := by
  unfold readNamed at accepted ⊢
  by_cases keyword : t.text = Feature.fixed.keyword
  · rw [if_pos keyword, if_pos (h.enabled .fixed)] at accepted
    rw [if_pos keyword, if_neg (by simp [h.disabled])]
    split at accepted
    · next follows =>
      rw [if_pos follows]
      cases tokens with
      | nil => cases follows
      | cons opening behind =>
        rcases readSize_sound accepted with ⟨size, closing, n, same, -, -, -, rfl⟩
        rw [List.tail_cons] at same
        subst same
        exact .refused [] [opening, size, closing] rfl ⟨⟨identifier, keyword⟩, rfl⟩
          (by simp)
    · cases accepted
  · rw [if_neg keyword] at accepted ⊢
    cases primitive : Primitive.ofKeyword? m.language t.text with
    | none =>
      simp only [primitive] at accepted
      have none : Primitive.ofKeyword? m'.language t.text = none :=
        h.ofKeyword?_none fun kind found => by simp [primitive] at found
      simp only [none]
      have same : readReference m' t tokens = readReference m t tokens := by
        rw [readReference, readReference, h.sameName]
      have left := readReference_suffix m t tokens
      rcases Outcome.map_eq_accepted_iff.mp accepted with ⟨others, -, rfl⟩
      rw [same]
      exact (Lowered.of_accepted m'.language accepted left).behind (List.suffix_cons t tokens)
    | some kind =>
      simp only [primitive] at accepted
      cases accepted
      by_cases isUuid : kind = .uuid
      · subst isUuid
        have text : t.text = Primitive.uuid.keyword := (Primitive.ofKeyword?_eq_some_iff.mp primitive).2.symm
        have none : Primitive.ofKeyword? m'.language t.text = none :=
          h.ofKeyword?_none fun kind found => by
            rw [primitive] at found
            exact (Option.some.inj found).symm
        simp only [none]
        rw [readReference, readPathTail_eq_nil ends, Outcome.map_accepted, h.sameName, text]
        exact .kept [t] rfl
      · simp only [h.ofKeyword?_eq_some_iff.mpr ⟨primitive, isUuid⟩]
        rw [TypeExpr.downgraded, if_neg isUuid]
        exact .kept [t] rfl

/-- A question mark is read in front of the same types at every version. -/
theorem readOptionalMark_lowered {language : Version} {moduleName : Text} {e e' : TypeExpr}
    (accepted : readOptionalMark e tokens = .accepted e' rest) :
    e'.featureUses = e.featureUses ∧
      Lowered language (e'.downgraded moduleName) rest [] tokens
        (readOptionalMark (e.downgraded moduleName) tokens) := by
  cases tokens with
  | nil =>
    cases accepted
    exact ⟨rfl, .kept [] rfl⟩
  | cons t others =>
    unfold readOptionalMark at accepted ⊢
    dsimp only at accepted ⊢
    split at accepted
    · next isMark =>
      cases accepted
      rw [if_pos isMark, TypeExpr.location_downgraded]
      exact ⟨rfl, .kept [t] rfl⟩
    · next noMark =>
      cases accepted
      rw [if_neg noMark]
      exact ⟨rfl, .kept [] rfl⟩

/-- Where no dot follows a type, none follows the atom in it. -/
theorem readOptionalMark_dot {e e' : TypeExpr} (accepted : readOptionalMark e tokens = .accepted e' rest)
    (ends : startsWith .dot rest = false) : startsWith .dot tokens = false := by
  cases tokens with
  | nil => rfl
  | cons t others =>
    unfold readOptionalMark at accepted
    dsimp only at accepted
    split at accepted
    · next isMark => simp [isMark]
    · cases accepted
      exact ends

/-- If atoms are read in step, so are the types that they start. -/
theorem readType_lowered_of_atom
    (atom : ∀ {a : TypeExpr} {mid : List Token}, readAtom m tokens = .accepted a mid →
      startsWith .dot mid = false →
        Lowered m'.language (a.downgraded m.moduleName) mid a.featureUses tokens (readAtom m' tokens))
    {e : TypeExpr} (accepted : readType m tokens = .accepted e rest) (ends : startsWith .dot rest = false) :
    Lowered m'.language (e.downgraded m.moduleName) rest e.featureUses tokens (readType m' tokens) := by
  rcases Outcome.andThen_eq_accepted_iff.mp accepted with ⟨a, mid, atomAccepted, markAccepted⟩
  rcases readOptionalMark_lowered markAccepted with ⟨uses, mark⟩
  exact (atom atomAccepted (readOptionalMark_dot markAccepted ends)).andThen mark (by simp [uses])

/-- Tokens that start with one kind of token start with no other one. -/
theorem startsWith_eq_false {kind other : TokenKind} (h : startsWith kind tokens = true) (ne : kind ≠ other) :
    startsWith other tokens = false := by
  cases tokens with
  | nil => rfl
  | cons t others =>
    rw [startsWith_cons, decide_eq_true_eq] at h
    rw [startsWith_cons, h]
    exact decide_eq_false ne

/-- If the type between two marks is read in step, so is what it is wrapped in. -/
theorem between_lowered {language : Version} {moduleName : Text} {closing : TokenKind}
    {expected : Expectation} {wrap : TypeExpr → TypeExpr} {o o' : Outcome TypeExpr} {e : TypeExpr}
    (inner : ∀ {a : TypeExpr} {mid : List Token}, o = .accepted a mid → startsWith .dot mid = false →
      Lowered language (a.downgraded moduleName) mid a.featureUses tokens o')
    (noDot : closing ≠ .dot)
    (accepted : (o.andThen fun a left => (expect closing expected left).map fun _ => wrap a) =
      .accepted e rest) :
    ∃ a, e = wrap a ∧
      Lowered language (wrap (a.downgraded moduleName)) rest a.featureUses tokens
        (o'.andThen fun a left => (expect closing expected left).map fun _ => wrap a) := by
  rcases Outcome.andThen_eq_accepted_iff.mp accepted with ⟨a, mid, innerAccepted, closed⟩
  rcases Outcome.map_eq_accepted_iff.mp closed with ⟨mark, isMark, rfl⟩
  rcases expect_accepted isMark with ⟨rfl, markKind⟩
  have ends : startsWith .dot (mark :: rest) = false :=
    startsWith_eq_false (by rw [startsWith_cons, decide_eq_true_eq]; exact markKind) noDot
  have closes := (Lowered.of_accepted language isMark (expect_suffix _ _ _)).map
    fun _ => wrap (a.downgraded moduleName)
  exact ⟨a, rfl, (inner innerAccepted ends).andThen closes (List.append_nil _).symm⟩

/-- An atom is read in step, up to its first use of a construct. -/
theorem readAtom_lowered (h : Downgrade m m') {e : TypeExpr} (accepted : readAtom m tokens = .accepted e rest)
    (ends : startsWith .dot rest = false) :
    Lowered m'.language (e.downgraded m.moduleName) rest e.featureUses tokens (readAtom m' tokens) := by
  induction tokens generalizing e rest with
  | nil => cases accepted
  | cons t others ih =>
    -- The type between brackets or braces is an atom with its mark, so the hypothesis is enough.
    have inner : ∀ {a : TypeExpr} {mid : List Token}, readType m others = .accepted a mid →
        startsWith .dot mid = false →
          Lowered m'.language (a.downgraded m.moduleName) mid a.featureUses others (readType m' others) :=
      readType_lowered_of_atom ih
    have behind := List.suffix_cons t others
    unfold readAtom at accepted ⊢
    split at accepted
    · rcases between_lowered inner (by decide) accepted with ⟨element, rfl, array⟩
      rw [TypeExpr.downgraded, TypeExpr.featureUses]
      exact array.behind behind
    · rcases between_lowered inner (by decide) accepted with ⟨value, rfl, map⟩
      rw [TypeExpr.downgraded, TypeExpr.featureUses]
      exact map.behind behind
    · next identifier => exact readNamed_lowered h identifier accepted ends
    · cases accepted

/-- Types that no dot follows are read in step. -/
theorem readType_lowered (h : Downgrade m m') {e : TypeExpr} (accepted : readType m tokens = .accepted e rest)
    (ends : startsWith .dot rest = false) :
    Lowered m'.language (e.downgraded m.moduleName) rest e.featureUses tokens (readType m' tokens) :=
  readType_lowered_of_atom (readAtom_lowered h) accepted ends

/-! ## Fields and cases -/

/-- A field is read in step, up to the first use in its type. -/
theorem readField_lowered (h : Downgrade m m') {f : RecordField}
    (accepted : readField m tokens = .accepted f rest) (ends : startsWith .dot rest = false) :
    Lowered m'.language (f.downgraded m.moduleName) rest f.type.featureUses tokens (readField m' tokens) := by
  unfold readField at accepted ⊢
  split at accepted
  · cases accepted
  · next documented =>
    rw [if_neg documented]
    rcases Outcome.andThen_eq_accepted_iff.mp accepted with ⟨name, afterName, isName, accepted⟩
    rcases Outcome.andThen_eq_accepted_iff.mp accepted with ⟨colon, afterColon, isColon, accepted⟩
    rcases Outcome.map_eq_accepted_iff.mp accepted with ⟨e, typeAccepted, rfl⟩
    have nameRead := Lowered.of_accepted m'.language isName (expect_suffix _ _ _)
    have colonRead := Lowered.of_accepted m'.language isColon (expect_suffix _ _ _)
    have typeRead := (readType_lowered h typeAccepted ends).map fun type =>
      (⟨name.location, name.text, docOf tokens, type⟩ : RecordField)
    exact (nameRead.andThen (colonRead.andThen typeRead rfl) rfl).behind (afterDoc_suffix tokens)

/-- The fields of a block are read in step, up to the first use in any of them. -/
theorem readFields_lowered (h : Downgrade m m') {fields : List RecordField}
    (accepted : readFields m tokens = .accepted fields rest) :
    Lowered m'.language (fields.map (FieldOf.downgraded m.moduleName)) rest (fieldFeatureUses fields) tokens
      (readFields m' tokens) := by
  fun_induction readFields m tokens generalizing fields with
  | case1 => cases accepted
  | case2 => cases accepted
  | case3 tokens f t others one isComma ih =>
    rcases Outcome.map_eq_accepted_iff.mp accepted with ⟨more, moreAccepted, rfl⟩
    have ends : startsWith .dot (t :: others) = false := by simp [isComma]
    have others := ((ih moreAccepted).map (f.downgraded m.moduleName :: ·)).behind (List.suffix_cons t others)
    rw [readFields_eq_andThen]
    refine (readField_lowered h one ends).andThen ?_ rfl
    dsimp only
    rw [if_pos isComma]
    exact others
  | case4 tokens f t others one notComma isClosing =>
    cases accepted
    have ends : startsWith .dot (t :: rest) = false := by simp [isClosing]
    rw [readFields_eq_andThen]
    refine (readField_lowered h one ends).andThen ?_ rfl
    dsimp only
    rw [if_neg notComma, if_pos isClosing]
    exact .kept [t] rfl
  | case5 => cases accepted

/-- A block of fields is read in step. -/
theorem readFieldBlock_lowered (h : Downgrade m m') {fields : List RecordField}
    (accepted : readFieldBlock m tokens = .accepted fields rest) :
    Lowered m'.language (fields.map (FieldOf.downgraded m.moduleName)) rest (fieldFeatureUses fields) tokens
      (readFieldBlock m' tokens) := by
  unfold readFieldBlock at accepted ⊢
  split at accepted
  · next closes =>
    rw [if_pos closes]
    cases accepted
    exact .of_accepted _ rfl (List.tail_suffix tokens)
  · next inside =>
    rw [if_neg inside]
    exact readFields_lowered h accepted

/-- Names that may be declared at the newer version may be declared at the older one. -/
theorem readDeclaredName_lowered (h : Downgrade m m') {what : Declared} {name : QualifiedName}
    (accepted : readDeclaredName m what tokens = .accepted name rest) :
    Lowered m'.language name rest [] tokens (readDeclaredName m' what tokens) := by
  rcases readDeclaredName_sound accepted with ⟨t, rfl, declares, rfl⟩
  rw [readDeclaredName_complete (h.declaresName declares), h.sameName]
  exact .kept [t] rfl

/-- A case is read in step, up to the first use in its fields. -/
theorem readCase_lowered (h : Downgrade m m') {c : VariantCase}
    (accepted : readCase m tokens = .accepted c rest) :
    Lowered m'.language (c.downgraded m.moduleName) rest (fieldFeatureUses c.fields) tokens
      (readCase m' tokens) := by
  unfold readCase at accepted ⊢
  split at accepted
  · cases accepted
  · next documented =>
    rw [if_neg documented]
    rcases Outcome.andThen_eq_accepted_iff.mp accepted with ⟨name, afterName, declared, accepted⟩
    refine ((readDeclaredName_lowered h declared).andThen ?_ rfl).behind (afterDoc_suffix tokens)
    split at accepted
    · next opens =>
      rw [if_pos opens]
      rcases Outcome.map_eq_accepted_iff.mp accepted with ⟨fields, blockAccepted, rfl⟩
      have block := (readFieldBlock_lowered h blockAccepted).map fun fields =>
        (⟨locationOf (afterDoc tokens), name, docOf tokens, fields⟩ : VariantCase)
      exact block.behind (List.tail_suffix afterName)
    · next bare =>
      rw [if_neg bare]
      cases accepted
      exact .kept [] rfl

/-- The cases of a variant are read in step, up to the first use in any of them. -/
theorem readCases_lowered (h : Downgrade m m') {cases : List VariantCase}
    (accepted : readCases m tokens = .accepted cases rest) :
    Lowered m'.language (cases.map (CaseOf.downgraded m.moduleName)) rest (caseFeatureUses cases) tokens
      (readCases m' tokens) := by
  fun_induction readCases m tokens generalizing cases with
  | case1 => cases accepted
  | case2 tokens c one =>
    cases accepted
    rw [readCases_eq_andThen]
    exact (readCase_lowered h one).andThen (.kept [] rfl) rfl
  | case3 tokens c t others one isBar ih =>
    rcases Outcome.map_eq_accepted_iff.mp accepted with ⟨more, moreAccepted, rfl⟩
    have others := ((ih moreAccepted).map (c.downgraded m.moduleName :: ·)).behind (List.suffix_cons t others)
    rw [readCases_eq_andThen]
    refine (readCase_lowered h one).andThen ?_ rfl
    dsimp only
    rw [if_pos isBar]
    exact others
  | case4 tokens c t others one noBar =>
    cases accepted
    rw [readCases_eq_andThen]
    refine (readCase_lowered h one).andThen ?_ rfl
    dsimp only
    rw [if_neg noBar]
    exact .kept [] rfl

/-! ## Definitions -/

/-- The body of a type is read in step, in the same form. -/
theorem readTypeBody_lowered (h : Downgrade m m') {name : QualifiedName} {e : TypeExpr}
    (accepted : readTypeBody m name tokens = .accepted e rest) (ends : startsWith .dot rest = false) :
    Lowered m'.language (e.downgraded m.moduleName) rest e.featureUses tokens
      (readTypeBody m' name tokens) := by
  unfold readTypeBody at accepted ⊢
  split at accepted
  · next opens =>
    rw [if_pos opens]
    rcases Outcome.map_eq_accepted_iff.mp accepted with ⟨fields, blockAccepted, rfl⟩
    rw [TypeExpr.downgraded, TypeExpr.featureUses, downgradedFields_eq_map]
    exact ((readFieldBlock_lowered h blockAccepted).map _).behind (List.tail_suffix tokens)
  · next noRecord =>
    rw [if_neg noRecord]
    split at accepted
    · next opens =>
      rw [if_pos opens]
      rcases Outcome.map_eq_accepted_iff.mp accepted with ⟨cases, casesAccepted, rfl⟩
      rw [TypeExpr.downgraded, TypeExpr.featureUses, downgradedCases_eq_map]
      exact (readCases_lowered h casesAccepted).map _
    · next noVariant =>
      rw [if_neg noVariant]
      rcases Outcome.map_eq_accepted_iff.mp accepted with ⟨underlying, typeAccepted, rfl⟩
      rw [TypeExpr.downgraded, TypeExpr.featureUses, ← TypeExpr.location_downgraded m.moduleName]
      exact (readType_lowered h typeAccepted ends).map fun e => TypeExpr.newtype e.location name e

/-- What stands behind the equals sign of a record, a variant or a newtype is no enumeration. -/
theorem readTypeBody_ne_enumeration {name : QualifiedName} {e : TypeExpr}
    (accepted : readTypeBody m name tokens = .accepted e rest) (l : Location) (n : QualifiedName)
    (symbols : List Text) : e ≠ .enumeration l n symbols := by
  rintro rfl
  rcases readTypeBody_sound accepted with ⟨body, -, derived⟩
  cases derived

/-- A type expression is no enumeration. -/
theorem readType_ne_enumeration {e : TypeExpr} (accepted : readType m tokens = .accepted e rest)
    (l : Location) (n : QualifiedName) (symbols : List Text) : e ≠ .enumeration l n symbols := by
  rintro rfl
  rcases readType_sound accepted with ⟨signature, -, derived⟩
  cases derived with
  | plain atom => cases atom

/-- If the body of a declaration is read in step, so is the declaration. -/
theorem readDeclaration_lowered (h : Downgrade m m') {what : Declared}
    {body body' : QualifiedName → List Token → Outcome TypeExpr} {d : QualifiedName × TypeExpr}
    {e : TypeExpr} {us : List FeatureUse}
    (inner : ∀ {left : List Token}, body d.1 left = .accepted d.2 rest →
      Lowered m'.language e rest us left (body' d.1 left))
    (accepted : readDeclaration m what body tokens = .accepted d rest) :
    Lowered m'.language (d.1, e) rest us tokens (readDeclaration m' what body' tokens) := by
  rcases Outcome.andThen_eq_accepted_iff.mp accepted with ⟨name, afterName, declared, accepted⟩
  rcases Outcome.andThen_eq_accepted_iff.mp accepted with ⟨equal, afterEqual, isEqual, accepted⟩
  rcases Outcome.map_eq_accepted_iff.mp accepted with ⟨type, bodyAccepted, rfl⟩
  have equalRead := Lowered.of_accepted m'.language isEqual (expect_suffix _ _ _)
  have bodyRead := (inner bodyAccepted).map (name, ·)
  exact (readDeclaredName_lowered h declared).andThen (equalRead.andThen bodyRead rfl) rfl

/-- The keyword of an enumeration is the start of a use itself; any other one is read in step. -/
theorem readKeyword_lowered (h : Downgrade m m') {t : Token} {d : QualifiedName × TypeExpr}
    (identifier : t.kind = .identifier) (accepted : readKeyword m t tokens = .accepted d rest)
    (ends : startsWith .dot rest = false) (doc : Option Text) :
    Lowered m'.language (d.1, d.2.downgraded m.moduleName) rest
      (Definition.mk t.location d.1 doc d.2).featureUses (t :: tokens) (readKeyword m' t tokens) := by
  have behind := List.suffix_cons t tokens
  have left := readKeyword_accepted accepted
  unfold readKeyword at accepted ⊢
  split at accepted
  · next keyword =>
    rw [if_pos keyword]
    rcases readDeclaration_sound accepted with ⟨name, equal, body, -, -, -, -, bodyAccepted⟩
    rw [Definition.featureUses_of_ne (readTypeBody_ne_enumeration bodyAccepted)]
    exact (readDeclaration_lowered h (readTypeBody_lowered h · ends) accepted).behind behind
  · next noType =>
    rw [if_neg noType]
    split at accepted
    · next keyword =>
      rw [if_pos keyword]
      rcases readDeclaration_sound accepted with ⟨name, equal, body, -, -, -, -, typeAccepted⟩
      rw [Definition.featureUses_of_ne (readType_ne_enumeration typeAccepted)]
      exact (readDeclaration_lowered h (readType_lowered h · ends) accepted).behind behind
    · next noSynonym =>
      rw [if_pos (h.enabled .enumeration)] at accepted
      rw [if_neg noSynonym, if_neg (by simp [h.disabled])]
      split at accepted
      · next keyword =>
        rcases readDeclaration_sound accepted with ⟨name, equal, body, -, -, -, -, symbolsAccepted⟩
        rcases Outcome.map_eq_accepted_iff.mp symbolsAccepted with ⟨symbols, -, same⟩
        rcases left with ⟨read, rfl⟩
        have uses : (Definition.mk t.location d.1 doc d.2).featureUses = [⟨.enumeration, t.location⟩] := by
          rw [Definition.featureUses, ← same]
        rw [uses, if_pos (by rw [keyword]; decide)]
        exact .refused [] read rfl ⟨⟨identifier, keyword⟩, rfl⟩ (by simp)
      · cases accepted

/-- A definition is read in step, its keyword included. -/
theorem readDefinition_lowered (h : Downgrade m m') {doc : Option Text} {d : Definition}
    (accepted : readDefinition m doc tokens = .accepted d rest) (ends : startsWith .dot rest = false) :
    Lowered m'.language (d.downgraded m.moduleName) rest d.featureUses tokens
      (readDefinition m' doc tokens) := by
  cases tokens with
  | nil => cases accepted
  | cons t others =>
    unfold readDefinition at accepted ⊢
    dsimp only at accepted ⊢
    split at accepted
    · next identifier =>
      rw [if_pos identifier]
      rcases Outcome.map_eq_accepted_iff.mp accepted with ⟨⟨name, type⟩, keywordAccepted, rfl⟩
      exact (readKeyword_lowered h identifier keywordAccepted ends doc).map fun d =>
        (⟨t.location, d.1, doc, d.2⟩ : Definition)
    · cases accepted

/-! ## Statements -/

/-- A statement is read in step, its documentation included. -/
theorem readStatement_lowered (h : Downgrade m m') {s : Statement}
    (accepted : readStatement m tokens = .accepted s rest) (ends : startsWith .dot rest = false) :
    Lowered m'.language (s.downgraded m.moduleName) rest s.featureUses tokens (readStatement m' tokens) := by
  have behind := afterDoc_suffix tokens
  unfold readStatement at accepted ⊢
  split at accepted
  · cases accepted
  · next documented =>
    rw [if_neg documented]
    split at accepted
    · next isImport =>
      rw [if_pos isImport]
      have left := readImport_suffix (afterDoc tokens)
      rcases Outcome.map_eq_accepted_iff.mp accepted with ⟨⟨first, others⟩, -, rfl⟩
      exact (Lowered.of_accepted m'.language accepted left).behind behind
    · next isDefinition =>
      rw [if_neg isDefinition]
      rcases Outcome.map_eq_accepted_iff.mp accepted with ⟨d, definitionAccepted, rfl⟩
      exact ((readDefinition_lowered h definitionAccepted ends).map Statement.defines).behind behind

/-- The statements of a body are read in step, up to the first use in any of them. -/
theorem readBody_lowered (h : Downgrade m m') {statements : List Statement}
    (accepted : readBody m tokens = .accepted statements rest) :
    Lowered m'.language (statements.map (Statement.downgraded m.moduleName)) rest
      (statements.flatMap Statement.featureUses) tokens (readBody m' tokens) := by
  fun_induction readBody m tokens generalizing statements with
  | case1 =>
    cases accepted
    rw [readBody]
    exact .kept [] rfl
  | case2 => cases accepted
  | case3 t others s left one ih =>
    rcases Outcome.map_eq_accepted_iff.mp accepted with ⟨more, moreAccepted, rfl⟩
    -- Another statement or the end follows, so the last type of this one is as long at both versions.
    have ends : startsWith .dot left = false :=
      (readBody_sound moreAccepted).startsStatement.startsWith (by decide) (by decide)
    rw [readBody_cons]
    exact (readStatement_lowered h one ends).andThen ((ih moreAccepted).map _) rfl

/-! ## Bodies of texts -/

/-- A construct that a language version lacks is a fault at the token that starts it. -/
theorem Failure.error_unavailable (stop t : Token) (after : List Token) (f : Feature) (language : Version) :
    let mismatch : VersionMismatch := ⟨f.keyword, ⟨1, 1, 0⟩, language⟩
    Failure.error stop ⟨t :: after, .unavailable (.ofFeature f language)⟩ =
      .syntaxFault ⟨.error, t.location, mismatch.message, (max 1 t.text.length).toUInt32⟩ (some mismatch) := by
  cases f <;> rfl

/-- A module body that is read at a language version with every construct is read at a version without any
of them, with every definition downgraded, if all definitions are portable.  Otherwise it is rejected at
the token that starts the first construct, all others being started behind it, with the version mismatch
of this construct. -/
theorem body_downgraded {file text : Text} {m m' : Metadata} {statements : List Statement}
    (newer : (⟨1, 1, 0⟩ : Version) ≤ m.language) (older : m'.language < (⟨1, 1, 0⟩ : Version))
    (sameName : m'.moduleName = m.moduleName)
    (read : ((Session.start (TokenStream.ofText file text)).body m).2 = .ok statements) :
    ((∀ d, Statement.defines d ∈ statements → d.Portable) →
      ((Session.start (TokenStream.ofText file text)).body m').2 =
        .ok (statements.map (Statement.downgraded m.moduleName))) ∧
    (¬ (∀ d, Statement.defines d ∈ statements → d.Portable) →
      ∃ u others before t after, statements.flatMap Statement.featureUses = u :: others ∧
        (TokenStream.ofText file text).tokens = before ++ t :: after ∧ u.StartsAt t ∧
        (∀ v ∈ others, ∃ s ∈ after, v.StartsAt s) ∧
        ∃ mismatch : VersionMismatch, mismatch = ⟨u.feature.keyword, ⟨1, 1, 0⟩, m'.language⟩ ∧
          ((Session.start (TokenStream.ofText file text)).body m').2 = .error (.syntaxFault
            ⟨.error, t.location, mismatch.message, (max 1 t.text.length).toUInt32⟩ (some mismatch))) := by
  have lowered := readBody_lowered ⟨newer, older, sameName⟩ (Session.body_start_ok_iff.mp read)
  rw [← featureUses_eq_nil_iff]
  generalize uses : statements.flatMap Statement.featureUses = us at lowered
  generalize outcome : readBody m' (TokenStream.ofText file text).tokens = o at lowered
  cases lowered with
  | kept all split => exact ⟨fun _ => Session.body_start_ok_iff.mpr outcome, fun used => absurd rfl used⟩
  | @refused u others _ t before after split first later =>
    rw [List.append_nil] at split
    refine ⟨fun unused => absurd unused (List.cons_ne_nil u others), fun _ => ?_⟩
    refine ⟨u, others, before, t, after, rfl, split, first, later, _, rfl, ?_⟩
    rw [Session.body_start_error outcome, List.append_nil, Failure.error_unavailable]

/-- A record of which every field needs the primitive type that older versions lack. -/
def portableSource : Text :=
  "type Key = \x7b id : UUID?, parts : [UUID] \x7d"

/-- A fixed type in front of an enumeration. -/
def refusedSource : Text :=
  "type Key = \x7b id : UUID, hash : \x7bFixed(16)\x7d \x7d\nenum Kind = small | large"

/-- The first body is read at both versions, and the second one is refused at its fixed type. -/
theorem body_downgraded_keys :
    let newer : Metadata := ⟨⟨1, 1, 0⟩, ⟨1, 0, 0⟩, "a"⟩
    let older : Metadata := ⟨⟨1, 0, 0⟩, ⟨1, 0, 0⟩, "a"⟩
    (∃ statements,
      ((Session.start (TokenStream.ofText "a.theta" portableSource)).body newer).2 = .ok statements ∧
        ((Session.start (TokenStream.ofText "a.theta" portableSource)).body older).2 =
          .ok (statements.map (Statement.downgraded "a"))) ∧
    ∃ diagnostic, diagnostic.location = ⟨"a.theta", 1, 33⟩ ∧
      ((Session.start (TokenStream.ofText "a.theta" refusedSource)).body older).2 =
        .error (.syntaxFault diagnostic (some ⟨"Fixed", ⟨1, 1, 0⟩, ⟨1, 0, 0⟩⟩)) := by
  intro newer older
  have readable : ((Session.start (TokenStream.ofText "a.theta" portableSource)).body newer).2.toOption.any
      (fun statements => decide (statements.flatMap Statement.featureUses = [])) = true := by
    decide +kernel
  have refusable : ((Session.start (TokenStream.ofText "a.theta" refusedSource)).body newer).2.toOption.any
      (fun statements => decide (statements.flatMap Statement.featureUses =
        [⟨.fixed, ⟨"a.theta", 1, 33⟩⟩, ⟨.enumeration, ⟨"a.theta", 2, 1⟩⟩])) = true := by
    decide +kernel
  constructor
  · rcases exists_ok_of_any readable with ⟨statements, read, unused⟩
    have downgraded := @body_downgraded _ _ newer older _ (by decide) (by decide) rfl read
    exact ⟨statements, read, downgraded.1 (featureUses_eq_nil_iff.mp (of_decide_eq_true unused))⟩
  · rcases exists_ok_of_any refusable with ⟨statements, read, used⟩
    have uses := of_decide_eq_true used
    have downgraded := @body_downgraded _ _ newer older _ (by decide) (by decide) rfl read
    have refused : ¬ ∀ d, Statement.defines d ∈ statements → d.Portable := by
      rw [← featureUses_eq_nil_iff, uses]
      exact List.cons_ne_nil _ _
    rcases downgraded.2 refused with ⟨u, others, before, t, after, split, -, starts, -, mismatch, rfl, fault⟩
    rw [uses] at split
    cases split
    exact ⟨_, starts.located, fault⟩

end ThetaSchema
