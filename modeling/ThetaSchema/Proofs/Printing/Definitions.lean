import ThetaSchema.Proofs.Documentation.Written
import ThetaSchema.Proofs.Printing.Types
import ThetaSchema.Proofs.Schema.Traversal

/-!
# Written definitions are derivable

The written form of fields, cases and definitions spells what was written.  Fields and cases have two
layouts, one line or lines of their own, and documentation stands in the second one only.

Main definitions:

- `Documentation.Writable`: normal texts without a later line that starts with a carriage return.

Main results:

- `spells_writeField`, `spells_braced`, `spells_writeFieldBlock`: the layouts of fields.
- `spells_writeCases`: the cases of a variant, which are never read as a newtype.
- `Definition.spells`: definitions.
-/

namespace ThetaSchema

variable {file k : Text} {m : Metadata}

/-! ## Documentation -/

/-- A text that survives being written as documentation: it is normal, and where a line of it is written
behind slashes, its front is not taken for white space. -/
structure Documentation.Writable (d : Text) : Prop where
  normal : IsNormal d
  returns : ∀ line ∈ (Text.lines d).drop 1, line.head? ≠ some 13

/-- A word does not open a documentation line. -/
theorem opensDocLine_word {w : Text} (identifier : isIdentifier w = true) (rest : Text) :
    Lexeme.opensDocLine (Lexeme.afterBlanks (w ++ rest)) = false := by
  cases w with
  | nil => cases identifier
  | cons b w =>
    simp only [isIdentifier, Bool.and_eq_true] at identifier
    rcases Byte.isIdentifierStart_only identifier.1 with ⟨blank, slash, -⟩
    have stays : Lexeme.afterBlanks (b :: w ++ rest) = b :: w ++ rest := by
      simp [Lexeme.afterBlanks, blank]
    rw [stays]
    simp [Lexeme.opensDocLine, slash]

/-- Documentation in front of a word spells itself. -/
theorem spells_writeDoc? {indent w rest : Text} {doc : Option Text}
    (blank : indent.all Byte.isHorizontal = true) (writable : ∀ d ∈ doc, Documentation.Writable d)
    {spaces : Text} (blank' : spaces.all Byte.isBlank = true) (identifier : isIdentifier w = true) :
    Spells file (writeDoc? indent doc) (spaces ++ (w ++ rest)) (DerivesDoc · doc) := by
  cases doc with
  | none => exact Spells.nil.imp (by rintro _ rfl; exact .absent)
  | some d =>
    rcases writable d rfl with ⟨normal, returns⟩
    have kept : Documentation.readBack d = d := (Documentation.readBack_eq_iff normal).mpr (.inl returns)
    have follows : Lexeme.opensDocLine (Lexeme.afterBlanks (spaces ++ (w ++ rest))) = false := by
      rw [Lexeme.afterBlanks_append blank']
      exact opensDocLine_word identifier rest
    intro p
    have scanned : Scans file p (writeDoc indent d) (spaces ++ (w ++ rest)) _ :=
      Scans.writeDoc blank normal follows
    rw [kept] at scanned
    exact ⟨_, scanned, .present rfl⟩

/-! ## Fields -/

/-- A field without its documentation. -/
def inlineField (f : RecordField) : Text :=
  f.name ++ " : " ++ f.type.render

theorem fieldItems_eq_map (fields : List RecordField) : fieldItems fields = fields.map inlineField := by
  induction fields with
  | nil => rfl
  | cons f fields ih => rw [fieldItems, ih, List.map_cons, inlineField]

/-- A field spells itself behind whatever documentation it has. -/
theorem spells_field {f : RecordField} (wellFormed : f.WellFormed m) (nameable : m.Nameable)
    (ends : EndsWord k) :
    Spells file (inlineField f) k fun ts => ∀ doc text, DerivesDoc doc text →
      DerivesField m (doc ++ ts) ⟨{}, f.name, text, f.type.unlocated⟩ := by
  have written : inlineField f = f.name ++ ((" " : Text) ++ 58 :: ((" " : Text) ++ f.type.render)) := by
    rw [inlineField, List.append_assoc]
    rfl
  have isColon : IsMark 58 .colon := by decide
  have type : Spells file f.type.render k _ := wellFormed.type.spells_signature nameable ends
  have behind := Spells.behind (s := " ") (by decide)
    (Spells.mark_cons isColon (Spells.behind (s := " ") (by decide) type))
  rw [written]
  refine (Spells.word_append wellFormed.name (EndsWord.cons (by decide) _) behind).imp ?_
  rintro _ ⟨name, _, rfl, kind, text, colon, us, rfl, kind', typed⟩ doc _ documented
  rw [← text]
  exact .intro documented kind kind' typed

/-- A field on lines of its own spells itself with its documentation. -/
theorem spells_writeField {indent : Text} {f : RecordField} (wellFormed : f.WellFormed m)
    (writable : ∀ d ∈ f.doc, Documentation.Writable d) (nameable : m.Nameable)
    (blank : indent.all Byte.isHorizontal = true) (ends : EndsWord k) :
    Spells file (writeField indent f) k (DerivesField m · f.unlocated) := by
  have blank' := isBlank_of_isHorizontal blank
  have written : writeField indent f =
      writeDoc? indent f.doc ++ (indent ++ inlineField f) := by
    simp only [writeField, inlineField, List.append_assoc]
  have field : Spells file (indent ++ inlineField f) k _ :=
    Spells.behind blank' (spells_field wellFormed nameable ends)
  have doc : Spells file (writeDoc? indent f.doc) (indent ++ inlineField f ++ k)
      (DerivesDoc · f.doc) := by
    simp only [inlineField, List.append_assoc]
    exact spells_writeDoc? blank writable blank' wellFormed.name
  rw [written]
  refine (doc.append field).imp ?_
  rintro _ ⟨us, vs, rfl, documented, derived⟩
  exact derived us f.doc documented

/-- Fields between braces spell a block, whatever the layout. -/
theorem spells_block {separator front back : Text} (separates : IsSeparator separator .comma)
    (blank : front.all Byte.isBlank = true) (blank' : back.all Byte.isBlank = true)
    (ends : ∀ k, EndsWord (back ++ 125 :: k)) (write : RecordField → Text) {fields : List RecordField}
    (nonempty : fields ≠ []) (each : ∀ f ∈ fields, ∀ k, EndsWord k →
      Spells file (write f) k (DerivesField m · f.unlocated)) :
    Spells file ([123] ++ (front ++ (Text.join separator (fields.map write) ++ back)) ++ [125]) k
      (DerivesBlock m · (fields.map FieldOf.unlocated)) := by
  have isOpening : IsMark 123 .braceOpen := by decide
  have isClosing : IsMark 125 .braceClose := by decide
  have listed := Spells.join separates write FieldOf.unlocated nonempty each (ends k)
  have inner := Spells.behind blank (Spells.before listed blank')
  refine (Spells.between isOpening isClosing inner).imp ?_
  rintro _ ⟨u, us, v, rfl, opening, inside, closing⟩
  exact .fields opening inside closing

theorem spells_emptyBlock : Spells file ("\x7b\x7d" : Text) k (DerivesBlock m · []) := by
  have isOpening : IsMark 123 .braceOpen := by decide
  have isClosing : IsMark 125 .braceClose := by decide
  refine (Spells.between isOpening isClosing Spells.nil).imp ?_
  rintro _ ⟨u, us, v, rfl, opening, rfl, closing⟩
  exact .empty opening closing

/-- Fields without documentation spell a block on one line. -/
theorem spells_braced {fields : List RecordField} (wellFormed : ∀ f ∈ fields, f.WellFormed m)
    (bare : ∀ f ∈ fields, f.doc = none) (nameable : m.Nameable) :
    Spells file (braced (fieldItems fields)) k (DerivesBlock m · (fields.map FieldOf.unlocated)) := by
  by_cases none : fields = []
  · subst none
    exact spells_emptyBlock
  · have some : fieldItems fields ≠ [] := by
      rw [fieldItems_eq_map]
      simpa using none
    have separates : IsSeparator ", " .comma :=
      ⟨⟨[], 44, [32], by decide, by decide, by decide, by decide⟩, EndsWord.cons (by decide)⟩
    rw [braced, if_neg some, fieldItems_eq_map]
    have written : ("\x7b " ++ Text.join ", " (fields.map inlineField) ++ " \x7d" : Text) =
        ([123] : Text) ++ (" " ++ (Text.join ", " (fields.map inlineField) ++ " ")) ++ ([125] : Text) := by
      simp only [List.append_assoc]
      rfl
    rw [written]
    refine spells_block separates (by decide) (by decide) (fun k => EndsWord.cons (by decide) _) _ none ?_
    intro f mem k ends
    refine (spells_field (wellFormed f mem) nameable ends).imp ?_
    intro ts derived
    have field := derived [] Option.none .absent
    rw [← bare f mem] at field
    exact field

/-- Fields on lines of their own spell a block with their documentation. -/
theorem spells_writeFieldBlock {indent : Text} {fields : List RecordField}
    (wellFormed : ∀ f ∈ fields, f.WellFormed m)
    (writable : ∀ f ∈ fields, ∀ d ∈ f.doc, Documentation.Writable d) (nameable : m.Nameable)
    (blank : indent.all Byte.isHorizontal = true) :
    Spells file (writeFieldBlock indent fields) k (DerivesBlock m · (fields.map FieldOf.unlocated)) := by
  by_cases none : fields = []
  · subst none
    exact spells_emptyBlock
  · have some : ¬ fields.isEmpty = true := by
      rwa [List.isEmpty_iff]
    have separates : IsSeparator ",\n" .comma :=
      ⟨⟨[], 44, [10], by decide, by decide, by decide, by decide⟩, EndsWord.cons (by decide)⟩
    have written : ("\x7b\n" ++ Text.join ",\n" (fields.map (writeField (indent ++ "    "))) ++ "\n" ++
        indent ++ "\x7d" : Text) = ([123] : Text) ++ ("\n" ++ (Text.join ",\n"
          (fields.map (writeField (indent ++ "    "))) ++ ("\n" ++ indent))) ++ ([125] : Text) := by
      simp only [List.append_assoc]
      rfl
    have deeper : (indent ++ "    " : Text).all Byte.isHorizontal = true := by
      rw [List.all_append, blank]
      rfl
    have back : ("\n" ++ indent : Text).all Byte.isBlank = true := by
      rw [List.all_append, isBlank_of_isHorizontal blank]
      rfl
    rw [writeFieldBlock, if_neg some, written]
    refine spells_block separates (by decide) back (fun k => EndsWord.cons (by decide) _) _ none ?_
    intro f mem k ends
    exact spells_writeField (wellFormed f mem) (writable f mem) nameable deeper ends

/-! ## Cases -/

/-- Tokens of a case, which are not a single one where a condition holds. -/
def DerivesWideCase (m : Metadata) (wide : Prop) (ts : List Token) (c : VariantCase) : Prop :=
  DerivesCase m ts c ∧ (wide → ∀ t, ts ≠ [t])

theorem not_single_of_cons {α : Type} {a : α} {as : List α} (h : as ≠ []) : ∀ b, a :: as ≠ [b] := by
  intro b same
  exact h (List.cons.inj same).2

theorem DerivesBlock.ne_nil {tokens : List Token} {fields : List RecordField}
    (h : DerivesBlock m tokens fields) : tokens ≠ [] := by
  cases h <;> simp

/-- A case spells itself behind whatever documentation it has, and with braces it is not a single token. -/
theorem spells_case {braces : Bool} {c : VariantCase} {block : Text} (declared : c.name.DeclaredIn m)
    (bare : braces = false → c.fields = [])
    (inside : Spells file block k (DerivesBlock m · (c.fields.map FieldOf.unlocated))) (ends : EndsWord k) :
    Spells file (c.name.localName ++ Text.onlyIf braces (Byte.space :: block)) k fun ts =>
      ts ≠ [] ∧ (braces = true → ∀ t, ts ≠ [t]) ∧ ∀ doc text, DerivesDoc doc text →
        DerivesCase m (doc ++ ts) ⟨{}, c.name, text, c.fields.map FieldOf.unlocated⟩ := by
  rcases declared with ⟨inModule, identifier, free⟩
  have named : c.name = ⟨m.moduleName, c.name.localName⟩ := by rw [← inModule]
  cases braces with
  | true =>
    have behind := Spells.behind (s := [Byte.space]) (by decide) inside
    refine (Spells.word_append identifier (EndsWord.cons (by decide) _) behind).imp ?_
    rintro _ ⟨name, us, rfl, kind, text, derived⟩
    refine ⟨List.cons_ne_nil _ _, fun _ => not_single_of_cons derived.ne_nil, ?_⟩
    intro doc _ documented
    have whole := DerivesCase.block documented ⟨kind, by rwa [text]⟩ derived
    rw [text, ← named] at whole
    exact whole
  | false =>
    rw [Text.onlyIf, if_neg (by decide), List.append_nil, bare rfl]
    refine (Spells.word identifier ends).imp ?_
    rintro _ ⟨name, rfl, kind, text⟩
    refine ⟨List.cons_ne_nil _ _, (fun wide => by cases wide), ?_⟩
    intro doc _ documented
    have whole := DerivesCase.bare (m := m) documented ⟨kind, by rwa [text]⟩
    rw [text, ← named] at whole
    exact whole

theorem DerivesWideCase.imp {wide wide' : Prop} {tokens : List Token} {c : VariantCase}
    (h : DerivesWideCase m wide tokens c) (implies : wide' → wide) : DerivesWideCase m wide' tokens c :=
  ⟨h.1, fun holds => h.2 (implies holds)⟩

/-- A case without documentation spells itself; standing alone it has braces. -/
theorem spells_writePlainCase {alone : Bool} {c : VariantCase} (wellFormed : c.WellFormed m)
    (bare : c.isDocumented = false) (nameable : m.Nameable) (ends : EndsWord k) :
    Spells file (writePlainCase alone c) k (DerivesWideCase m (alone = true) · c.unlocated) := by
  rw [VariantCase.isDocumented, Bool.or_eq_false_iff, Option.isSome_eq_false_iff, Option.isNone_iff_eq_none,
    List.any_eq_false] at bare
  have noDocs : ∀ f ∈ c.fields, f.doc = none := by
    intro f mem
    simpa using bare.2 f mem
  have noFields : (alone || !c.fields.isEmpty) = false → c.fields = [] := by
    intro none
    rw [Bool.or_eq_false_iff] at none
    simpa using none.2
  have block : Spells file (braced (fieldItems c.fields)) k _ :=
    spells_braced wellFormed.fields noDocs nameable
  rw [writePlainCase]
  refine (spells_case wellFormed.name noFields block ends).imp ?_
  rintro ts ⟨-, wide, derived⟩
  constructor
  · have whole := derived [] none .absent
    rw [CaseOf.unlocated, bare.1]
    exact whole
  · intro isAlone
    apply wide
    rw [isAlone, Bool.true_or]

/-- A case on lines of its own spells itself with its documentation. -/
theorem spells_writeDocumentedCase {onOwnLine : Bool} {c : VariantCase} (wellFormed : c.WellFormed m)
    (writable : ∀ d ∈ c.docs, Documentation.Writable d) (nameable : m.Nameable)
    (ends : EndsWord k) :
    Spells file (writeDocumentedCase c onOwnLine) k
      (DerivesWideCase m (c.isDocumented = true) · c.unlocated) := by
  have blank : (Text.onlyIf onOwnLine "    ").all Byte.isBlank = true := by
    cases onOwnLine <;> decide
  have docs : ∀ d ∈ c.doc, Documentation.Writable d := by
    intro d mem
    exact writable d (List.mem_append_left _ (by simpa using mem))
  have fieldDocs : ∀ f ∈ c.fields, ∀ d ∈ f.doc, Documentation.Writable d := by
    intro f mem d here
    refine writable d (List.mem_append_right _ (List.mem_flatMap_of_mem mem ?_))
    simpa [FieldOf.docs] using here
  have noFields : (!c.fields.isEmpty) = false → c.fields = [] := by simp
  have block : Spells file (writeFieldBlock "    " c.fields) k _ :=
    spells_writeFieldBlock wellFormed.fields fieldDocs nameable (by decide)
  have written : writeDocumentedCase c onOwnLine = writeDoc? "    " c.doc ++ (Text.onlyIf onOwnLine "    " ++
      (c.name.localName ++ Text.onlyIf (!c.fields.isEmpty) (Byte.space :: writeFieldBlock "    " c.fields))) := by
    simp only [writeDocumentedCase, List.append_assoc]
  have case := Spells.behind blank (spells_case wellFormed.name noFields block ends)
  have doc : Spells file (writeDoc? "    " c.doc) (Text.onlyIf onOwnLine "    " ++ (c.name.localName ++
      Text.onlyIf (!c.fields.isEmpty) (Byte.space :: writeFieldBlock "    " c.fields)) ++ k)
      (DerivesDoc · c.doc) := by
    simp only [List.append_assoc]
    exact spells_writeDoc? (by decide) docs blank wellFormed.name.identifier
  rw [written]
  refine (doc.append case).imp ?_
  rintro _ ⟨us, vs, rfl, documented, some, wide, derived⟩
  refine ⟨derived us c.doc documented, fun isDocumented => ?_⟩
  rw [VariantCase.isDocumented] at isDocumented
  generalize c.doc = text at documented isDocumented
  cases documented with
  | present => exact not_single_of_cons some
  | absent =>
    apply wide
    cases none : c.fields with
    | nil => simp [none] at isDocumented
    | cons => rfl

/-- Wide cases are cases, and a list of them is not a single token. -/
theorem DerivesList.ofWide {wide : Prop} {tokens : List Token} {cs : List VariantCase}
    (h : DerivesList .pipe (DerivesWideCase m wide) tokens cs) (alone : cs.length = 1 → wide) :
    DerivesList .pipe (DerivesCase m) tokens cs ∧ ∀ t, tokens ≠ [t] := by
  have cases : DerivesList .pipe (DerivesCase m) tokens cs := by
    clear alone
    induction h with
    | single one => exact .single one.1
    | cons one isMark more ih => exact .cons one.1 isMark ih
  refine ⟨cases, ?_⟩
  cases h with
  | single one => exact one.2 (alone rfl)
  | @cons first rest t a as one isMark more =>
    intro u same
    have some := one.1.ne_nil
    have total := congrArg List.length same
    have positive := List.length_pos_iff.mpr some
    simp only [List.length_append, List.length_cons, List.length_nil] at total
    omega

/-- A case behind the bar in front of it spells the bar and the case. -/
theorem spells_writeFurtherCase {c : VariantCase} (wellFormed : c.WellFormed m)
    (writable : ∀ d ∈ c.docs, Documentation.Writable d) (nameable : m.Nameable)
    (ends : EndsWord k) :
    Spells file (writeFurtherCase c) k fun ts => ∃ u us, ts = u :: us ∧ u.kind = .pipe ∧
      DerivesWideCase m (c.isDocumented = true) us c.unlocated := by
  have isBar : IsMark 124 .pipe := by decide
  have blank : (if c.doc.isSome then ("\n" : Text) else " ").all Byte.isBlank = true := by
    split <;> decide
  have case : Spells file (writeDocumentedCase c c.doc.isSome) k _ :=
    spells_writeDocumentedCase wellFormed writable nameable ends
  have written : writeFurtherCase c = "\n  " ++ (124 :: ((if c.doc.isSome then ("\n" : Text) else " ") ++
      writeDocumentedCase c c.doc.isSome) : Text) := by
    rw [writeFurtherCase, List.append_assoc]
    rfl
  rw [written]
  exact Spells.behind (by decide) (Spells.mark_cons isBar (Spells.behind blank case))

/-- The cases of a variant spell themselves, and not by a single token. -/
theorem spells_writeCases {cases : List VariantCase} (nonempty : cases ≠ [])
    (wellFormed : ∀ c ∈ cases, c.WellFormed m)
    (writable : ∀ c ∈ cases, ∀ d ∈ c.docs, Documentation.Writable d) (nameable : m.Nameable)
    (ends : EndsWord k) :
    Spells file (writeCases cases) k fun ts =>
      DerivesList .pipe (DerivesCase m) ts (cases.map CaseOf.unlocated) ∧ ∀ t, ts ≠ [t] := by
  unfold writeCases
  split
  · next documented =>
    cases cases with
    | nil => exact absurd rfl nonempty
    | cons first others =>
      have lone : (first :: others).length = 1 → first.isDocumented = true := by
        intro alone
        rw [List.length_cons, Nat.add_eq_right, List.length_eq_zero_iff] at alone
        simpa [alone] using documented
      have listed : Spells file (writeDocumentedCase first true ++ others.flatMap writeFurtherCase) k
          (DerivesList .pipe (DerivesWideCase m ((first :: others).length = 1)) ·
            (first.unlocated :: others.map CaseOf.unlocated)) := by
        refine Spells.items writeFurtherCase CaseOf.unlocated others ?_ ?_ ?_ ends
        · intro k ends
          refine (spells_writeDocumentedCase (wellFormed first List.mem_cons_self)
            (writable first List.mem_cons_self) nameable ends).imp fun ts derived => derived.imp lone
        · intro c k
          exact EndsWord.cons (by decide) _
        · intro c mem k ends
          refine (spells_writeFurtherCase (wellFormed c (List.mem_cons_of_mem first mem))
            (writable c (List.mem_cons_of_mem first mem)) nameable ends).imp ?_
          rintro _ ⟨u, us, rfl, isBar, derived⟩
          refine ⟨u, us, rfl, isBar, derived.imp fun alone => ?_⟩
          rw [List.length_cons, Nat.add_eq_right, List.length_eq_zero_iff] at alone
          rw [alone] at mem
          cases mem
      refine (Spells.behind (s := "\n") (by decide) listed).imp ?_
      intro ts derived
      exact derived.ofWide (by simp)
  · next bare =>
    have some : (!cases.isEmpty) = true := by simpa using nonempty
    have undocumented : ∀ c ∈ cases, c.isDocumented = false := by
      intro c mem
      simpa using List.any_eq_false.mp (Bool.eq_false_iff.mpr bare) c mem
    have separates : IsSeparator "\n  | " .pipe :=
      ⟨⟨"\n  ", 124, [32], by decide, by decide, by decide, by decide⟩, EndsWord.cons (by decide)⟩
    have each : ∀ c ∈ cases, ∀ k, EndsWord k → Spells file (writePlainCase (cases.length = 1) c) k
        (DerivesWideCase m (decide (cases.length = 1) = true) · c.unlocated) :=
      fun c mem k ends => spells_writePlainCase (wellFormed c mem) (undocumented c mem) nameable ends
    have listed := Spells.join separates _ CaseOf.unlocated nonempty each ends
    rw [some, Text.onlyIf, if_pos rfl]
    refine (Spells.behind (s := " ") (by decide) listed).imp ?_
    intro ts derived
    refine derived.ofWide ?_
    simp

/-! ## Definitions -/

/-- The symbols of an enumeration spell themselves. -/
theorem spells_writeSymbols {symbols : List Text} (nonempty : symbols ≠ [])
    (identifiers : ∀ s ∈ symbols, isIdentifier s = true) (ends : EndsWord k) :
    Spells file (writeSymbols symbols) k (DerivesList .pipe DerivesSymbol · symbols) := by
  have some : (!symbols.isEmpty) = true := by simpa using nonempty
  have separates : IsSeparator " | " .pipe :=
    ⟨⟨[32], 124, [32], by decide, by decide, by decide, by decide⟩, EndsWord.cons (by decide)⟩
  have listed : Spells file (Text.join " | " (symbols.map id)) k
      (DerivesList .pipe DerivesSymbol · (symbols.map id)) := by
    refine Spells.join separates id id nonempty ?_ ends
    intro s mem k ends
    refine (Spells.word (identifiers s mem) ends).imp ?_
    rintro _ ⟨t, rfl, kind, rfl⟩
    exact .intro kind
  rw [List.map_id] at listed
  rw [writeSymbols, some, Text.onlyIf, if_pos rfl]
  exact Spells.behind (s := " ") (by decide) listed

/-- A keyword, a declared name, an equals sign and what stands behind it. -/
theorem spells_declaration (keyword : Text) {d : Definition} {t : Text} {P : List Token → Prop}
    (isIdentifier : isIdentifier keyword = true) (declared : d.name.DeclaredIn m)
    (body : Spells file t k P) :
    Spells file (keyword ++ " " ++ d.name.localName ++ " =" ++ t) k fun ts =>
      ∃ word name equal us, ts = word :: name :: equal :: us ∧ IsKeyword keyword word ∧
        DeclaresName m name ∧ (⟨m.moduleName, name.text⟩ : QualifiedName) = d.name ∧ equal.kind = .equal ∧ P us := by
  have isEqual : IsMark 61 .equal := by decide
  have written : keyword ++ " " ++ d.name.localName ++ " =" ++ t =
      keyword ++ ((" " : Text) ++ (d.name.localName ++ ((" " : Text) ++ 61 :: t))) := by
    simp only [List.append_assoc]
    rfl
  have equal := Spells.behind (s := " ") (by decide) (Spells.mark_cons isEqual body)
  have name := Spells.word_append declared.identifier (EndsWord.cons (by decide) _) equal
  rw [written]
  refine (Spells.word_append isIdentifier (EndsWord.cons (by decide) _)
    (Spells.behind (s := " ") (by decide) name)).imp ?_
  rintro _ ⟨word, _, rfl, kind, text, name, _, rfl, kind', text', equal, us, rfl, isEqual, property⟩
  refine ⟨word, name, equal, us, rfl, ⟨kind, text⟩, ⟨kind', ?_⟩, ?_, isEqual, property⟩
  · rw [text']
    exact declared.free
  · rw [text', ← declared.inModule]

/-- Behind the keyword `type` goes the body of a record, a variant or a newtype. -/
theorem Definition.spells_type {d : Definition} {t : Text} {e : TypeExpr} (declared : d.name.DeclaredIn m)
    (body : Spells file t k (DerivesTypeBody m d.name · e)) :
    Spells file ("type " ++ d.name.localName ++ " =" ++ t) k (DerivesDefinition m · (d.name, e)) := by
  refine (spells_declaration "type" (by decide) declared body).imp ?_
  rintro _ ⟨word, name, equal, us, rfl, isKeyword, declares, same, isEqual, derived⟩
  rw [← same] at derived ⊢
  exact .type isKeyword declares isEqual derived

/-- Behind the keyword `alias` goes a signature. -/
theorem Definition.spells_synonym {d : Definition} {e : TypeExpr} (declared : d.name.DeclaredIn m)
    (fits : e.Fits m .signature) (nameable : m.Nameable) (ends : EndsWord k) :
    Spells file ("alias " ++ d.name.localName ++ " = " ++ e.render) k
      (DerivesDefinition m · (d.name, e.unlocated)) := by
  have written : ("alias " ++ d.name.localName ++ " = " ++ e.render : Text) =
      "alias" ++ " " ++ d.name.localName ++ " =" ++ ((" " : Text) ++ e.render) := by
    simp only [List.append_assoc]
    rfl
  have type : Spells file ((" " : Text) ++ e.render) k _ :=
    Spells.behind (by decide) (fits.spells_signature nameable ends)
  rw [written]
  refine (spells_declaration "alias" (by decide) declared type).imp ?_
  rintro _ ⟨word, name, equal, us, rfl, isKeyword, declares, same, isEqual, derived⟩
  rw [← same]
  exact .synonym isKeyword declares isEqual derived

/-- What a definition says behind its documentation spells the definition. -/
theorem Definition.spells_body {d : Definition} (wellFormed : d.WellFormed m)
    (writable : ∀ t ∈ d.type.docs, Documentation.Writable t) (nameable : m.Nameable)
    (ends : EndsWord k) :
    Spells file d.body k (DerivesDefinition m · (d.name, d.type.unlocated)) := by
  rcases wellFormed with ⟨declared, -, type⟩
  -- A space stands between the equals sign and what is not a variant.
  have spaced : ∀ t : Text, ("type " ++ d.name.localName ++ " = " ++ t : Text) =
      "type " ++ d.name.localName ++ " =" ++ ((" " : Text) ++ t) := by
    intro t
    simp only [List.append_assoc]
    rfl
  rw [Definition.body]
  cases kind : d.type with
  | record location name fields =>
    rw [kind] at type writable
    rcases type with ⟨same, fieldsWellFormed⟩
    have docs : ∀ f ∈ fields, ∀ t ∈ f.doc, Documentation.Writable t := by
      intro f mem t here
      refine writable t (List.mem_flatMap_of_mem mem ?_)
      simpa [FieldOf.docs] using here
    have block : Spells file (writeFieldBlock [] fields) k _ :=
      spells_writeFieldBlock fieldsWellFormed docs nameable (by decide)
    have body := Spells.behind (s := " ") (by decide) block
    dsimp only
    rw [spaced, same, TypeExpr.unlocated, unlocatedFields_eq_map]
    exact Definition.spells_type declared (body.imp fun ts derived => .record derived)
  | variant location name cases =>
    rw [kind] at type writable
    rcases type with ⟨same, nonempty, casesWellFormed⟩
    have docs : ∀ c ∈ cases, ∀ t ∈ c.docs, Documentation.Writable t := by
      intro c mem t here
      exact writable t (List.mem_flatMap_of_mem mem here)
    have body : Spells file (writeCases cases) k _ :=
      spells_writeCases nonempty casesWellFormed docs nameable ends
    rw [same, TypeExpr.unlocated, unlocatedCases_eq_map]
    exact Definition.spells_type declared (body.imp fun ts derived => .variant derived.1 derived.2)
  | enumeration location name symbols =>
    rw [kind] at type
    rcases type with ⟨same, nonempty, identifiers, enabled⟩
    have body : Spells file (writeSymbols symbols) k _ := spells_writeSymbols nonempty identifiers ends
    rw [same, TypeExpr.unlocated]
    refine (spells_declaration Feature.enumeration.keyword (by decide) declared body).imp ?_
    rintro _ ⟨word, n, equal, us, rfl, isKeyword, declares, same', isEqual, derived⟩
    rw [← same']
    exact .enumeration (of_decide_eq_true enabled) isKeyword declares isEqual derived
  | newtype location name underlying =>
    rw [kind] at type
    rcases type with ⟨same, fits⟩
    have body : Spells file ((" " : Text) ++ underlying.render) k _ :=
      Spells.behind (by decide) (fits.spells_signature nameable ends)
    dsimp only
    rw [spaced, same, TypeExpr.unlocated]
    exact Definition.spells_type declared (body.imp fun ts derived => .newtype derived)
  | absent | primitive | fixed | array | map | optional | reference =>
    rw [kind] at type
    exact Definition.spells_synonym declared type nameable ends

/-- A definition starts with a keyword. -/
theorem Definition.body_front (d : Definition) :
    ∃ w rest, isIdentifier w = true ∧ d.body = w ++ rest := by
  rw [Definition.body]
  cases d.type with
  | record | variant | newtype => exact ⟨"type", _, by decide, by simp only [List.append_assoc]; rfl⟩
  | enumeration => exact ⟨Feature.enumeration.keyword, _, by decide, by simp only [List.append_assoc]; rfl⟩
  | absent | primitive | fixed | array | map | optional | reference =>
    exact ⟨"alias", _, by decide, by simp only [List.append_assoc]; rfl⟩

/-- The source text of a definition spells it. -/
theorem Definition.spells {d : Definition} (wellFormed : d.WellFormed m)
    (writable : ∀ t ∈ d.docs, Documentation.Writable t) (nameable : m.Nameable) :
    Spells file d.render k (DerivesStatement m · (.defines d.unlocated)) := by
  have docs : ∀ t ∈ d.doc, Documentation.Writable t := by
    intro t mem
    exact writable t (List.mem_append_left _ (by simpa using mem))
  have inside : ∀ t ∈ d.type.docs, Documentation.Writable t := by
    intro t mem
    exact writable t (List.mem_append_right _ mem)
  have body : Spells file (d.body ++ ("\n" : Text)) k _ :=
    Spells.before (Definition.spells_body wellFormed inside nameable (EndsWord.cons (by decide) _)) (by decide)
  have doc : Spells file (writeDoc? [] d.doc) (d.body ++ "\n" ++ k) (DerivesDoc · d.doc) := by
    rcases d.body_front with ⟨w, rest, identifier, front⟩
    have spelled : Spells file (writeDoc? [] d.doc) ([] ++ (w ++ (rest ++ ("\n" ++ k) : Text))) _ :=
      spells_writeDoc? (by decide) docs (by decide) identifier
    simpa only [front, List.append_assoc, List.nil_append] using spelled
  rw [Definition.render, List.append_assoc]
  refine (doc.append body).imp ?_
  rintro _ ⟨us, vs, rfl, documented, derived⟩
  exact .defines documented derived

end ThetaSchema
