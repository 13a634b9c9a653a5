import ThetaSchema.Proofs.Grammar.Parsed
import ThetaSchema.Proofs.Grammar.Sequences
import ThetaSchema.Proofs.Printing.Types
import ThetaSchema.Proofs.Token.Spelling

/-!
# Locations of what is read

Every node of a module keeps the location of a token, and at that location the text spells the node: its
keyword, its mark, its name or its documentation.  Each reader takes tokens that stand in the text and
ensures this for what it accepts, and leaves tokens that stand in the text.

Main definitions:

- `TypeExpr.SpeltIn`, `Definition.SpeltIn`, `Statement.SpeltIn`: nodes that are spelt at their locations.
- `Outcome.Ensures`: what holds of an accepted value, with what holds of the tokens that are left.

Main results:

- `Outcome.Ensures.andThen`: readers that follow one another.
- `readPathTail_ensures`: a path stands in one piece where its first identifier does.
- `readBody_ensures`: statements are spelt at their locations.
- `SchemaModule.speltIn_of_parse`: so is every module that was read.
-/

namespace ThetaSchema

/-! ## Nodes and their spelling -/

/-- A case begins at a location with its documentation, or with its name if it has none. -/
def CaseOf.StartsAt (file source : Text) (l : Location) (c : VariantCase) : Prop :=
  (∃ d, c.doc = some d ∧ l.HasDoc file source d) ∨ (c.doc = none ∧ l = c.location)

/-- A type of a module, each node of which is spelt at its location.  Optional types and newtypes have the
location of what they wrap, enumerations that of their first symbol, and variants that of their first case. -/
inductive TypeExpr.SpeltIn (file source moduleName : Text) : TypeExpr → Prop where
  | primitive {l : Location} {kind : Primitive} (word : l.HasWord file source kind.keyword) :
      SpeltIn file source moduleName (.primitive l kind)
  | fixed {l : Location} {size : UInt64} (word : l.HasWord file source "Fixed") :
      SpeltIn file source moduleName (.fixed l size)
  | array {l : Location} {e : TypeExpr} (mark : l.HasMark file source "[")
      (element : SpeltIn file source moduleName e) : SpeltIn file source moduleName (.array l e)
  | map {l : Location} {e : TypeExpr} (mark : l.HasMark file source "\x7b")
      (value : SpeltIn file source moduleName e) : SpeltIn file source moduleName (.map l e)
  | optional {e : TypeExpr} (element : SpeltIn file source moduleName e) :
      SpeltIn file source moduleName (.optional e.location e)
  | reference {l : Location} {first : Text} {others : List Text}
      (path : l.HasWord file source (dotted (first :: others))) :
      SpeltIn file source moduleName (.reference l (.ofPath moduleName first others))
  | record {l : Location} {n : QualifiedName} {fields : List RecordField}
      (mark : l.HasMark file source "\x7b") (names : ∀ f ∈ fields, f.location.HasWord file source f.name)
      (types : ∀ f ∈ fields, SpeltIn file source moduleName f.type) :
      SpeltIn file source moduleName (.record l n fields)
  | variant {l : Location} {n : QualifiedName} {first : VariantCase} {more : List VariantCase}
      (start : first.StartsAt file source l)
      (names : ∀ c ∈ first :: more, c.location.HasWord file source c.name.localName)
      (fields : ∀ c ∈ first :: more, ∀ f ∈ c.fields, f.location.HasWord file source f.name)
      (types : ∀ c ∈ first :: more, ∀ f ∈ c.fields, SpeltIn file source moduleName f.type) :
      SpeltIn file source moduleName (.variant l n (first :: more))
  | enumeration {l : Location} {n : QualifiedName} {first : Text} {more : List Text}
      (word : l.HasWord file source first) :
      SpeltIn file source moduleName (.enumeration l n (first :: more))
  | newtype {n : QualifiedName} {e : TypeExpr} (underlying : SpeltIn file source moduleName e) :
      SpeltIn file source moduleName (.newtype e.location n e)

/-- A field whose name is at its location. -/
structure FieldOf.SpeltIn (file source moduleName : Text) (f : RecordField) : Prop where
  name : f.location.HasWord file source f.name
  type : f.type.SpeltIn file source moduleName

/-- A case whose name is at its location. -/
structure CaseOf.SpeltIn (file source moduleName : Text) (c : VariantCase) : Prop where
  name : c.location.HasWord file source c.name.localName
  fields : ∀ f ∈ c.fields, f.SpeltIn file source moduleName

/-- The keyword of the definitions that have types of some form. -/
def TypeExpr.introducer : TypeExpr → Text
  | record _ _ _ | variant _ _ _ | newtype _ _ _ => "type"
  | enumeration _ _ _ => "enum"
  | absent | primitive _ _ | fixed _ _ | array _ _ | map _ _ | optional _ _ | reference _ _ => "alias"

/-- A definition whose keyword is at its location. -/
structure Definition.SpeltIn (file source moduleName : Text) (d : Definition) : Prop where
  keyword : d.location.HasWord file source d.type.introducer
  type : d.type.SpeltIn file source moduleName

/-- A statement whose keyword is at its location. -/
def Statement.SpeltIn (file source moduleName : Text) : Statement → Prop
  | imports l _ => l.HasWord file source "import"
  | defines d => d.SpeltIn file source moduleName

/-! ## Readers that ensure something -/

variable {α β : Type} {P : Token → Prop} {tokens : List Token}

/-- An accepted value has the property `Q`, and the tokens that are left have the property `P`. -/
def Outcome.Ensures (P : Token → Prop) (Q : α → Prop) : Outcome α → Prop
  | accepted a rest => Q a ∧ ∀ t ∈ rest, P t
  | rejected _ _ => True

namespace Outcome.Ensures

variable {Q : α → Prop} {R : β → Prop} {o : Outcome α}

/-- Readers that follow one another. -/
theorem andThen {next : α → List Token → Outcome β} (first : o.Ensures P Q)
    (second : ∀ a rest, Q a → (∀ t ∈ rest, P t) → (next a rest).Ensures P R) :
    (o.andThen next).Ensures P R := by
  cases o with
  | accepted a rest => exact second a rest first.1 first.2
  | rejected f rest => trivial

theorem map {g : α → β} (h : o.Ensures P Q) (each : ∀ a, Q a → R (g a)) : (o.map g).Ensures P R :=
  h.andThen fun a _ holds left => ⟨each a holds, left⟩

theorem mono {Q' : α → Prop} (h : o.Ensures P Q) (weaker : ∀ a, Q a → Q' a) : o.Ensures P Q' := by
  cases o with
  | accepted a rest => exact ⟨weaker a h.1, h.2⟩
  | rejected f rest => trivial

end Outcome.Ensures

/-- An expected token is one of those read, and the one at whose location the tokens start. -/
theorem expect_ensures (h : ∀ t ∈ tokens, P t) (kind : TokenKind) (expected : Expectation) :
    (expect kind expected tokens).Ensures P fun t => P t ∧ t.kind = kind ∧ t.location = locationOf tokens := by
  unfold expect
  split
  · trivial
  · next t rest =>
    obtain ⟨first, others⟩ := List.forall_mem_cons.mp h
    split
    · next isKind => exact ⟨⟨first, isKind, rfl⟩, others⟩
    · trivial

theorem forall_tail (h : ∀ t ∈ tokens, P t) : ∀ t ∈ tokens.tail, P t :=
  fun t mem => h t (List.mem_of_mem_tail mem)

theorem forall_afterDoc (h : ∀ t ∈ tokens, P t) : ∀ t ∈ afterDoc tokens, P t :=
  fun t mem => h t ((afterDoc_suffix tokens).subset mem)

/-- A token of a kind is in front where tokens start with the kind. -/
theorem exists_head_of_startsWith {kind : TokenKind} (starts : startsWith kind tokens = true)
    (h : ∀ t ∈ tokens, P t) : ∃ t, tokens.head? = some t ∧ t.kind = kind ∧ P t := by
  cases tokens with
  | nil => cases starts
  | cons t rest => exact ⟨t, rfl, of_decide_eq_true starts, h t List.mem_cons_self⟩

section Readers

variable {file source : Text} {m : Metadata}

theorem locationOf_eq {t : Token} (first : tokens.head? = some t) : locationOf tokens = t.location := by
  rw [locationOf, first]
  rfl

/-! ## Marks -/

/-- An opening bracket stands at the location of its token. -/
theorem Token.StandsIn.hasMark_bracketOpen {t : Token} (stands : t.StandsIn file source)
    (isBracket : t.kind = .bracketOpen) : t.location.HasMark file source "[" :=
  stands.hasMark (b := 91) (Byte.forall_of_forall_fin (by decide +kernel)) isBracket

/-- An opening brace stands at the location of its token. -/
theorem Token.StandsIn.hasMark_braceOpen {t : Token} (stands : t.StandsIn file source)
    (isBrace : t.kind = .braceOpen) : t.location.HasMark file source "\x7b" :=
  stands.hasMark (b := 123) (Byte.forall_of_forall_fin (by decide +kernel)) isBrace

/-! ## Paths -/

/-- A path that stands behind an identifier and a dot that touch goes on from the identifier. -/
theorem Span.PlacedIn.path_append (short : source.length < UInt32.size) {s d u : Span}
    (placed : s.PlacedIn file source) (placedDot : d.PlacedIn file source) (placedNext : u.PlacedIn file source)
    (identifier : s.token.kind = .identifier) (isDot : d.token.kind = .dot)
    (touches : s.token.adjacentTo d.token = true) (touches' : d.token.adjacentTo u.token = true)
    {others : List Text} {after : Text} (stands : u.before ++ dotted (u.token.text :: others) ++ after = source) :
    s.before ++ dotted (s.token.text :: u.token.text :: others) ++ after = source := by
  have own := (placed.extent_eq_of_identifier identifier).1
  have mark := placedDot.extent_eq_of_punctuation (b := Byte.dot)
    (Byte.forall_of_forall_fin (by decide +kernel)) isDot
  have behind := placed.before_eq short placedDot touches own
  have behind' := placedDot.before_eq short placedNext touches' (mark.1.trans mark.2.symm)
  rw [behind', behind, own, mark.1] at stands
  rw [dotted_cons _ (List.cons_ne_nil _ _), ← stands]
  simp

/-- The part of a path behind an identifier goes on, without a gap, where the identifier stands. -/
theorem readPathTail_stands (short : source.length < UInt32.size) {s : Span} (placed : s.PlacedIn file source)
    (identifier : s.token.kind = .identifier) (stand : ∀ t ∈ tokens, t.StandsIn file source) :
    (readPathTail s.token tokens).Ensures (Token.StandsIn file source) fun others =>
      ∃ after, s.before ++ dotted (s.token.text :: others) ++ after = source ∧ EndsWord after := by
  have alone : ∃ after, s.before ++ dotted [s.token.text] ++ after = source ∧ EndsWord after := by
    obtain ⟨own, ends⟩ := placed.extent_eq_of_identifier identifier
    refine ⟨s.after, ?_, ends⟩
    rw [dotted_singleton, ← own]
    exact placed.whole
  generalize same : s.token = last
  fun_induction readPathTail last tokens generalizing s with
  | case1 => exact ⟨same ▸ alone, stand⟩
  | case2 => trivial
  | case3 last dot touches next others touches' ih =>
    obtain ⟨standsDot, behind⟩ := List.forall_mem_cons.mp stand
    obtain ⟨standsNext, left⟩ := List.forall_mem_cons.mp behind
    obtain ⟨d, placedDot, rfl⟩ := standsDot
    obtain ⟨u, placedNext, rfl⟩ := standsNext
    subst same
    have inner := placedNext.extent_eq_of_identifier touches'.1
    refine (ih placedNext touches'.1 left ?_ rfl).map ?_
    · refine ⟨u.after, ?_, inner.2⟩
      rw [dotted_singleton, ← inner.1]
      exact placedNext.whole
    · rintro more ⟨after, stands, ends⟩
      exact ⟨after, placed.path_append short placedDot placedNext identifier touches.1 touches.2 touches'.2 stands,
        ends⟩
  | case4 => trivial
  | case5 => exact ⟨same ▸ alone, stand⟩

/-- A path is read where the whole of it stands. -/
theorem readPathTail_ensures (short : source.length < UInt32.size) {first : Token}
    (stands : first.StandsIn file source) (identifier : first.kind = .identifier)
    (stand : ∀ t ∈ tokens, t.StandsIn file source) :
    (readPathTail first tokens).Ensures (Token.StandsIn file source) fun others =>
      first.location.HasWord file source (dotted (first.text :: others)) := by
  obtain ⟨s, placed, rfl⟩ := stands
  refine (readPathTail_stands short placed identifier stand).mono ?_
  rintro others ⟨after, whole, ends⟩
  exact ⟨after, placed.behind.holds whole, ends⟩

/-! ## Type expressions -/

/-- A type that a keyword introduces, with each of its nodes spelt at its location. -/
structure TypeExpr.IntroducedBy (file source moduleName keyword : Text) (e : TypeExpr) : Prop where
  spelt : e.SpeltIn file source moduleName
  introducer : e.introducer = keyword

/-- The keyword of a fixed type stands at the location of the type. -/
theorem readSize_ensures {l : Location} (word : l.HasWord file source "Fixed")
    (stand : ∀ t ∈ tokens, t.StandsIn file source) :
    (readSize l tokens).Ensures (Token.StandsIn file source)
      (TypeExpr.IntroducedBy file source m.moduleName "alias") := by
  refine (expect_ensures stand _ _).andThen fun size rest _ left => ?_
  split
  · trivial
  · exact (expect_ensures left _ _).map fun _ _ => ⟨.fixed word, rfl⟩

/-- An identifier stands at the location of the type that it starts, and so does the whole path of a reference.
-/
theorem readNamed_ensures (short : source.length < UInt32.size) {t : Token} (stands : t.StandsIn file source)
    (identifier : t.kind = .identifier) (stand : ∀ t ∈ tokens, t.StandsIn file source) :
    (readNamed m t tokens).Ensures (Token.StandsIn file source)
      (TypeExpr.IntroducedBy file source m.moduleName "alias") := by
  have word := stands.hasWord identifier
  have reference : (readReference m t tokens).Ensures (Token.StandsIn file source)
      (TypeExpr.IntroducedBy file source m.moduleName "alias") :=
    (readPathTail_ensures short stands identifier stand).map fun others path => ⟨.reference path, rfl⟩
  unfold readNamed
  split
  · next isFixed =>
    rw [isFixed] at word
    split
    · split
      · exact readSize_ensures word (forall_tail stand)
      · trivial
    · split
      · trivial
      · exact reference
  · split
    · next kind keyword =>
      rw [← (Primitive.ofKeyword?_eq_some_iff.mp keyword).2] at word
      exact ⟨⟨.primitive word, rfl⟩, stand⟩
    · exact reference

/-- A type with a question mark behind it keeps its location and its spelling. -/
theorem readOptionalMark_ensures {e : TypeExpr} (h : e.IntroducedBy file source m.moduleName "alias")
    (stand : ∀ t ∈ tokens, t.StandsIn file source) :
    (readOptionalMark e tokens).Ensures (Token.StandsIn file source)
      (TypeExpr.IntroducedBy file source m.moduleName "alias") := by
  unfold readOptionalMark
  split
  · exact ⟨h, stand⟩
  · split
    · exact ⟨⟨.optional h.spelt, rfl⟩, (List.forall_mem_cons.mp stand).2⟩
    · exact ⟨h, stand⟩

/-- Each form of an atom starts at the location of its first token, and the types inside of it at theirs. -/
theorem readAtom_ensures (short : source.length < UInt32.size)
    (stand : ∀ t ∈ tokens, t.StandsIn file source) :
    (readAtom m tokens).Ensures (Token.StandsIn file source)
      (TypeExpr.IntroducedBy file source m.moduleName "alias") := by
  induction tokens with
  | nil => trivial
  | cons t rest ih =>
    obtain ⟨stands, left⟩ := List.forall_mem_cons.mp stand
    have inner := (ih left).andThen fun e _ => readOptionalMark_ensures (m := m)
    unfold readAtom
    split
    · next isBracket =>
      refine inner.andThen fun e _ element behind => (expect_ensures behind _ _).map fun _ _ => ?_
      exact ⟨.array (stands.hasMark_bracketOpen isBracket) element.spelt, rfl⟩
    · next isBrace =>
      refine inner.andThen fun e _ value behind => (expect_ensures behind _ _).map fun _ _ => ?_
      exact ⟨.map (stands.hasMark_braceOpen isBrace) value.spelt, rfl⟩
    · next identifier => exact readNamed_ensures short stands identifier left
    · trivial

/-- A type is spelt at its location, and so is every type inside of it. -/
theorem readType_ensures (short : source.length < UInt32.size)
    (stand : ∀ t ∈ tokens, t.StandsIn file source) :
    (readType m tokens).Ensures (Token.StandsIn file source)
      (TypeExpr.IntroducedBy file source m.moduleName "alias") :=
  (readAtom_ensures short stand).andThen fun _ _ => readOptionalMark_ensures

/-! ## Fields and cases -/

/-- The name of a field stands at the location of the field, behind the documentation. -/
theorem readField_ensures (short : source.length < UInt32.size)
    (stand : ∀ t ∈ tokens, t.StandsIn file source) :
    (readField m tokens).Ensures (Token.StandsIn file source)
      (FieldOf.SpeltIn file source m.moduleName) := by
  unfold readField
  split
  · trivial
  · refine (expect_ensures (forall_afterDoc stand) _ _).andThen fun name rest named left => ?_
    refine (expect_ensures left _ _).andThen fun _ rest _ left => ?_
    exact (readType_ensures short left).map fun e typed => ⟨named.1.hasWord named.2.1, typed.spelt⟩

/-- Every field of a block is spelt at its location. -/
theorem readFields_ensures (short : source.length < UInt32.size)
    (stand : ∀ t ∈ tokens, t.StandsIn file source) :
    (readFields m tokens).Ensures (Token.StandsIn file source) fun fields =>
      ∀ f ∈ fields, f.SpeltIn file source m.moduleName := by
  have one := fun (tokens : List Token) (stand : ∀ t ∈ tokens, t.StandsIn file source) =>
    readField_ensures (m := m) short stand
  fun_induction readFields m tokens with
  | case1 => trivial
  | case2 => trivial
  | case3 tokens field t rest h _ ih =>
    have first := one tokens stand
    rw [h] at first
    exact (ih (List.forall_mem_cons.mp first.2).2).map fun fields all =>
      List.forall_mem_cons.mpr ⟨first.1, all⟩
  | case4 tokens field t rest h =>
    have first := one tokens stand
    rw [h] at first
    exact ⟨List.forall_mem_singleton.mpr first.1, (List.forall_mem_cons.mp first.2).2⟩
  | case5 => trivial

/-- A block of fields leaves nothing unspelt. -/
theorem readFieldBlock_ensures (short : source.length < UInt32.size)
    (stand : ∀ t ∈ tokens, t.StandsIn file source) :
    (readFieldBlock m tokens).Ensures (Token.StandsIn file source) fun fields =>
      ∀ f ∈ fields, f.SpeltIn file source m.moduleName := by
  unfold readFieldBlock
  split
  · exact ⟨by simp, forall_tail stand⟩
  · exact readFields_ensures short stand

/-- A declared name stands where the tokens start. -/
theorem readDeclaredName_ensures (what : Declared) (stand : ∀ t ∈ tokens, t.StandsIn file source) :
    (readDeclaredName m what tokens).Ensures (Token.StandsIn file source) fun n =>
      (locationOf tokens).HasWord file source n.localName := by
  refine (expect_ensures stand _ _).andThen fun t rest named left => ?_
  split
  · trivial
  · refine ⟨?_, left⟩
    rw [← named.2.2]
    exact named.1.hasWord named.2.1

/-- Where documentation is in front, it begins at the location of the tokens. -/
theorem startsAt_locationOf (stand : ∀ t ∈ tokens, t.StandsIn file source) (name : QualifiedName)
    (fields : List RecordField) :
    CaseOf.StartsAt file source (locationOf tokens)
      ⟨locationOf (afterDoc tokens), name, docOf tokens, fields⟩ := by
  by_cases starts : startsWith .documentation tokens = true
  · left
    obtain ⟨t, first, documentation, stands⟩ := exists_head_of_startsWith starts stand
    refine ⟨t.text, ?_, ?_⟩
    · change docOf tokens = some t.text
      rw [docOf, first, Option.bind_some, if_pos documentation]
    · rw [locationOf_eq first]
      exact stands.hasDoc documentation
  · right
    constructor
    · change docOf tokens = none
      cases tokens with
      | nil => rfl
      | cons t rest => exact if_neg fun documentation => starts (decide_eq_true documentation)
    · change locationOf tokens = locationOf (afterDoc tokens)
      rw [afterDoc, if_neg starts]

/-- A case starts where its documentation does, or its name if there is none. -/
theorem readCase_ensures (short : source.length < UInt32.size)
    (stand : ∀ t ∈ tokens, t.StandsIn file source) :
    (readCase m tokens).Ensures (Token.StandsIn file source) fun c =>
      c.StartsAt file source (locationOf tokens) ∧ c.SpeltIn file source m.moduleName := by
  unfold readCase
  split
  · trivial
  · refine (readDeclaredName_ensures _ (forall_afterDoc stand)).andThen fun name rest named left => ?_
    split
    · refine (readFieldBlock_ensures short (forall_tail left)).map fun fields spelt => ?_
      exact ⟨startsAt_locationOf stand name fields, named, spelt⟩
    · exact ⟨⟨startsAt_locationOf stand name [], named, by simp⟩, left⟩

/-- Cases are spelt at their locations, and the first of them begins where the tokens do. -/
theorem readCases_ensures (short : source.length < UInt32.size)
    (stand : ∀ t ∈ tokens, t.StandsIn file source) :
    (readCases m tokens).Ensures (Token.StandsIn file source) fun cases =>
      (∃ first more, cases = first :: more ∧ first.StartsAt file source (locationOf tokens)) ∧
        ∀ c ∈ cases, c.SpeltIn file source m.moduleName := by
  have one := fun (tokens : List Token) (stand : ∀ t ∈ tokens, t.StandsIn file source) =>
    readCase_ensures (m := m) short stand
  fun_induction readCases m tokens with
  | case1 => trivial
  | case2 tokens c h =>
    have first := one tokens stand
    rw [h] at first
    exact ⟨⟨⟨c, [], rfl, first.1.1⟩, List.forall_mem_singleton.mpr first.1.2⟩, first.2⟩
  | case3 tokens c t rest h _ ih =>
    have first := one tokens stand
    rw [h] at first
    refine (ih (List.forall_mem_cons.mp first.2).2).map fun cases others => ?_
    exact ⟨⟨c, cases, rfl, first.1.1⟩, List.forall_mem_cons.mpr ⟨first.1.2, others.2⟩⟩
  | case4 tokens c t rest h =>
    have first := one tokens stand
    rw [h] at first
    exact ⟨⟨⟨c, [], rfl, first.1.1⟩, List.forall_mem_singleton.mpr first.1.2⟩, first.2⟩

/-- The first symbol stands where the tokens do. -/
theorem readSymbols_ensures (stand : ∀ t ∈ tokens, t.StandsIn file source) :
    (readSymbols tokens).Ensures (Token.StandsIn file source) fun symbols =>
      ∃ first more, symbols = first :: more ∧ (locationOf tokens).HasWord file source first := by
  fun_induction readSymbols tokens with
  | case1 => trivial
  | case2 t identifier =>
    have word := (stand t List.mem_cons_self).hasWord identifier
    exact ⟨⟨t.text, [], rfl, word⟩, by simp⟩
  | case3 t identifier bar others _ ih =>
    have word := (stand t List.mem_cons_self).hasWord identifier
    have left := forall_tail (forall_tail stand)
    exact (ih left).map fun symbols _ => ⟨t.text, symbols, rfl, word⟩
  | case4 t identifier bar others =>
    have word := (stand t List.mem_cons_self).hasWord identifier
    exact ⟨⟨t.text, [], rfl, word⟩, forall_tail stand⟩
  | case5 => trivial

/-! ## Definitions -/

/-- Each of the three forms of the body of a type is spelt at the location that it gets. -/
theorem readTypeBody_ensures (short : source.length < UInt32.size) (name : QualifiedName)
    (stand : ∀ t ∈ tokens, t.StandsIn file source) :
    (readTypeBody m name tokens).Ensures (Token.StandsIn file source)
      (TypeExpr.IntroducedBy file source m.moduleName "type") := by
  unfold readTypeBody
  split
  · next opens =>
    rw [opensRecord, Bool.and_eq_true] at opens
    obtain ⟨t, first, isBrace, stands⟩ := exists_head_of_startsWith opens.1 stand
    refine (readFieldBlock_ensures short (forall_tail stand)).map fun fields spelt => ⟨.record ?_ ?_ ?_, rfl⟩
    · rw [locationOf_eq first]
      exact stands.hasMark_braceOpen isBrace
    · exact fun f mem => (spelt f mem).name
    · exact fun f mem => (spelt f mem).type
  · split
    · refine (readCases_ensures short stand).map ?_
      rintro cases ⟨⟨first, more, rfl, start⟩, spelt⟩
      refine ⟨.variant start ?_ ?_ ?_, rfl⟩
      · exact fun c mem => (spelt c mem).name
      · exact fun c mem f inside => ((spelt c mem).fields f inside).name
      · exact fun c mem f inside => ((spelt c mem).fields f inside).type
    · exact (readType_ensures short stand).map fun e typed => ⟨.newtype typed.spelt, rfl⟩

/-- An enumeration has the location of its first symbol. -/
theorem readEnumBody_ensures (name : QualifiedName) (stand : ∀ t ∈ tokens, t.StandsIn file source) :
    (readEnumBody name tokens).Ensures (Token.StandsIn file source)
      (TypeExpr.IntroducedBy file source m.moduleName "enum") := by
  refine (readSymbols_ensures stand).map ?_
  rintro symbols ⟨first, more, rfl, word⟩
  exact ⟨.enumeration word, rfl⟩

/-- A declaration ensures what its body does. -/
theorem readDeclaration_ensures {what : Declared} {body : QualifiedName → List Token → Outcome TypeExpr}
    {Q : TypeExpr → Prop} (stand : ∀ t ∈ tokens, t.StandsIn file source)
    (h : ∀ name rest, (∀ t ∈ rest, t.StandsIn file source) →
      (body name rest).Ensures (Token.StandsIn file source) Q) :
    (readDeclaration m what body tokens).Ensures (Token.StandsIn file source) fun d => Q d.2 := by
  refine (readDeclaredName_ensures what stand).andThen fun name rest _ left => ?_
  refine (expect_ensures left _ _).andThen fun _ rest _ left => ?_
  exact (h name rest left).map fun _ holds => holds

/-- A declaration is of the form that its keyword introduces. -/
theorem readKeyword_ensures (short : source.length < UInt32.size) (t : Token)
    (stand : ∀ t ∈ tokens, t.StandsIn file source) :
    (readKeyword m t tokens).Ensures (Token.StandsIn file source) fun d =>
      d.2.IntroducedBy file source m.moduleName t.text := by
  unfold readKeyword
  split
  · next keyword =>
    rw [keyword]
    exact readDeclaration_ensures stand fun name rest => readTypeBody_ensures short name
  · split
    · next keyword =>
      rw [keyword]
      exact readDeclaration_ensures stand fun name rest => readType_ensures short
    · split
      · split
        · next keyword =>
          rw [keyword]
          exact readDeclaration_ensures stand fun name rest => readEnumBody_ensures name
        · trivial
      · split <;> trivial

/-- The keyword of a definition stands at the location of the definition. -/
theorem readDefinition_ensures (short : source.length < UInt32.size) (doc : Option Text)
    (stand : ∀ t ∈ tokens, t.StandsIn file source) :
    (readDefinition m doc tokens).Ensures (Token.StandsIn file source)
      (Definition.SpeltIn file source m.moduleName) := by
  unfold readDefinition
  split
  · trivial
  · next t rest =>
    obtain ⟨stands, left⟩ := List.forall_mem_cons.mp stand
    split
    · next identifier =>
      refine (readKeyword_ensures short t left).map fun d declared => ⟨?_, declared.spelt⟩
      have word := stands.hasWord identifier
      rwa [← declared.introducer] at word
    · trivial

/-! ## Statements -/

/-- A word that tokens start with stands at their location. -/
theorem hasWord_of_startsWithWord {word : Text} (starts : startsWithWord word tokens = true)
    (stand : ∀ t ∈ tokens, t.StandsIn file source) : (locationOf tokens).HasWord file source word := by
  cases tokens with
  | nil => cases starts
  | cons t rest =>
    have front : decide (t.kind = .identifier) && t.text == word := starts
    rw [Bool.and_eq_true, beq_iff_eq] at front
    rw [← front.2]
    exact (stand t List.mem_cons_self).hasWord (of_decide_eq_true front.1)

/-- The keyword of a statement stands at its location, behind the documentation. -/
theorem readStatement_ensures (short : source.length < UInt32.size)
    (stand : ∀ t ∈ tokens, t.StandsIn file source) :
    (readStatement m tokens).Ensures (Token.StandsIn file source)
      (Statement.SpeltIn file source m.moduleName) := by
  have behind := forall_afterDoc stand
  unfold readStatement
  split
  · trivial
  · split
    · next keyword =>
      have word := hasWord_of_startsWithWord keyword behind
      have path : (readPath (afterDoc tokens).tail).Ensures (Token.StandsIn file source) fun _ => True := by
        refine (expect_ensures (forall_tail behind) _ _).andThen fun first rest named left => ?_
        exact (readPathTail_ensures short named.1 named.2.1 left).map fun _ _ => trivial
      exact path.map fun _ _ => word
    · exact (readDefinition_ensures short _ behind).map fun d spelt => spelt

/-- The statements of a body are spelt at their locations. -/
theorem readBody_ensures (short : source.length < UInt32.size)
    (stand : ∀ t ∈ tokens, t.StandsIn file source) :
    (readBody m tokens).Ensures (Token.StandsIn file source) fun statements =>
      ∀ s ∈ statements, s.SpeltIn file source m.moduleName := by
  have one := fun (tokens : List Token) (stand : ∀ t ∈ tokens, t.StandsIn file source) =>
    readStatement_ensures (m := m) short stand
  fun_induction readBody m tokens with
  | case1 => exact ⟨by simp, by simp⟩
  | case2 => trivial
  | case3 t others s rest h ih =>
    have first := one (t :: others) stand
    rw [h] at first
    exact (ih first.2).map fun statements all => List.forall_mem_cons.mpr ⟨first.1, all⟩

end Readers

/-! ## Modules -/

namespace SchemaModule

/-- In a module that was read from a text, every node is spelt at its location. -/
theorem speltIn_of_parse {moduleName file text : Text} {x : SchemaModule} (short : text.length < UInt32.size)
    (h : (SchemaModule.parse moduleName file text).outcome = .ok x) :
    ∀ s ∈ x.statements, s.SpeltIn file text moduleName := by
  obtain ⟨metadata, tokens, statements, header, -, body, rfl⟩ := parse_ok_iff.mp h
  have left := readHeader_suffix none moduleName (Token.scan file {} text)
  rw [header] at left
  have stand : ∀ t ∈ tokens, t.StandsIn file text :=
    fun t mem => Token.standsIn_of_mem_scan short t (left.subset mem)
  have ensures := readBody_ensures (m := metadata) short stand
  rw [body, moduleName_of_readHeader header] at ensures
  exact ensures.1

/-- A module with comments between its parts and with paths and cases that are read from several tokens. -/
def commentedSource : Text :=
  "encoding-version: 1.0.0\nlanguage-version: 1.1.0\n/// header\n---\n/* a\n*/ import a.b // c\n" ++
    "/// one\n\t/// two\r\n\ttype R = \x7b x : [a.b.T?], /** y */ y : \x7bFixed(16)\x7d \x7d\n" ++
    "type V=/***/C\x7bz:U\x7d|D enum E = A|B/**/alias N = UUID?\n\n  type U = C"

/-- The definitions of a module with comments are read at the bytes of their keywords. -/
theorem speltIn_of_parse_commented :
    ∃ x, (SchemaModule.parse "m" "m.theta" commentedSource).outcome = .ok x ∧
      (x.definitions.map fun d => (d.location.line.toNat, d.location.column.toNat)) =
        [(9, 2), (10, 1), (10, 22), (10, 38), (12, 3)] ∧
      ∀ s ∈ x.statements, s.SpeltIn "m.theta" commentedSource "m" := by
  have readable : (SchemaModule.parse "m" "m.theta" commentedSource).outcome.toOption.any
      (fun x => (x.definitions.map fun d => (d.location.line.toNat, d.location.column.toNat)) =
        [(9, 2), (10, 1), (10, 22), (10, 38), (12, 3)]) = true := by
    decide +kernel
  obtain ⟨x, read, places⟩ := exists_ok_of_any readable
  exact ⟨x, read, of_decide_eq_true places, speltIn_of_parse (by decide +kernel) read⟩

end SchemaModule

end ThetaSchema
