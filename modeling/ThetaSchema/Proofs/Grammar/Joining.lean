import ThetaSchema.Proofs.Grammar.Alignment
import ThetaSchema.Proofs.Grammar.Persistence
import ThetaSchema.Proofs.Token.Seam
import ThetaSchema.Proofs.Token.Shift

/-!
# Statements do not depend on their neighbours

Two texts that each hold a body, put together with a newline between them, hold the statements of both.
Neither the scanner nor the readers see across the seam: the first text ends with a name or a closing mark,
so no comment goes on behind the newline, and the second one starts with a word or with documentation, so
no statement goes on there.

Main definitions:

- `EndsPlain`: tokens that end with a name or a closing mark.

Main results:

- `DerivesBody.endsPlain`: a body ends with a name or a closing mark.
- `body_joined`: the body of two texts with a newline between them.
-/

namespace ThetaSchema

variable {m : Metadata} {tokens : List Token}

/-! ## The end of a body -/

/-- The kinds of names and closing marks. -/
def TokenKind.isPlain : TokenKind → Bool
  | identifier | parenClose | bracketClose | braceClose | question => true
  | _ => false

/-- The tokens end with a name or a closing mark. -/
def EndsPlain (tokens : List Token) : Prop :=
  ∃ front last, tokens = front ++ [last] ∧ last.kind.isPlain = true

namespace EndsPlain

theorem intro (front : List Token) {last : Token} {kind : TokenKind} (isKind : last.kind = kind)
    (plain : kind.isPlain = true) : EndsPlain (front ++ [last]) :=
  ⟨front, last, rfl, isKind ▸ plain⟩

theorem append (h : EndsPlain tokens) (front : List Token) : EndsPlain (front ++ tokens) := by
  rcases h with ⟨inner, last, rfl, plain⟩
  exact ⟨front ++ inner, last, (List.append_assoc _ _ _).symm, plain⟩

theorem cons (h : EndsPlain tokens) (t : Token) : EndsPlain (t :: tokens) :=
  h.append [t]

end EndsPlain

/-- A path ends with a name. -/
theorem DerivesPath.endsPlain {parts : List Text} (h : DerivesPath tokens parts) : EndsPlain tokens := by
  induction h with
  | single identifier => exact .intro [] identifier rfl
  | cons identifier isDot before behind more ih => exact (ih.cons _).cons _

/-- A type ends with a name, a closing mark or a question mark. -/
theorem DerivesType.endsPlain {level : TypeLevel} {e : TypeExpr} (h : DerivesType m level tokens e) :
    EndsPlain tokens := by
  induction h with
  | primitive identifier keyword => exact .intro [] identifier rfl
  | @fixed t opening size closing n identifier keyword enabled isOpening touches isSize value isClosing =>
    exact .intro [t, opening, size] isClosing rfl
  | array isOpening element isClosing ih => exact .intro _ isClosing rfl
  | map isOpening value isClosing ih => exact .intro _ isClosing rfl
  | reference path free => exact path.endsPlain
  | plain atom ih => exact ih
  | optional atom isMark ih => exact .intro _ isMark rfl

theorem DerivesSignature.endsPlain {e : TypeExpr} (h : DerivesSignature m tokens e) : EndsPlain tokens :=
  (readLoneType_iff.mp h).endsPlain

/-- A list ends like its last item. -/
theorem DerivesList.endsPlain {α : Type} {mark : TokenKind} {item : List Token → α → Prop} {as : List α}
    (h : DerivesList mark item tokens as) (each : ∀ {ts a}, item ts a → EndsPlain ts) : EndsPlain tokens := by
  induction h with
  | single one => exact each one
  | cons one isMark more ih => exact (ih.cons _).append _

/-- A block ends with its closing brace. -/
theorem DerivesBlock.endsPlain {fields : List RecordField} (h : DerivesBlock m tokens fields) :
    EndsPlain tokens := by
  cases h with
  | @empty opening closing isOpening isClosing => exact .intro [opening] isClosing rfl
  | fields isOpening inside isClosing => exact .intro _ isClosing rfl

/-- A case ends with its name or with its block. -/
theorem DerivesCase.endsPlain {c : VariantCase} (h : DerivesCase m tokens c) : EndsPlain tokens := by
  cases h with
  | bare documented declared => exact .intro _ declared.identifier rfl
  | block documented declared inside => exact (inside.endsPlain.cons _).append _

theorem DerivesSymbol.endsPlain {symbol : Text} (h : DerivesSymbol tokens symbol) : EndsPlain tokens := by
  cases h with
  | intro identifier => exact .intro [] identifier rfl

/-- The body of a type ends like its last part, whichever of the three forms it has. -/
theorem DerivesTypeBody.endsPlain {name : QualifiedName} {e : TypeExpr} (h : DerivesTypeBody m name tokens e) :
    EndsPlain tokens := by
  cases h with
  | record block => exact block.endsPlain
  | variant inside notBare => exact inside.endsPlain DerivesCase.endsPlain
  | newtype signature => exact signature.endsPlain

/-- A definition ends like its body. -/
theorem DerivesDefinition.endsPlain {d : QualifiedName × TypeExpr} (h : DerivesDefinition m tokens d) :
    EndsPlain tokens := by
  cases h with
  | type isKeyword declared isEqual body => exact ((body.endsPlain.cons _).cons _).cons _
  | synonym isKeyword declared isEqual body => exact ((body.endsPlain.cons _).cons _).cons _
  | enumeration enabled isKeyword declared isEqual body =>
    exact (((body.endsPlain DerivesSymbol.endsPlain).cons _).cons _).cons _

/-- A statement ends with a path or with a definition. -/
theorem DerivesStatement.endsPlain {s : Statement} (h : DerivesStatement m tokens s) : EndsPlain tokens := by
  cases h with
  | imports isKeyword path => exact path.endsPlain.cons _
  | defines documented definition => exact definition.endsPlain.append _

/-- A body ends with a name or a closing mark, if it is not empty. -/
theorem DerivesBody.endsPlain {statements : List Statement} (h : DerivesBody m tokens statements) :
    tokens = [] ∨ EndsPlain tokens := by
  induction h with
  | nil => exact .inl rfl
  | cons one more ih =>
    refine .inr ?_
    rcases ih with rfl | ends
    · rw [List.append_nil]
      exact one.endsPlain
    · exact ends.append _

/-- No comment goes on behind a body. -/
theorem DerivesBody.getLast?_kind {statements : List Statement} (h : DerivesBody m tokens statements) :
    ∀ t ∈ tokens.getLast?, t.kind ≠ .unterminatedComment ∧ t.kind ≠ .documentation := by
  intro t last
  rcases h.endsPlain with rfl | ⟨front, t', rfl, plain⟩
  · cases last
  · rw [List.getLast?_concat] at last
    cases last
    constructor
    · intro other
      simp [other, TokenKind.isPlain] at plain
    · intro other
      simp [other, TokenKind.isPlain] at plain

/-! ## The text behind the seam -/

/-- Tokens that are moved down are aligned with their own places. -/
theorem Aligned.map_lower {n : UInt32} {d : UInt64} {R : Location → Location → Prop} {ts : List Token}
    (related : ∀ t ∈ ts, R t.location (t.lower n d).location) : Aligned R ts (ts.map (Token.lower n d)) := by
  induction ts with
  | nil => exact .nil
  | cons t rest ih =>
    refine .cons ⟨rfl, rfl, related t List.mem_cons_self⟩ ?_ (ih fun u mem => related u (List.mem_cons_of_mem t mem))
    intro u first u' first'
    rw [List.head?_map, Option.mem_def.mp first] at first'
    cases first'
    exact (Token.adjacentTo_lower n d t u).symm

/-- The tokens of two texts with a newline between them, where the first one has a body. -/
theorem Token.scan_joined {file s t : Text} {statements : List Statement}
    (body : DerivesBody m (scan file {} s) statements) :
    scan file {} (s ++ Byte.newline :: t) =
      scan file {} s ++ scan file (({} : Position).advance (s ++ [Byte.newline])) t := by
  have seam : Scans file {} s (Byte.newline :: t) _ := Scans.of_last fun token last =>
    ⟨(body.getLast?_kind token last).1, fun doc => absurd doc (body.getLast?_kind token last).2⟩
  exact seam.scan_newline

/-- A body that is read is read as well from aligned tokens. -/
theorem readBody_of_aligned {R : Location → Location → Prop} {ts ts' : List Token} {statements : List Statement}
    (h : Aligned R ts ts') (accepted : readBody m ts = .accepted statements []) :
    ∃ statements', readBody m ts' = .accepted statements' [] ∧
      List.Forall₂ (Statement.Relocated R) statements statements' := by
  have matched := readBody_matched m h
  rw [accepted] at matched
  generalize read : readBody m ts' = outcome at matched
  cases matched with
  | @accepted _ statements' _ rest' related left =>
    cases left
    exact ⟨statements', rfl, related⟩

/-- Where two texts each hold a body, the two texts with a newline between them hold the statements of both.
Those of the second text stand in the same columns, further down by the newline and the ones in the first
text. -/
theorem body_joined (m : Metadata) {file s t : Text} {before behind : List Statement}
    (short : (s ++ Byte.newline :: t).length < UInt32.size)
    (first : ((Session.start (TokenStream.ofText file s)).body m).2 = .ok before)
    (second : ((Session.start (TokenStream.ofText file t)).body m).2 = .ok behind) :
    ∃ behind', ((Session.start (TokenStream.ofText file (s ++ Byte.newline :: t))).body m).2 =
        .ok (before ++ behind') ∧
      List.Forall₂ (Statement.Relocated (Location.Below (1 + s.count Byte.newline))) behind behind' := by
  rw [Session.body_start_ok_iff, TokenStream.tokens_ofText] at first second
  have aligned : Aligned (Location.Below (1 + s.count Byte.newline)) (Token.scan file {} t)
      (Token.scan file (({} : Position).advance (s ++ [Byte.newline])) t) := by
    rw [Token.scan_behind_newline]
    exact Aligned.map_lower fun token mem => Token.below_lower short mem _
  rcases readBody_of_aligned aligned second with ⟨behind', accepted, related⟩
  refine ⟨behind', ?_, related⟩
  have follows := (readBody_sound accepted).startsStatement
  rw [Session.body_start_ok_iff, TokenStream.tokens_ofText, Token.scan_joined (readBody_sound first),
    readBody_append follows (.refl m _) first, accepted, Outcome.map_accepted]

/-- Two statements on three lines, and a comment at the end. -/
def upperSource : Text :=
  "import a.b\n\ntype R = \x7b x : Int \x7d // open"

/-- A documented statement that starts behind a blank line. -/
def lowerSource : Text :=
  "\n /// closed\n  alias S = [R]"

/-- The statements of two small texts, put together. -/
theorem body_joined_sources :
    ∃ before behind behind' : List Statement,
      (upperSource ++ Byte.newline :: lowerSource).length < UInt32.size ∧
      ((Session.start (TokenStream.ofText "a.theta" upperSource)).body ⟨⟨1, 0, 0⟩, ⟨1, 0, 0⟩, "a"⟩).2 =
        .ok before ∧
      ((Session.start (TokenStream.ofText "a.theta" lowerSource)).body ⟨⟨1, 0, 0⟩, ⟨1, 0, 0⟩, "a"⟩).2 =
        .ok behind ∧
      (before.length = 2 ∧ behind.length = 1) ∧
      ((Session.start (TokenStream.ofText "a.theta" (upperSource ++ Byte.newline :: lowerSource))).body
        ⟨⟨1, 0, 0⟩, ⟨1, 0, 0⟩, "a"⟩).2 = .ok (before ++ behind') ∧
      List.Forall₂ (Statement.Relocated (Location.Below 3)) behind behind' := by
  have short : (upperSource ++ Byte.newline :: lowerSource).length < UInt32.size := by decide +kernel
  have readable : ((Session.start (TokenStream.ofText "a.theta" upperSource)).body
      ⟨⟨1, 0, 0⟩, ⟨1, 0, 0⟩, "a"⟩).2.toOption.any (fun statements => statements.length = 2) = true := by
    decide +kernel
  have readable' : ((Session.start (TokenStream.ofText "a.theta" lowerSource)).body
      ⟨⟨1, 0, 0⟩, ⟨1, 0, 0⟩, "a"⟩).2.toOption.any (fun statements => statements.length = 1) = true := by
    decide +kernel
  rcases exists_ok_of_any readable with ⟨before, first, two⟩
  rcases exists_ok_of_any readable' with ⟨behind, second, one⟩
  rcases body_joined ⟨⟨1, 0, 0⟩, ⟨1, 0, 0⟩, "a"⟩ short first second with ⟨behind', joined, related⟩
  exact ⟨before, behind, behind', short, first, second, ⟨of_decide_eq_true two, of_decide_eq_true one⟩, joined,
    related⟩

end ThetaSchema
