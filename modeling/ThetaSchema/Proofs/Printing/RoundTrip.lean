import ThetaSchema.Proofs.Printing.Definitions
import ThetaSchema.Proofs.Printing.Header

/-!
# Written modules are read back

A module that was read from a text is written as a text that is read to the same module, but for the
locations.  The name of the module has to be one that references can be qualified with, the name of its
file has to stay on one line, and no documentation line may start with a carriage return.

Main definitions:

- `Lexeme.IsVisible`: a text that starts with a token.

Main results:

- `spells_writeStatements`: written statements spell a module body.
- `SchemaModule.parse_render`: a well-formed module is read back from its written form.
- `SchemaModule.parse_render_of_parse`: so is every module that was read.
-/

namespace ThetaSchema

variable {file k : Text} {m : Metadata}

/-! ## Bodies -/

/-- The keyword of imports and the name of a module spell an import. -/
theorem spells_importName {moduleName : Text} (isName : isModuleName moduleName = true) (location : Location)
    (ends : EndsWord k) : Spells file ("import " ++ moduleName) k
      (DerivesStatement m · (Statement.imports location moduleName).unlocated) := by
  have parts := isName
  rw [isModuleName, List.all_eq_true] at parts
  have nonempty : nameComponents moduleName ≠ [] := List.splitOn_ne_nil _ _
  have path : Spells file (dotted (nameComponents moduleName)) k _ := Spells.dotted nonempty parts ends
  have written : ("import " ++ moduleName : Text) =
      "import" ++ ((" " : Text) ++ dotted (nameComponents moduleName)) := by
    rw [dotted_nameComponents]
    rfl
  rw [written]
  refine (Spells.word_append (by decide) (EndsWord.cons (by decide) _)
    (Spells.behind (s := " ") (by decide) path)).imp ?_
  rintro _ ⟨t, us, rfl, kind, text, derived⟩
  have statement := DerivesStatement.imports (m := m) ⟨kind, text⟩ derived
  rw [dotted_nameComponents] at statement
  exact statement

/-- An import spells itself. -/
theorem spells_import {moduleName : Text} (isName : isModuleName moduleName = true) (location : Location) :
    Spells file ("import " ++ moduleName ++ "\n") k
      (DerivesStatement m · (Statement.imports location moduleName).unlocated) :=
  (spells_importName isName location (EndsWord.cons (by decide) _)).before (by decide)

/-- Written statements spell a module body. -/
theorem spells_writeStatements {statements : List Statement} (separated : Bool)
    (wellFormed : ∀ s ∈ statements, s.WellFormed m)
    (writable : ∀ s ∈ statements, ∀ d ∈ s.docs, Documentation.Writable d) (nameable : m.Nameable) :
    Spells file (writeStatements separated statements) k
      (DerivesBody m · (statements.map Statement.unlocated)) := by
  induction statements generalizing separated with
  | nil =>
    refine Spells.nil.imp ?_
    rintro _ rfl
    exact .nil
  | cons s statements ih =>
    have rest := fun separated => ih separated (fun x mem => wellFormed x (List.mem_cons_of_mem s mem))
      (fun x mem => writable x (List.mem_cons_of_mem s mem))
    have statement : ∀ {t : Text} {separated : Bool}, (∀ k, Spells file t k (DerivesStatement m · s.unlocated)) →
        Spells file (t ++ writeStatements separated statements) k
          (DerivesBody m · ((s :: statements).map Statement.unlocated)) := by
      intro t separated spelled
      refine ((spelled _).append (rest separated)).imp ?_
      rintro _ ⟨us, vs, rfl, one, more⟩
      exact .cons one more
    have fits := wellFormed s List.mem_cons_self
    have docs := writable s List.mem_cons_self
    cases s with
    | imports location moduleName =>
      rw [writeStatements]
      exact statement fun k => spells_import fits location
    | defines d =>
      have blank : (Text.onlyIf separated "\n").all Byte.isBlank = true := by
        cases separated <;> decide
      rw [writeStatements, List.append_assoc]
      exact Spells.behind blank (statement fun k => Definition.spells fits docs nameable)

/-! ## The first token of a body -/

namespace Lexeme

/-- A text that starts with a token. -/
def IsVisible (t : Text) : Prop :=
  ∃ b rest, t = b :: rest ∧ (read b rest).token?.isSome = true

/-- A word is visible, whatever stands behind it. -/
theorem isVisible_word {w : Text} (identifier : isIdentifier w = true) (rest : Text) :
    IsVisible (w ++ rest) := by
  cases w with
  | nil => cases identifier
  | cons b w =>
    simp only [isIdentifier, Bool.and_eq_true] at identifier
    rcases Byte.isIdentifierStart_only identifier.1 with ⟨blank, slash, dash, -⟩
    have noComment : opensComment (b :: (w ++ rest)) = false := by simp [opensComment, slash]
    have noSeparator : opensSeparator (b :: (w ++ rest)) = false := by simp [opensSeparator, dash]
    refine ⟨b, w ++ rest, rfl, ?_⟩
    simp [read, blank, noComment, noSeparator, identifier.1, ofRun]

/-- Written documentation is visible. -/
theorem isVisible_writeDoc (doc rest : Text) : IsVisible (writeDoc [] doc ++ rest) := by
  have comment : ∀ t : Text, read Byte.slash (Byte.slash :: t) = ofComment (Byte.slash :: Byte.slash :: t) ∧
      read Byte.slash (Byte.star :: t) = ofComment (Byte.slash :: Byte.star :: t) := by
    intro t
    have opens : opensComment (Byte.slash :: Byte.slash :: t) = true := rfl
    have opens' : opensComment (Byte.slash :: Byte.star :: t) = true := rfl
    rw [read, if_neg (by decide), if_pos opens, read, if_neg (by decide), if_pos opens']
    exact ⟨rfl, rfl⟩
  unfold writeDoc
  dsimp only
  split
  · -- A block is a token even where nothing closes it.
    have block : ∀ t : Text, (ofComment (Byte.slash :: Byte.star :: Byte.star :: Byte.newline :: t)).token?.isSome
        = true := by
      intro t
      have noLine : opensDocLine (Byte.slash :: Byte.star :: Byte.star :: Byte.newline :: t) = false := rfl
      have noSlashes : ((Byte.slash :: Byte.star :: Byte.star :: Byte.newline :: t).take 2 ==
        [Byte.slash, Byte.slash]) = false := rfl
      have opens : opensDocBlock (Byte.slash :: Byte.star :: Byte.star :: Byte.newline :: t) = true := rfl
      rw [ofComment, if_neg (Bool.eq_false_iff.mp noLine), if_neg (Bool.eq_false_iff.mp noSlashes),
        if_pos opens, ofBlock]
      split <;> rfl
    refine ⟨Byte.slash, Byte.star :: Byte.star :: Byte.newline :: _, rfl, ?_⟩
    rw [(comment _).2]
    exact block _
  · rcases List.exists_cons_of_ne_nil (Text.lines_ne_nil doc) with ⟨line, others, split⟩
    have opens := opensDocLine_paddedLine line (others.flatMap (docLine (([] : Text) ++ "///")) ++ rest)
    have written : (Text.lines doc).flatMap (docLine (([] : Text) ++ "///")) ++ rest = Byte.slash :: ("//" ++
        (paddedLine line ++ Byte.newline :: (others.flatMap (docLine (([] : Text) ++ "///")) ++ rest))) := by
      rw [split, List.flatMap_cons, docLine_eq]
      simp only [List.append_assoc]
      rfl
    refine ⟨_, _, written, ?_⟩
    rw [read_docLines opens]
    rfl

end Lexeme

/-- The first token of a text that starts with one stands at the start. -/
theorem Token.head?_scan (file : Text) {t : Text} (visible : Lexeme.IsVisible t) (p : Position) :
    ∃ kind text, (Token.scan file p t).head? = some (Token.place file p kind text) := by
  rcases visible with ⟨b, rest, rfl, some⟩
  rcases Option.isSome_iff_exists.mp some with ⟨⟨kind, text⟩, read⟩
  refine ⟨kind, text, ?_⟩
  rw [Token.scan_cons, read]
  rfl

/-- A rendered definition is visible. -/
theorem Definition.isVisible_render (d : Definition) (rest : Text) :
    Lexeme.IsVisible (d.render ++ rest) := by
  rw [Definition.render, List.append_assoc, List.append_assoc]
  cases d.doc with
  | none =>
    rcases d.body_front with ⟨w, behind, identifier, front⟩
    rw [front, List.append_assoc]
    exact Lexeme.isVisible_word identifier _
  | some doc => exact Lexeme.isVisible_writeDoc doc _

/-- The first token of a written body stands on its first line or, behind an empty line, on the second
one. -/
theorem line_of_head?_writeStatements (separated : Bool) (statements : List Statement) (p : Position) :
    ∀ t ∈ (Token.scan file p (writeStatements separated statements)).head?,
      t.location.line = p.line ∨ t.location.line = p.line + 1 := by
  intro t first
  cases statements with
  | nil =>
    rw [writeStatements, Token.scan_nil] at first
    cases first
  | cons s statements =>
    cases s with
    | imports location moduleName =>
      rw [writeStatements, List.append_assoc, List.append_assoc] at first
      have visible : Lexeme.IsVisible ("import " ++ (moduleName ++ ("\n" ++ writeStatements separated statements))) :=
        Lexeme.isVisible_word (w := "import") (by decide) _
      rcases Token.head?_scan file visible p with ⟨kind, text, same⟩
      rw [same] at first
      cases first
      exact .inl rfl
    | defines d =>
      rw [writeStatements, List.append_assoc] at first
      have visible := d.isVisible_render (writeStatements true statements)
      cases separated with
      | false =>
        rcases Token.head?_scan file visible p with ⟨kind, text, same⟩
        rw [Text.onlyIf, if_neg (by decide), List.nil_append, same] at first
        cases first
        exact .inl rfl
      | true =>
        rcases Token.head?_scan file visible (p.advance "\n") with ⟨kind, text, same⟩
        have blank : Scans file p "\n" (d.render ++ writeStatements true statements) [] :=
          Scans.blank (by decide)
        rw [Text.onlyIf, if_pos rfl, blank, List.nil_append, same] at first
        cases first
        exact .inr rfl

/-! ## Modules -/

/-- A module name stays on its line. -/
theorem not_mem_of_isModuleName {t : Text} (h : isModuleName t = true) : Byte.newline ∉ t := by
  rw [isModuleName, List.all_eq_true] at h
  have stays : ∀ parts : List Text, (∀ w ∈ parts, isIdentifier w = true) → Byte.newline ∉ dotted parts := by
    intro parts identifiers
    induction parts with
    | nil => simp [dotted, Text.join]
    | cons w parts ih =>
      have first := (not_mem_identifier (identifiers w List.mem_cons_self)).2
      have rest := ih fun u mem => identifiers u (List.mem_cons_of_mem w mem)
      by_cases none : parts = []
      · rw [none, dotted_singleton]
        exact first
      · rw [dotted_cons w none, List.mem_append, List.mem_cons, not_or, not_or]
        exact ⟨first, by decide, rest⟩
  have whole := stays (nameComponents t) h
  rwa [dotted_nameComponents] at whole

/-- A well-formed module is read back from its written form, but for its locations. -/
theorem SchemaModule.parse_render {x : SchemaModule} (wellFormed : x.WellFormed)
    (writable : ∀ d ∈ x.docs, Documentation.Writable d) (nameable : x.metadata.Nameable)
    (supported : x.metadata.checkSupported = .ok ()) (filed : Byte.newline ∉ x.file) :
    ∃ y, SchemaModule.parse x.name x.file x.render = ⟨[], .ok y⟩ ∧ y.unlocated = x.unlocated := by
  have docs : ∀ s ∈ x.statements, ∀ d ∈ s.docs, Documentation.Writable d := by
    intro s mem d here
    exact writable d (List.mem_flatMap_of_mem mem here)
  have spelled : Spells x.file (writeStatements (!x.imports.isEmpty) x.statements) [] _ :=
    spells_writeStatements _ wellFormed docs nameable
  rcases spelled (({} : Position).advance x.header) with ⟨ts, scanned, derived⟩
  rw [Scans, List.append_nil, Token.scan_nil, List.append_nil] at scanned
  have header := SchemaModule.header_accepted x.file (not_mem_of_isModuleName nameable.moduleName) filed _
    (line_of_head?_writeStatements (!x.imports.isEmpty) x.statements (({} : Position).advance x.header))
  rw [scanned] at header
  rcases readBody_complete derived with ⟨statements, body, same⟩
  refine ⟨⟨x.file, x.metadata, statements⟩, parse_eq_of_accepted header supported body, ?_⟩
  rw [SchemaModule.unlocated, SchemaModule.unlocated, same]

/-- Every module that was read is read back from its written form, without a report: it is the same but
for its locations, so it is written the same way again. -/
theorem SchemaModule.parse_render_of_parse {moduleName file text : Text} {x : SchemaModule}
    (parsed : (SchemaModule.parse moduleName file text).outcome = .ok x)
    (isName : isModuleName moduleName = true)
    (free : ∀ c ∈ (nameComponents moduleName).head?, isReservedWord x.metadata.language c = false)
    (filed : Byte.newline ∉ file)
    (returns : ∀ d ∈ x.docs, ∀ line ∈ (Text.lines d).drop 1, line.head? ≠ some 13) :
    ∃ y, SchemaModule.parse moduleName file x.render = ⟨[], .ok y⟩ ∧ y.unlocated = x.unlocated ∧
      y.render = x.render := by
  rcases SchemaModule.parse_wellFormed parsed with ⟨wellFormed, rfl, rfl, supported⟩
  have writable : ∀ d ∈ x.docs, Documentation.Writable d := by
    intro d mem
    exact ⟨wellFormed.normal d mem, returns d mem⟩
  rcases SchemaModule.parse_render wellFormed writable ⟨isName, free⟩ supported filed with ⟨y, again, same⟩
  refine ⟨y, again, same, ?_⟩
  rw [← SchemaModule.render_unlocated y, same, SchemaModule.render_unlocated]

/-- A module with a documentation block and a variant of a single case. -/
def shapesSource : Text :=
  "language-version: 1.1.0\nencoding-version: 1.0.0\n---\n/** Shapes\n *   of one kind. */\n" ++
    "type Shape = Circle \x7b radius : Int? \x7d\n"

/-- The round trip of a small module. -/
theorem SchemaModule.parse_render_of_parse_shapes :
    ∃ x y, (SchemaModule.parse "shapes" "shapes.theta" shapesSource).outcome = .ok x ∧
      SchemaModule.parse "shapes" "shapes.theta" x.render = ⟨[], .ok y⟩ ∧ y.unlocated = x.unlocated ∧
        y.render = x.render := by
  have readable : ((SchemaModule.parse "shapes" "shapes.theta" shapesSource).outcome.toOption.any fun x =>
      !isReservedWord x.metadata.language "shapes" &&
        x.docs.all fun d => ((Text.lines d).drop 1).all fun line => line.head? != some 13) = true := by
    decide +kernel
  cases parsed : (SchemaModule.parse "shapes" "shapes.theta" shapesSource).outcome with
  | error e =>
    rw [parsed] at readable
    cases readable
  | ok x =>
    rw [parsed] at readable
    simp only [Except.toOption, Option.any_some, Bool.and_eq_true, Bool.not_eq_true', List.all_eq_true,
      bne_iff_ne] at readable
    have free : ∀ c ∈ (nameComponents "shapes").head?, isReservedWord x.metadata.language c = false := by
      intro c first
      cases first
      exact readable.1
    rcases SchemaModule.parse_render_of_parse parsed (by decide) free (by decide) readable.2 with
      ⟨y, again, same, written⟩
    exact ⟨x, y, rfl, again, same, written⟩

end ThetaSchema
