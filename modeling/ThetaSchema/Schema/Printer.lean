import ThetaSchema.Schema.Basic

/-!
# The written form of schemas

Types have a compact form on one line.  Definitions and modules are written as schema source, with the
documentation in front of what it documents.

Main definitions:

- `TypeExpr.render`: the compact form of a type.
- `writeDoc`: a documentation comment, as lines or as a block.
- `Definition.render`, `SchemaModule.render`: source text of a definition and of a module.
-/

namespace ThetaSchema

/-! ## The compact form of a type -/

/-- Fields between braces on one line. -/
def braced (items : List Text) : Text :=
  if items = [] then "\x7b\x7d" else "\x7b " ++ Text.join ", " items ++ " \x7d"

mutual

/-- The compact form of a type. -/
def TypeExpr.render : TypeExpr → Text
  | .absent => "?"
  | .primitive _ kind => kind.keyword
  | .fixed _ size => Feature.fixed.keyword ++ "(" ++ Decimal.render size.toNat ++ ")"
  | .array _ element => "[" ++ element.render ++ "]"
  | .map _ value => "\x7b" ++ value.render ++ "\x7d"
  | .optional _ element => element.render ++ "?"
  | .reference _ name => name.render
  | .record _ name fields => "record " ++ name.render ++ " " ++ braced (fieldItems fields)
  | .variant _ name cases => "variant " ++ name.render ++ " = " ++ Text.join " | " (caseItems cases)
  | .enumeration _ name symbols => "enum " ++ name.render ++ " = " ++ Text.join " | " symbols
  | .newtype _ name underlying => "newtype " ++ name.render ++ " = " ++ underlying.render

/-- The compact forms of fields, `name : type`. -/
def fieldItems : List (FieldOf TypeExpr) → List Text
  | [] => []
  | ⟨_, name, _, type⟩ :: fields => (name ++ " : " ++ type.render) :: fieldItems fields

/-- The compact forms of cases, each its name and its fields. -/
def caseItems : List (CaseOf TypeExpr) → List Text
  | [] => []
  | ⟨_, name, _, fields⟩ :: cases => (name.render ++ " " ++ braced (fieldItems fields)) :: caseItems cases

end

/-! ## Documentation comments -/

/-- Whether a line is indented. -/
def isIndented (line : Text) : Bool :=
  line.head? == some Byte.space || line.head? == some 9

/-- Whether a text contains the closing mark of a block comment. -/
def containsClose : Text → Bool
  | [] => false
  | b :: rest => (b == Byte.star && rest.head? == some Byte.slash) || containsClose rest

/-- A line of a documentation comment: a mark, and after a space the text, if there is any. -/
def docLine (mark line : Text) : Text :=
  mark ++ Text.onlyIf (!line.isEmpty) (Byte.space :: line) ++ "\n"

/-- A documentation comment at an indentation.  Lines after the first one keep their own indentation only
in a block, so a block is written where a line has one, unless the text would close the block. -/
def writeDoc (indent doc : Text) : Text :=
  let ls := Text.lines doc
  if (ls.drop 1).any isIndented && !containsClose doc then
    indent ++ "/**\n" ++ ls.flatMap (docLine (indent ++ " *")) ++ indent ++ " */\n"
  else ls.flatMap (docLine (indent ++ "///"))

/-- The documentation comment of something that may have none. -/
def writeDoc? (indent : Text) (doc : Option Text) : Text :=
  doc.elim [] (writeDoc indent)

/-! ## Definitions -/

/-- A field on lines of its own: its documentation, its name and its type. -/
def writeField (indent : Text) (f : RecordField) : Text :=
  writeDoc? indent f.doc ++ indent ++ f.name ++ " : " ++ f.type.render

/-- Fields between braces, each on lines of its own. -/
def writeFieldBlock (indent : Text) (fields : List RecordField) : Text :=
  if fields.isEmpty then "\x7b\x7d"
  else "\x7b\n" ++ Text.join ",\n" (fields.map (writeField (indent ++ "    "))) ++ "\n" ++ indent ++ "\x7d"

/-- Whether a case or one of its fields is documented. -/
def VariantCase.isDocumented (c : VariantCase) : Bool :=
  c.doc.isSome || c.fields.any (·.doc.isSome)

/-- A case of a variant without documentation.  A lone case keeps its braces even when they are empty,
since it would be read as a reference without them. -/
def writePlainCase (alone : Bool) (c : VariantCase) : Text :=
  c.name.localName ++
    Text.onlyIf (alone || !c.fields.isEmpty) (Byte.space :: braced (fieldItems c.fields))

/-- A case of a variant with documentation, from the start of its line on or after a bar. -/
def writeDocumentedCase (c : VariantCase) (onOwnLine : Bool) : Text :=
  writeDoc? "    " c.doc ++ Text.onlyIf onOwnLine "    " ++ c.name.localName ++
    Text.onlyIf (!c.fields.isEmpty) (Byte.space :: writeFieldBlock "    " c.fields)

/-- A case after the first one in a variant with documentation, with the bar before it. -/
def writeFurtherCase (c : VariantCase) : Text :=
  "\n  |" ++ (if c.doc.isSome then ("\n" : Text) else " ") ++ writeDocumentedCase c c.doc.isSome

/-- The cases of a variant, from behind the equals sign on. -/
def writeCases (cases : List VariantCase) : Text :=
  if cases.any VariantCase.isDocumented then
    "\n" ++ match cases with
    | [] => []
    | first :: others => writeDocumentedCase first true ++ others.flatMap writeFurtherCase
  else Text.onlyIf (!cases.isEmpty) (" " ++ Text.join "\n  | " (cases.map (writePlainCase (cases.length = 1))))

/-- The symbols of an enumeration, from behind the equals sign on. -/
def writeSymbols (symbols : List Text) : Text :=
  Text.onlyIf (!symbols.isEmpty) (" " ++ Text.join " | " symbols)

namespace Definition

/-- What a definition says behind its documentation. -/
def body (d : Definition) : Text :=
  match d.type with
  | .record _ _ fields => "type " ++ d.name.localName ++ " = " ++ writeFieldBlock [] fields
  | .variant _ _ cases => "type " ++ d.name.localName ++ " =" ++ writeCases cases
  | .enumeration _ _ symbols => Feature.enumeration.keyword ++ " " ++ d.name.localName ++ " =" ++ writeSymbols symbols
  | .newtype _ _ underlying => "type " ++ d.name.localName ++ " = " ++ underlying.render
  | type => "alias " ++ d.name.localName ++ " = " ++ type.render

/-- The source text of a definition. -/
def render (d : Definition) : Text :=
  writeDoc? [] d.doc ++ d.body ++ "\n"

end Definition

/-! ## Modules -/

/-- The comment with the name and file of a module, and its header. -/
def SchemaModule.header (m : SchemaModule) : Text :=
  "// module " ++ m.name ++ Text.onlyIf (!m.file.isEmpty) (" (" ++ m.file ++ ")") ++ "\n" ++
    supportedLanguage.key ++ ": " ++ m.metadata.language.render ++ "\n" ++
    supportedEncoding.key ++ ": " ++ m.metadata.encoding.render ++ "\n---\n"

/-- The source text of statements.  An empty line goes before each definition but one that nothing
precedes, so `separated` says whether the next definition gets one. -/
def writeStatements (separated : Bool) : List Statement → Text
  | [] => []
  | .imports _ moduleName :: rest => "import " ++ moduleName ++ "\n" ++ writeStatements separated rest
  | .defines d :: rest => Text.onlyIf separated "\n" ++ d.render ++ writeStatements true rest

/-- The source text of a module.  Its first definition is set apart from the header only where the module
has an import anywhere. -/
def SchemaModule.render (m : SchemaModule) : Text :=
  m.header ++ writeStatements (!m.imports.isEmpty) m.statements

/-- The source text of several modules, with an empty line between neighbours. -/
def renderModules (modules : List SchemaModule) : Text :=
  Text.join "\n" (modules.map SchemaModule.render)

end ThetaSchema
