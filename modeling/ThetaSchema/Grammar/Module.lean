import ThetaSchema.Grammar.Header
import ThetaSchema.Grammar.Statement
import ThetaSchema.Token.Lexer

/-!
# Reading schema source

The entry points of the grammar: headers, types, definitions and whole modules are read from texts.  A
rejection becomes an error, and one diagnostic about it is reported.

Main definitions:

- `Outcome.judge`: the error and the report that a rejection amounts to.
- `Metadata.parse`, `TypeExpr.parse`, `Definition.parse`, `SchemaModule.parse`.
-/

namespace ThetaSchema

/-- The error that a rejection amounts to. -/
def Failure.error (stop : Token) (f : Failure) : SchemaError :=
  .syntaxFault (f.diagnostic stop) f.mismatch?

/-- The result of a reader, with one report if it rejects its input. -/
def Outcome.judge (stop : Token) : Outcome α → Logged α
  | .accepted a _ => .succeed a
  | .rejected f _ => ⟨Log.report [] (f.diagnostic stop), .error (f.error stop)⟩

/-- The file named in the locations of a text that comes from no file. -/
def inputLabel : Text :=
  "<input>"

/-- Reads the header of a module from a text. -/
def Metadata.parse (moduleName text : Text) : Logged Metadata :=
  let stream := TokenStream.ofText inputLabel text
  (readHeader none moduleName stream.tokens).judge stream.stop

/-- Reads a type expression from a text. -/
def TypeExpr.parse (m : Metadata) (text : Text) : Logged TypeExpr :=
  let stream := TokenStream.ofText inputLabel text
  (readLoneType m stream.tokens).judge stream.stop

/-- Reads a definition from a text. -/
def Definition.parse (m : Metadata) (text : Text) : Logged Definition :=
  let stream := TokenStream.ofText inputLabel text
  (readLoneDefinition m stream.tokens).judge stream.stop

/-- Refuses metadata with a version outside the supported ranges, the language version first. -/
def Metadata.checkSupported (m : Metadata) : Except SchemaError Unit :=
  if !supportedLanguage.contains m.language then
    .error (.unsupportedVersion m supportedLanguage m.language)
  else if !supportedEncoding.contains m.encoding then
    .error (.unsupportedVersion m supportedEncoding m.encoding)
  else .ok ()

/-- Reads the body of a module behind its header. -/
def SchemaModule.parseBody (file : Text) (metadata : Metadata) (stop : Token) (tokens : List Token) :
    Logged SchemaModule :=
  match metadata.checkSupported with
  | .error e => .fail e
  | .ok () => ((readBody metadata tokens).map fun statements => ⟨file, metadata, statements⟩).judge stop

/-- Reads a module with a given name from the text of a file. -/
def SchemaModule.parse (moduleName file text : Text) : Logged SchemaModule :=
  let stream := TokenStream.ofText file text
  match readHeader none moduleName stream.tokens with
  | .rejected f rest => (Outcome.rejected f rest : Outcome SchemaModule).judge stream.stop
  | .accepted metadata rest => SchemaModule.parseBody file metadata stream.stop rest

end ThetaSchema
