import ThetaSchema.Diagnostic
import ThetaSchema.Metadata
import ThetaSchema.Violation

/-!
# Errors

Everything that reading, loading, validating or converting schemas can fail with.  Each error keeps its
cause as data; `SchemaError.message` is the one place where the wording is fixed.
-/

namespace ThetaSchema

/-- What a conversion to or from another format says about its failure: one line for a record of events,
and the text for a reader. -/
structure ConversionFault where
  summary : Text
  details : Text
  deriving DecidableEq, Repr

/-- A failure, by its cause. -/
inductive SchemaError where
  /-- The source breaks the grammar, or uses a construct that its language version does not have. -/
  | syntaxFault (diagnostic : Diagnostic) (mismatch : Option VersionMismatch)
  /-- A file is there but cannot be read. -/
  | unreadable (path reason : Text)
  /-- A header names a version outside the supported range. -/
  | unsupportedVersion (metadata : Metadata) (range : VersionRange) (actual : Version)
  /-- Modules break rules of well-formedness. -/
  | invalidModules (violations : List Violation)
  /-- A text is no dotted name. -/
  | invalidName (text : Text)
  /-- A name lacks its module. -/
  | unqualifiedName (text : Text)
  /-- No entry of the load path has a module. -/
  | missingModule (searchPath moduleName : Text)
  /-- A module does not define a name. -/
  | missingName (name : QualifiedName)
  /-- A conversion to or from another format failed. -/
  | conversion (target : Text) (fault : Option ConversionFault)
  deriving DecidableEq, Repr

namespace SchemaError

/-- The message about an error. -/
def message : SchemaError → Text
  | syntaxFault diagnostic _ => diagnostic.render
  | unreadable path reason => "I/O error on " ++ Text.quoted path ++ ": " ++ reason
  | unsupportedVersion metadata range actual =>
    "The " ++ Text.quoted metadata.moduleName ++ " module requires\n\n  " ++
      range.key ++ " = " ++ actual.render ++ "\n\nbut this release of Theta only supports\n\n  " ++
      range.key ++ " >= " ++ range.lower.render ++ " and < " ++ range.upper.render
  | invalidModules violations =>
    "Errors in module definitions:\n" ++ violations.flatMap fun v => Byte.newline :: v.render
  | invalidName text => "Syntax error: " ++ Text.quoted text ++ " is not a valid Theta name."
  | unqualifiedName text =>
    Text.quoted text ++ " does not have a namespace. Please provide\n" ++
      "a fully-qualified name like 'com.example.Foo'."
  | missingModule searchPath moduleName =>
    "The module " ++ Text.quoted moduleName ++ " was not found in " ++ Text.quoted searchPath ++ "."
  | missingName name =>
    "Could not find " ++ Text.quoted name.localName ++ " in module " ++ Text.quoted name.moduleName ++ "."
  | conversion target fault =>
    "Error converting to/from " ++ target ++ ":\n\n" ++
      fault.elim ("<no details>" : Text) ConversionFault.details

end SchemaError

/-- Reads a qualified name: a dotted name with at least one dot, split at the last one. -/
def QualifiedName.parse (t : Text) : Except SchemaError QualifiedName :=
  if isModuleName t then
    match (nameComponents t).reverse with
    | [] | [_] => .error (.unqualifiedName t)
    | last :: inner => .ok ⟨dotted inner.reverse, last⟩
  else .error (.invalidName t)

/-- An outcome together with the diagnostics reported on the way. -/
structure Logged (α : Type) where
  log : Log
  outcome : Except SchemaError α

namespace Logged

/-- Goes on after a success; the diagnostics of both parts are kept, and a failure stays. -/
def andThen (first : Logged α) (next : α → Logged β) : Logged β :=
  match first.outcome with
  | .ok a => ⟨first.log ++ (next a).log, (next a).outcome⟩
  | .error e => ⟨first.log, .error e⟩

/-- A failure without diagnostics. -/
def fail (e : SchemaError) : Logged α :=
  ⟨[], .error e⟩

/-- A success without diagnostics. -/
def succeed (a : α) : Logged α :=
  ⟨[], .ok a⟩

/-- The same outcome with diagnostics in front. -/
def after (log : Log) (l : Logged α) : Logged α :=
  ⟨log ++ l.log, l.outcome⟩

variable {first : Logged α} {next : α → Logged β}

/-- Behind a value the next step goes on, and what it reports comes last. -/
theorem andThen_ok {a : α} (h : first.outcome = .ok a) :
    first.andThen next = ⟨first.log ++ (next a).log, (next a).outcome⟩ := by
  rw [andThen, h]

/-- Behind an error no other step is taken. -/
theorem andThen_error {e : SchemaError} (h : first.outcome = .error e) :
    first.andThen next = ⟨first.log, .error e⟩ := by
  rw [andThen, h]

/-- Going on with a success changes the value alone. -/
theorem andThen_succeed (first : Logged α) (g : α → β) :
    (first.andThen fun a => succeed (g a)) = ⟨first.log, first.outcome.map g⟩ := by
  rcases first with ⟨log, e | a⟩
  · rfl
  · simp [andThen, succeed, Except.map]

end Logged

/-- An outcome that passes a test is a success. -/
theorem exists_ok_of_any {ε α : Type} {r : Except ε α} {p : α → Bool} (h : r.toOption.any p = true) :
    ∃ a, r = .ok a ∧ p a = true := by
  cases r with
  | error e => cases h
  | ok a => exact ⟨a, rfl, h⟩

/-- The error of an outcome that is a failure. -/
def errorOf? {ε α : Type} : Except ε α → Option ε
  | .ok _ => none
  | .error e => some e

/-- The error of a result is the whole result. -/
theorem eq_error_of_errorOf? {ε α : Type} {r : Except ε α} {e : ε} (h : errorOf? r = some e) :
    r = .error e := by
  cases r with
  | error e' => rw [Option.some.inj h]
  | ok a => cases h

end ThetaSchema
