import ThetaSchema.Version

/-!
# Module metadata and language features

The header of a module names the language version it is written in and the version of its encoding.
Three constructs exist only from a certain language version on; below it, their keywords are ordinary
identifiers.
-/

namespace ThetaSchema

/-- What the header of a module says, together with the name of the module. -/
structure Metadata where
  language : Version
  encoding : Version
  moduleName : Text
  deriving DecidableEq, Repr

/-- The language versions that are read. -/
def supportedLanguage : VersionRange :=
  ⟨"language-version", ⟨1, 0, 0⟩, ⟨1, 2, 0⟩⟩

/-- The encoding versions that are read. -/
def supportedEncoding : VersionRange :=
  ⟨"encoding-version", ⟨1, 0, 0⟩, ⟨2, 0, 0⟩⟩

/-- A construct of the language that not every language version has. -/
inductive Feature where
  | enumeration
  | fixed
  | uuid
  deriving DecidableEq, Repr

namespace Feature

/-- The keyword that starts a construct. -/
def keyword : Feature → Text
  | enumeration => "enum"
  | fixed => "Fixed"
  | uuid => "UUID"

/-- The first language version that has a construct. -/
def minimum : Feature → Version
  | enumeration => ⟨1, 1, 0⟩
  | fixed => ⟨1, 1, 0⟩
  | uuid => ⟨1, 1, 0⟩

/-- Whether a language version has a construct. -/
def enabledAt (f : Feature) (language : Version) : Bool :=
  f.minimum ≤ language

end Feature

/-- The use of a construct by a module whose language version does not have it. -/
structure VersionMismatch where
  feature : Text
  required : Version
  actual : Version
  deriving DecidableEq, Repr

namespace VersionMismatch

/-- The mismatch of a feature and a language version below its minimum. -/
def ofFeature (f : Feature) (actual : Version) : VersionMismatch :=
  ⟨f.keyword, f.minimum, actual⟩

/-- The message about a mismatch. -/
def message (m : VersionMismatch) : Text :=
  Text.quoted m.feature ++ " requires language-version >= " ++ m.required.render ++
    " but the module declares language-version " ++ m.actual.render

end VersionMismatch

end ThetaSchema
