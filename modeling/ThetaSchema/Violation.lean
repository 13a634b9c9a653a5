import ThetaSchema.QualifiedName

/-!
# Violations

A violation is a rule of well-formedness that a module breaks.  Reports list violations in a fixed order:
by module, by file, by rule, and then by message.
-/

namespace ThetaSchema

/-- A broken rule, with the names that it is about. -/
inductive BrokenRule where
  | duplicateRecordField (record : QualifiedName) (field : Text)
  | duplicateCaseName (variant case : QualifiedName)
  | duplicateCaseField (variant case : QualifiedName) (field : Text)
  | undefinedType (name : QualifiedName)
  | duplicateTypeName (name : QualifiedName)
  deriving DecidableEq, Repr

namespace BrokenRule

/-- The place of a rule in reports. -/
def rank : BrokenRule → Nat
  | duplicateRecordField .. => 0
  | duplicateCaseName .. => 1
  | duplicateCaseField .. => 2
  | undefinedType .. => 3
  | duplicateTypeName .. => 4

/-- The message about a broken rule. -/
def message : BrokenRule → Text
  | duplicateRecordField record field =>
    "The record " ++ Text.quoted record.render ++ " has multiple fields called " ++ Text.quoted field ++ "."
  | duplicateCaseName variant case =>
    "The variant " ++ Text.quoted variant.render ++ " has multiple cases called " ++
      Text.quoted case.render ++ "."
  | duplicateCaseField variant case field =>
    "The case " ++ Text.quoted case.render ++ " of the variant " ++ Text.quoted variant.render ++
      " has multiple fields called " ++ Text.quoted field ++ "."
  | undefinedType name => "The type " ++ Text.quoted name.render ++ " is not defined."
  | duplicateTypeName name =>
    "The type " ++ Text.quoted name.render ++ " has been defined multiple times.\n" ++
      "Fully qualified names have to be globally unique in Theta schemas."

end BrokenRule

/-- A broken rule in a module, which is known by its name and its file. -/
structure Violation where
  moduleName : Text
  file : Text
  rule : BrokenRule
  deriving DecidableEq, Repr

namespace Violation

/-- The order of reports: by module name, file, rule and message. -/
instance : LT Violation where
  lt a b := a.moduleName < b.moduleName ∨ a.moduleName = b.moduleName ∧ (a.file < b.file ∨ a.file = b.file ∧
    (a.rule.rank < b.rule.rank ∨ a.rule.rank = b.rule.rank ∧ a.rule.message < b.rule.message))

instance : DecidableLT Violation := fun a b =>
  inferInstanceAs (Decidable (a.moduleName < b.moduleName ∨ a.moduleName = b.moduleName ∧
    (a.file < b.file ∨ a.file = b.file ∧
      (a.rule.rank < b.rule.rank ∨ a.rule.rank = b.rule.rank ∧ a.rule.message < b.rule.message))))

/-- The paragraph about a violation in the report on invalid modules. -/
def render (v : Violation) : Text :=
  "Error in module " ++ Text.quoted v.moduleName ++ Text.onlyIf (!v.file.isEmpty) (" (" ++ v.file ++ ")") ++
    ":\n" ++ v.rule.message ++ "\n"

/-- Sorts things by the violation each has; those with equally ranked violations keep their order. -/
def sortBy (key : α → Violation) (items : List α) : List α :=
  items.mergeSort fun a b => !decide (key b < key a)

/-- Violations in the order of reports. -/
def sorted (vs : List Violation) : List Violation :=
  sortBy id vs

end Violation

end ThetaSchema
