import Mathlib.Data.List.Forall2
import ThetaSchema.Proofs.Schema.Unlocated

/-!
# Schemas in other places

Two schemas that differ in their locations alone are compared by a relation on locations, which has to hold
of every node of the one and the same node of the other.

Main definitions:

- `TypeExpr.Relocated`, `Statement.Relocated`: trees whose locations are related node by node.

Main results:

- `TypeExpr.Relocated.location`: related trees have related locations.
- `Statement.Relocated.unlocated_eq`: related statements are equal up to locations.
-/

namespace ThetaSchema

variable {τ : Type}

/-! ## Trees -/

/-- Fields with related locations and types that are equal otherwise. -/
inductive FieldOf.Relocated (R : Location → Location → Prop) (S : τ → τ → Prop) :
    FieldOf τ → FieldOf τ → Prop
  | intro {l l' : Location} (moved : R l l') (name : Text) (doc : Option Text) {type type' : τ}
      (inside : S type type') : Relocated R S ⟨l, name, doc, type⟩ ⟨l', name, doc, type'⟩

/-- Cases with related locations and fields that are equal otherwise. -/
inductive CaseOf.Relocated (R : Location → Location → Prop) (S : τ → τ → Prop) :
    CaseOf τ → CaseOf τ → Prop
  | intro {l l' : Location} (moved : R l l') (name : QualifiedName) (doc : Option Text)
      {fields fields' : List (FieldOf τ)} (inside : List.Forall₂ (FieldOf.Relocated R S) fields fields') :
      Relocated R S ⟨l, name, doc, fields⟩ ⟨l', name, doc, fields'⟩

/-- Type expressions with related locations at every node that are equal otherwise.  The form `absent` has no
location, so it is related to nothing. -/
inductive TypeExpr.Relocated (R : Location → Location → Prop) : TypeExpr → TypeExpr → Prop
  | primitive {l l' : Location} (moved : R l l') (kind : Primitive) :
      Relocated R (.primitive l kind) (.primitive l' kind)
  | fixed {l l' : Location} (moved : R l l') (size : UInt64) : Relocated R (.fixed l size) (.fixed l' size)
  | array {l l' : Location} {e e' : TypeExpr} (moved : R l l') (element : Relocated R e e') :
      Relocated R (.array l e) (.array l' e')
  | map {l l' : Location} {e e' : TypeExpr} (moved : R l l') (value : Relocated R e e') :
      Relocated R (.map l e) (.map l' e')
  | optional {l l' : Location} {e e' : TypeExpr} (moved : R l l') (element : Relocated R e e') :
      Relocated R (.optional l e) (.optional l' e')
  | reference {l l' : Location} (moved : R l l') (name : QualifiedName) :
      Relocated R (.reference l name) (.reference l' name)
  | record {l l' : Location} {fields fields' : List (FieldOf TypeExpr)} (moved : R l l') (name : QualifiedName)
      (inside : List.Forall₂ (FieldOf.Relocated R (Relocated R)) fields fields') :
      Relocated R (.record l name fields) (.record l' name fields')
  | variant {l l' : Location} {cases cases' : List (CaseOf TypeExpr)} (moved : R l l') (name : QualifiedName)
      (inside : List.Forall₂ (CaseOf.Relocated R (Relocated R)) cases cases') :
      Relocated R (.variant l name cases) (.variant l' name cases')
  | enumeration {l l' : Location} (moved : R l l') (name : QualifiedName) (symbols : List Text) :
      Relocated R (.enumeration l name symbols) (.enumeration l' name symbols)
  | newtype {l l' : Location} {e e' : TypeExpr} (moved : R l l') (name : QualifiedName)
      (underlying : Relocated R e e') : Relocated R (.newtype l name e) (.newtype l' name e')

/-- Definitions with related locations that are equal otherwise. -/
inductive Definition.Relocated (R : Location → Location → Prop) : Definition → Definition → Prop
  | intro {l l' : Location} (moved : R l l') (name : QualifiedName) (doc : Option Text)
      {type type' : TypeExpr} (inside : TypeExpr.Relocated R type type') :
      Relocated R ⟨l, name, doc, type⟩ ⟨l', name, doc, type'⟩

/-- Statements with related locations that are equal otherwise. -/
inductive Statement.Relocated (R : Location → Location → Prop) : Statement → Statement → Prop
  | imports {l l' : Location} (moved : R l l') (moduleName : Text) :
      Relocated R (.imports l moduleName) (.imports l' moduleName)
  | defines {d d' : Definition} (definition : Definition.Relocated R d d') :
      Relocated R (.defines d) (.defines d')

variable {R : Location → Location → Prop}

/-- Related trees have related locations. -/
theorem TypeExpr.Relocated.location {e e' : TypeExpr} (h : TypeExpr.Relocated R e e') :
    R e.location e'.location := by
  cases h <;> assumption

/-! ## Equality up to locations -/

mutual

/-- Related type expressions are equal up to locations. -/
theorem TypeExpr.Relocated.unlocated_eq {e e' : TypeExpr} (h : TypeExpr.Relocated R e e') :
    e.unlocated = e'.unlocated := by
  match h with
  | .primitive _ kind => rfl
  | .fixed _ size => rfl
  | .array _ element => rw [TypeExpr.unlocated, TypeExpr.unlocated, element.unlocated_eq]
  | .map _ value => rw [TypeExpr.unlocated, TypeExpr.unlocated, value.unlocated_eq]
  | .optional _ element => rw [TypeExpr.unlocated, TypeExpr.unlocated, element.unlocated_eq]
  | .reference _ name => rfl
  | .record _ name inside => rw [TypeExpr.unlocated, TypeExpr.unlocated, unlocatedFields_eq_of_relocated inside]
  | .variant _ name inside => rw [TypeExpr.unlocated, TypeExpr.unlocated, unlocatedCases_eq_of_relocated inside]
  | .enumeration _ name symbols => rfl
  | .newtype _ name underlying => rw [TypeExpr.unlocated, TypeExpr.unlocated, underlying.unlocated_eq]

/-- Fields that differ in locations alone are the same without them. -/
theorem unlocatedFields_eq_of_relocated {fields fields' : List (FieldOf TypeExpr)}
    (h : List.Forall₂ (FieldOf.Relocated R (TypeExpr.Relocated R)) fields fields') :
    unlocatedFields fields = unlocatedFields fields' := by
  match h with
  | .nil => rfl
  | .cons (.intro _ name doc type) more =>
    rw [unlocatedFields, unlocatedFields, type.unlocated_eq, unlocatedFields_eq_of_relocated more]

/-- Cases that differ in locations alone are the same without them. -/
theorem unlocatedCases_eq_of_relocated {cases cases' : List (CaseOf TypeExpr)}
    (h : List.Forall₂ (CaseOf.Relocated R (TypeExpr.Relocated R)) cases cases') :
    unlocatedCases cases = unlocatedCases cases' := by
  match h with
  | .nil => rfl
  | .cons (.intro _ name doc fields) more =>
    rw [unlocatedCases, unlocatedCases, unlocatedFields_eq_of_relocated fields,
      unlocatedCases_eq_of_relocated more]

end

/-- Related definitions are equal up to locations. -/
theorem Definition.Relocated.unlocated_eq {d d' : Definition} (h : Definition.Relocated R d d') :
    d.unlocated = d'.unlocated := by
  cases h with
  | intro _ name doc type => rw [Definition.unlocated, Definition.unlocated, type.unlocated_eq]

/-- Related statements are equal up to locations. -/
theorem Statement.Relocated.unlocated_eq {s s' : Statement} (h : Statement.Relocated R s s') :
    s.unlocated = s'.unlocated := by
  cases h with
  | imports => rfl
  | defines definition => rw [Statement.unlocated, Statement.unlocated, definition.unlocated_eq]

/-- Related lists of statements are equal up to locations. -/
theorem map_unlocated_eq_of_relocated {statements statements' : List Statement}
    (h : List.Forall₂ (Statement.Relocated R) statements statements') :
    statements.map Statement.unlocated = statements'.map Statement.unlocated := by
  induction h with
  | nil => rfl
  | cons first _ ih => rw [List.map_cons, List.map_cons, first.unlocated_eq, ih]

end ThetaSchema
