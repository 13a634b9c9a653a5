import ThetaSchema.Proofs.Graph.Sites
import ThetaSchema.Proofs.Schema.WellFormed

/-!
# The parts of well-formed schemas

In a well-formed schema records, variants, enumerations and newtypes are the whole type of a definition;
whatever stands inside the type of a definition is a type expression of some level.

Main results:

- `TypeExpr.WellFormed.inside`: what stands in the type of a definition.
- `SchemaModule.WellFormed.definition`: the definitions of a well-formed module are well-formed.
-/

namespace ThetaSchema

variable {m : Metadata} {u e : TypeExpr}

/-- What stands in a type of some level is a type of some level. -/
theorem TypeExpr.Fits.inside {level : TypeLevel} (h : e.Fits m level) (part : u.Inside e) :
    ∃ level', u.Fits m level' := by
  induction part generalizing level with
  | self => exact ⟨level, h⟩
  | array part ih => cases level <;> exact ih h
  | map part ih => cases level <;> exact ih h
  | optional part ih =>
    cases level with
    | atom => cases h
    | signature => exact ih h
  | newtype part | record mem part | variant mem field part => cases level <;> cases h

/-- What stands in the type of a definition is the whole type, or a type of some level. -/
theorem TypeExpr.WellFormed.inside {name : QualifiedName} (h : e.WellFormed m name) (part : u.Inside e) :
    u = e ∨ ∃ level, u.Fits m level := by
  cases part with
  | self => exact .inl rfl
  | array part => exact .inr (TypeExpr.Fits.inside h (.array part))
  | map part => exact .inr (TypeExpr.Fits.inside h (.map part))
  | optional part => exact .inr (TypeExpr.Fits.inside h (.optional part))
  | newtype part => exact .inr (h.2.inside part)
  | record mem part => exact .inr ((h.2 _ mem).type.inside part)
  | variant mem field part => exact .inr (((h.2.2 _ mem).fields _ field).type.inside part)

/-- The definitions of a well-formed module are well-formed. -/
theorem SchemaModule.WellFormed.definition {x : SchemaModule} (h : x.WellFormed) {d : Definition}
    (mem : d ∈ x.definitions) : d.WellFormed x.metadata := by
  rcases List.mem_filterMap.mp mem with ⟨s, inside, makes⟩
  cases s with
  | imports l moduleName => cases makes
  | defines d' =>
    cases makes
    exact h _ inside

end ThetaSchema
