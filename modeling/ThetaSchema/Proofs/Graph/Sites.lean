import Mathlib.Logic.Basic
import ThetaSchema.Graph.Validation

/-!
# The sites of a type

The walk through a type meets every node at any depth, and every case of a variant with the names of the
cases before it.  A second item with a key is met exactly when the key is repeated.

Main definitions:

- `TypeExpr.Inside`: a type stands in another one, at any depth.
- `TypeExpr.rootSites`: the sites of a type that are not inside one of its parts.

Main results:

- `mem_map_secondOccurrences`: a key has a second occurrence exactly when it is repeated.
- `TypeExpr.mem_sites_iff`: the sites of a type are the root sites of what stands in it.
-/

namespace ThetaSchema

/-! ## Repeated keys -/

section

variable {α κ : Type} [DecidableEq κ] {key : α → κ}

/-- A second occurrence is one with exactly one item of its key before it. -/
theorem mem_secondOccurrencesAfter {a : α} {earlier : List κ} {items : List α} :
    a ∈ secondOccurrencesAfter key earlier items ↔
      ∃ before after, items = before ++ a :: after ∧ (earlier ++ before.map key).count (key a) = 1 := by
  induction items generalizing earlier with
  | nil => simp [secondOccurrencesAfter]
  | cons b items ih =>
    have later : a ∈ secondOccurrencesAfter key (earlier ++ [key b]) items ↔
        ∃ before after, items = before ++ a :: after ∧
          (earlier ++ (b :: before).map key).count (key a) = 1 := by
      simp only [ih, List.append_assoc, List.singleton_append, List.map_cons]
    have split : (∃ before after, b :: items = before ++ a :: after ∧
        (earlier ++ before.map key).count (key a) = 1) ↔
        (a = b ∧ earlier.count (key b) = 1) ∨ a ∈ secondOccurrencesAfter key (earlier ++ [key b]) items := by
      rw [later]
      constructor
      · rintro ⟨_ | ⟨c, before⟩, after, same, once⟩
        · cases same
          exact .inl ⟨rfl, by simpa using once⟩
        · cases same
          exact .inr ⟨before, after, rfl, once⟩
      · rintro (⟨rfl, once⟩ | ⟨before, after, rfl, once⟩)
        · exact ⟨[], items, rfl, by simpa using once⟩
        · exact ⟨b :: before, after, rfl, once⟩
    rw [split, secondOccurrencesAfter]
    by_cases once : earlier.count (key b) = 1
    · rw [if_pos once, List.mem_cons]
      simp [once]
    · rw [if_neg once]
      simp [once]

/-- A second occurrence comes behind exactly one item with its key. -/
theorem mem_secondOccurrences {a : α} {items : List α} :
    a ∈ secondOccurrences key items ↔
      ∃ before after, items = before ++ a :: after ∧ (before.map key).count (key a) = 1 := by
  rw [secondOccurrences, mem_secondOccurrencesAfter]
  simp only [List.nil_append]

/-- Where `n` items with a key came before, a repeated key has a second occurrence. -/
theorem exists_second {k : κ} {items : List α} {n : Nat} (few : n ≤ 1)
    (repeated : 2 ≤ n + (items.map key).count k) :
    ∃ before a after, items = before ++ a :: after ∧ key a = k ∧ n + (before.map key).count k = 1 := by
  induction items generalizing n with
  | nil =>
    simp at repeated
    omega
  | cons b items ih =>
    rw [List.map_cons, List.count_cons] at repeated
    by_cases same : key b = k
    · by_cases second : n = 1
      · exact ⟨[], b, items, rfl, same, by simp [second]⟩
      · have more : 2 ≤ 1 + (items.map key).count k := by
          rw [same, beq_self_eq_true, if_pos rfl] at repeated
          omega
        rcases ih (Nat.le_refl 1) more with ⟨before, a, after, rfl, isKey, once⟩
        refine ⟨b :: before, a, after, rfl, isKey, ?_⟩
        rw [List.map_cons, List.count_cons, same, beq_self_eq_true, if_pos rfl]
        omega
    · rw [if_neg (by simpa using same)] at repeated
      rcases ih few (by omega) with ⟨before, a, after, rfl, isKey, once⟩
      refine ⟨b :: before, a, after, rfl, isKey, ?_⟩
      rw [List.map_cons, List.count_cons, if_neg (by simpa using same)]
      omega

/-- A key has a second occurrence exactly when it is repeated. -/
theorem exists_second_iff {k : κ} {items : List α} :
    (∃ before a after, items = before ++ a :: after ∧ key a = k ∧ (before.map key).count k = 1) ↔
      2 ≤ (items.map key).count k := by
  constructor
  · rintro ⟨before, a, after, rfl, rfl, once⟩
    rw [List.map_append, List.count_append, List.map_cons, List.count_cons_self, once]
    omega
  · intro repeated
    have more : 2 ≤ 0 + (items.map key).count k := by omega
    rcases exists_second (Nat.zero_le 1) more with ⟨before, a, after, split, same, once⟩
    exact ⟨before, a, after, split, same, by omega⟩

/-- A key is listed among the second occurrences exactly when it is repeated. -/
theorem mem_map_secondOccurrences [equality : BEq κ] [LawfulBEq κ] {k : κ} {items : List α} :
    k ∈ (secondOccurrences key items).map key ↔ 2 ≤ (items.map key).count k := by
  rw [lawful_beq_subsingleton equality instBEqOfDecidableEq, ← exists_second_iff, List.mem_map]
  constructor
  · rintro ⟨a, mem, rfl⟩
    rcases mem_secondOccurrences.mp mem with ⟨before, after, same, once⟩
    exact ⟨before, a, after, same, rfl, once⟩
  · rintro ⟨before, a, after, same, rfl, once⟩
    exact ⟨a, mem_secondOccurrences.mpr ⟨before, after, same, once⟩, rfl⟩

end

/-! ## Types inside types -/

/-- A type stands in another one: it is the whole, or it stands in a part. -/
inductive TypeExpr.Inside (u : TypeExpr) : TypeExpr → Prop where
  | self : Inside u u
  | array {l : Location} {e : TypeExpr} (part : Inside u e) : Inside u (.array l e)
  | map {l : Location} {e : TypeExpr} (part : Inside u e) : Inside u (.map l e)
  | optional {l : Location} {e : TypeExpr} (part : Inside u e) : Inside u (.optional l e)
  | newtype {l : Location} {name : QualifiedName} {e : TypeExpr} (part : Inside u e) :
      Inside u (.newtype l name e)
  | record {l : Location} {name : QualifiedName} {fields : List RecordField} {f : RecordField}
      (mem : f ∈ fields) (part : Inside u f.type) : Inside u (.record l name fields)
  | variant {l : Location} {name : QualifiedName} {cases : List VariantCase} {c : VariantCase}
      {f : RecordField} (mem : c ∈ cases) (field : f ∈ c.fields) (part : Inside u f.type) :
      Inside u (.variant l name cases)

/-- The cases of a variant behind others, as sites. -/
def caseHeads (variant : QualifiedName) (earlier : List QualifiedName) : List VariantCase → List Site
  | [] => []
  | c :: cases => .case variant earlier c :: caseHeads variant (earlier ++ [c.name]) cases

/-- The sites of a type that are not inside one of its parts. -/
def TypeExpr.rootSites : TypeExpr → List Site
  | .reference location name => [.reference location name]
  | .record _ name fields => [.record name fields]
  | .variant _ name cases => caseHeads name [] cases
  | _ => []

/-- The heads of the cases of a variant come with the names of the cases before them. -/
theorem mem_caseHeads_iff {s : Site} {variant : QualifiedName} {earlier : List QualifiedName}
    {cases : List VariantCase} :
    s ∈ caseHeads variant earlier cases ↔ ∃ before c after, cases = before ++ c :: after ∧
      s = .case variant (earlier ++ before.map CaseOf.name) c := by
  induction cases generalizing earlier with
  | nil => simp [caseHeads]
  | cons c cases ih =>
    rw [caseHeads, List.mem_cons, ih]
    constructor
    · rintro (rfl | ⟨before, d, after, rfl, rfl⟩)
      · exact ⟨[], c, cases, rfl, by simp⟩
      · exact ⟨c :: before, d, after, rfl, by simp⟩
    · rintro ⟨_ | ⟨b, before⟩, d, after, same, rfl⟩
      · cases same
        exact .inl (by simp)
      · cases same
        exact .inr ⟨before, d, after, rfl, by simp⟩

mutual

/-- The sites of a type are the root sites of what stands in it. -/
theorem TypeExpr.mem_sites_iff (s : Site) (e : TypeExpr) :
    s ∈ e.sites ↔ ∃ u : TypeExpr, u.Inside e ∧ s ∈ u.rootSites := by
  cases e with
  | absent | primitive | fixed | enumeration =>
    rw [TypeExpr.sites]
    constructor
    · intro mem
      cases mem
    · rintro ⟨u, ⟨⟩, mem⟩
      exact mem
  | reference location name =>
    rw [TypeExpr.sites]
    constructor
    · intro mem
      exact ⟨_, .self, mem⟩
    · rintro ⟨u, ⟨⟩, mem⟩
      exact mem
  | array location element | map location element | optional location element
  | newtype location name element =>
    rw [TypeExpr.sites, TypeExpr.mem_sites_iff s element]
    constructor
    · rintro ⟨u, inside, mem⟩
      exact ⟨u, by constructor; exact inside, mem⟩
    · rintro ⟨u, inside, mem⟩
      cases inside with
      | self => cases mem
      | _ => exact ⟨u, ‹_›, mem⟩
  | record location name fields =>
    rw [TypeExpr.sites, List.mem_cons, mem_fieldSites_iff s fields]
    constructor
    · rintro (rfl | ⟨f, field, u, inside, mem⟩)
      · exact ⟨_, .self, List.mem_singleton.mpr rfl⟩
      · exact ⟨u, .record field inside, mem⟩
    · rintro ⟨u, inside, mem⟩
      cases inside with
      | self => exact .inl (List.mem_singleton.mp mem)
      | record field part => exact .inr ⟨_, field, u, part, mem⟩
  | variant location name cases =>
    rw [TypeExpr.sites, mem_caseSites_iff s name [] cases]
    constructor
    · rintro (head | ⟨c, inCases, f, field, u, inside, mem⟩)
      · exact ⟨_, .self, head⟩
      · exact ⟨u, .variant inCases field inside, mem⟩
    · rintro ⟨u, inside, mem⟩
      cases inside with
      | self => exact .inl mem
      | variant inCases field part => exact .inr ⟨_, inCases, _, field, u, part, mem⟩

/-- The sites of fields are those of the types inside of their types. -/
theorem mem_fieldSites_iff (s : Site) (fields : List (FieldOf TypeExpr)) :
    s ∈ fieldSites fields ↔ ∃ f ∈ fields, ∃ u : TypeExpr, u.Inside f.type ∧ s ∈ u.rootSites := by
  match fields with
  | [] => simp [fieldSites]
  | ⟨location, name, doc, type⟩ :: fields =>
    rw [fieldSites, List.mem_append, TypeExpr.mem_sites_iff s type, mem_fieldSites_iff s fields]
    simp only [List.mem_cons, exists_eq_or_imp]

/-- The sites of cases are their heads and those of the types inside of their fields. -/
theorem mem_caseSites_iff (s : Site) (variant : QualifiedName) (earlier : List QualifiedName)
    (cases : List (CaseOf TypeExpr)) :
    s ∈ caseSites variant earlier cases ↔ s ∈ caseHeads variant earlier cases ∨
      ∃ c ∈ cases, ∃ f ∈ c.fields, ∃ u : TypeExpr, u.Inside f.type ∧ s ∈ u.rootSites := by
  match cases with
  | [] => simp [caseSites, caseHeads]
  | ⟨location, name, doc, fields⟩ :: cases =>
    rw [caseSites, List.cons_append, List.mem_cons, List.mem_append, mem_fieldSites_iff s fields,
      mem_caseSites_iff s variant (earlier ++ [name]) cases, caseHeads, List.mem_cons]
    simp only [List.mem_cons, exists_eq_or_imp]
    constructor
    · rintro (here | field | head | case)
      · exact .inl (.inl here)
      · exact .inr (.inl field)
      · exact .inl (.inr head)
      · exact .inr (.inr case)
    · rintro ((here | head) | field | case)
      · exact .inl here
      · exact .inr (.inr (.inl head))
      · exact .inr (.inl field)
      · exact .inr (.inr (.inr case))

end

/-- The references among the sites of a type are those that stand in it. -/
theorem TypeExpr.reference_mem_sites_iff {l : Location} {n : QualifiedName} {e : TypeExpr} :
    .reference l n ∈ e.sites ↔ (TypeExpr.reference l n).Inside e := by
  rw [TypeExpr.mem_sites_iff]
  constructor
  · rintro ⟨u, inside, root⟩
    cases u with
    | reference l' n' =>
      cases List.mem_singleton.mp root
      exact inside
    | variant l' n' cases =>
      rcases mem_caseHeads_iff.mp root with ⟨before, c, after, -, same⟩
      cases same
    | record | absent | primitive | fixed | array | map | optional | enumeration | newtype =>
      simp [TypeExpr.rootSites] at root
  · intro inside
    exact ⟨_, inside, List.mem_singleton.mpr rfl⟩

end ThetaSchema
