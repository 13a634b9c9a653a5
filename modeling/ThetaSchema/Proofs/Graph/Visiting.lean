import ThetaSchema.Proofs.Graph.Exactness

/-!
# The order of visiting

Every finding has a position: the index of its module, the index of the definition in it, and the way from
the definition to the place that shows the breach.  Positions are compared number by number, so modules come
by index, definitions and the parts of their types in the order of the source, and names that are defined
more than once behind all of them.  The walk through a graph makes its findings in this order.

Main definitions:

- `Listed`: a list has in it what stands at positions, by ascending position.
- `TypeExpr.BreachAt`: a breach of a rule at a position in a type.
- `ModuleGraph.FoundAt`: a finding at a position in a graph.
- `ModuleGraph.FirstFound`: the place of the first finding of a violation.

Main results:

- `TypeExpr.breaches_listed`: the sites of a type show its breaches in order.
- `ModuleGraph.firstFound_of_find?`: the first finding of the walk is the one at the first position.
-/

namespace ThetaSchema

/-! ## Lists by position -/

section

variable {α β : Type} {P Q : List Nat → α → Prop} {l l' : List α}

/-- The first of two ways goes before the second one. -/
theorem cons_lt_cons_of_lt {j k : Nat} (less : j < k) (p q : List Nat) : j :: p < k :: q :=
  List.cons_lt_cons_iff.mpr (.inl less)

/-- A list of what stands at positions, each position before the next. -/
def Listed (P : List Nat → α → Prop) (l : List α) : Prop :=
  ∃ placed : List (List Nat × α), placed.map Prod.snd = l ∧ placed.Pairwise (fun x y => x.1 < y.1) ∧
    ∀ p a, (p, a) ∈ placed ↔ P p a

namespace Listed

theorem nil (none : ∀ p a, ¬ P p a) : Listed P [] :=
  ⟨[], rfl, .nil, fun p a => iff_of_false List.not_mem_nil (none p a)⟩

theorem singleton (a : α) : Listed (fun p b => p = [] ∧ b = a) [a] :=
  ⟨[([], a)], rfl, List.pairwise_singleton _ _, by simp⟩

theorem congr (h : Listed P l) (same : ∀ p a, P p a ↔ Q p a) : Listed Q l := by
  rcases h with ⟨placed, rfl, ascending, mem⟩
  exact ⟨placed, rfl, ascending, fun p a => (mem p a).trans (same p a)⟩

/-- Two lists one behind the other, the positions of the first before those of the second. -/
theorem append (h : Listed P l) (h' : Listed Q l')
    (before : ∀ p a q b, P p a → Q q b → p < q) : Listed (fun p a => P p a ∨ Q p a) (l ++ l') := by
  rcases h with ⟨placed, rfl, ascending, mem⟩
  rcases h' with ⟨placed', rfl, ascending', mem'⟩
  refine ⟨placed ++ placed', List.map_append, ?_, fun p a => ?_⟩
  · refine List.pairwise_append.mpr ⟨ascending, ascending', ?_⟩
    rintro ⟨p, a⟩ first ⟨q, b⟩ second
    exact before p a q b ((mem p a).mp first) ((mem' q b).mp second)
  · rw [List.mem_append, mem, mem']

/-- What holds of the positions in a list may be moved one step further in. -/
theorem under (k : Nat) (h : Listed P l) : Listed (fun p a => ∃ q, p = k :: q ∧ P q a) l := by
  rcases h with ⟨placed, rfl, ascending, mem⟩
  refine ⟨placed.map fun x => (k :: x.1, x.2), ?_, ?_, fun p a => ?_⟩
  · rw [List.map_map]
    rfl
  · rw [List.pairwise_map]
    exact ascending.imp fun less => List.cons_lt_cons_iff.mpr (.inr ⟨rfl, less⟩)
  · rw [List.mem_map]
    constructor
    · rintro ⟨⟨q, b⟩, inside, same⟩
      cases same
      exact ⟨q, rfl, (mem q b).mp inside⟩
    · rintro ⟨q, rfl, holds⟩
      exact ⟨(q, a), (mem q a).mpr holds, rfl⟩

/-- What stands below two numbers, the smaller one first. -/
theorem under_append {j k : Nat} (less : j < k) (h : Listed P l) (h' : Listed Q l') :
    Listed (fun p a => (∃ q, p = j :: q ∧ P q a) ∨ ∃ q, p = k :: q ∧ Q q a) (l ++ l') := by
  refine (h.under j).append (h'.under k) ?_
  rintro _ _ _ _ ⟨p, rfl, -⟩ ⟨q, rfl, -⟩
  exact cons_lt_cons_of_lt less p q

theorem map (f : α → β) (h : Listed P l) : Listed (fun p b => ∃ a, P p a ∧ b = f a) (l.map f) := by
  rcases h with ⟨placed, rfl, ascending, mem⟩
  refine ⟨placed.map fun x => (x.1, f x.2), ?_, ?_, fun p b => ?_⟩
  · rw [List.map_map, List.map_map]
    rfl
  · rw [List.pairwise_map]
    exact ascending
  · rw [List.mem_map]
    constructor
    · rintro ⟨⟨q, a⟩, inside, same⟩
      cases same
      exact ⟨a, (mem q a).mp inside, rfl⟩
    · rintro ⟨a, holds, rfl⟩
      exact ⟨(p, a), (mem p a).mpr holds, rfl⟩

/-- Of the things with a property, the first in the list stands at the first position. -/
theorem find? {q : α → Bool} {a : α} (h : Listed P l) (found : l.find? q = some a) :
    ∃ p, P p a ∧ ∀ p' a', P p' a' → q a' = true → p < p' ∨ (p' = p ∧ a' = a) := by
  rcases h with ⟨placed, rfl, ascending, mem⟩
  rw [List.find?_map, Option.map_eq_some_iff] at found
  rcases found with ⟨⟨p, a⟩, first, rfl⟩
  rcases List.find?_eq_some_iff_append.mp first with ⟨-, before, after, rfl, others⟩
  refine ⟨p, (mem p a).mp (by simp), fun p' a' holds holds' => ?_⟩
  rcases List.mem_append.mp ((mem p' a').mpr holds) with early | late
  · have other := others _ early
    simp [holds'] at other
  · rcases List.mem_cons.mp late with same | behind
    · cases same
      exact .inr ⟨rfl, rfl⟩
    · have tail := (List.pairwise_append.mp ascending).2.1
      exact .inl ((List.pairwise_cons.mp tail).1 _ behind)

end Listed

/-! ### Items of a list -/

/-- What stands at a position below an item of a list: the first number is the index of the item, and the
items before it may matter. -/
def Indexed (items : List β) (P : List β → β → List Nat → α → Prop) : List Nat → α → Prop
  | [], _ => False
  | k :: p, a => ∃ b, items[k]? = some b ∧ P (items.take k) b p a

namespace Listed

theorem indexed_nil {P : List β → β → List Nat → α → Prop} : Listed (Indexed [] P) ([] : List α) := by
  refine nil fun p a => ?_
  cases p with
  | nil => exact id
  | cons k p =>
    rintro ⟨b, here, -⟩
    cases here

/-- The indices of items go up by one when another item is put in front of them. -/
theorem indexed_shift {items : List β} {P : List β → β → List Nat → α → Prop}
    (h : Listed (Indexed items P) l) :
    Listed (fun p a => ∃ k q, p = (k + 1) :: q ∧ Indexed items P (k :: q) a) l := by
  rcases h with ⟨placed, rfl, ascending, mem⟩
  have below : ∀ x ∈ placed, ∃ k q, x.1 = k :: q := by
    rintro ⟨p, a⟩ inside
    have holds := (mem p a).mp inside
    cases p with
    | nil => cases holds
    | cons k q => exact ⟨k, q, rfl⟩
  refine ⟨placed.map fun x => (x.1.modifyHead (· + 1), x.2), ?_, ?_, fun p a => ?_⟩
  · rw [List.map_map]
    rfl
  · rw [List.pairwise_map]
    refine List.Pairwise.imp_of_mem ?_ ascending
    rintro ⟨p, a⟩ ⟨q, c⟩ inside inside' less
    rcases below _ inside with ⟨k, p, rfl⟩
    rcases below _ inside' with ⟨k', q, rfl⟩
    rw [List.cons_lt_cons_iff] at less
    refine List.cons_lt_cons_iff.mpr (less.imp Nat.succ_lt_succ ?_)
    rintro ⟨same, less⟩
    exact ⟨congrArg (· + 1) same, less⟩
  · rw [List.mem_map]
    constructor
    · rintro ⟨⟨q, c⟩, inside, same⟩
      cases same
      rcases below _ inside with ⟨k, q, rfl⟩
      exact ⟨k, q, rfl, (mem _ c).mp inside⟩
    · rintro ⟨k, q, rfl, holds⟩
      exact ⟨(k :: q, a), (mem _ a).mpr holds, rfl⟩

/-- The first item comes before the others, and is one of the items before each of them. -/
theorem indexed_cons {b : β} {items : List β} {P : List β → β → List Nat → α → Prop}
    (here : Listed (P [] b) l) (others : Listed (Indexed items fun before => P (b :: before)) l') :
    Listed (Indexed (b :: items) P) (l ++ l') := by
  refine ((here.under 0).append others.indexed_shift ?_).congr fun p a => ?_
  · rintro _ _ _ _ ⟨p, rfl, -⟩ ⟨k, q, rfl, -⟩
    exact cons_lt_cons_of_lt (Nat.succ_pos k) p q
  · cases p with
    | nil => simp [Indexed]
    | cons k p =>
      cases k with
      | zero => simp [Indexed]
      | succ k =>
        constructor
        · rintro (⟨q, same, -⟩ | ⟨k, q, same, holds⟩)
          · cases same
          · cases same
            exact holds
        · intro holds
          exact .inr ⟨k, p, rfl, holds⟩

/-- What items are expanded to, one item after the other. -/
theorem flatMap {items : List β} {P : β → List Nat → α → Prop} {f : β → List α}
    (each : ∀ b ∈ items, Listed (P b) (f b)) : Listed (Indexed items fun _ => P) (items.flatMap f) := by
  induction items with
  | nil => exact indexed_nil
  | cons b items ih =>
    rw [List.flatMap_cons]
    exact indexed_cons (each b List.mem_cons_self) (ih fun c mem => each c (List.mem_cons_of_mem b mem))

end Listed

namespace Listed

/-- What items are mapped to, by their indices. -/
theorem filterMap {items : List β} {f : β → Option α} :
    Listed (Indexed items fun _ b p a => p = [] ∧ f b = some a) (items.filterMap f) := by
  induction items with
  | nil => exact indexed_nil
  | cons b items ih =>
    rw [List.filterMap_cons]
    cases image : f b with
    | none =>
      rw [← List.nil_append (List.filterMap f items)]
      exact indexed_cons (nil (by simp [image])) ih
    | some a =>
      rw [← List.singleton_append]
      exact indexed_cons ((singleton a).congr (by simp [image, eq_comm])) ih

end Listed

/-- The second items with a key, by their indices. -/
theorem secondOccurrencesAfter_listed {κ : Type} [DecidableEq κ] [equality : BEq κ] [LawfulBEq κ]
    (key : α → κ) (earlier : List κ) (items : List α) :
    Listed (Indexed items fun before a p b => p = [] ∧ b = a ∧ (earlier ++ before.map key).count (key a) = 1)
      (secondOccurrencesAfter key earlier items) := by
  have standard := lawful_beq_subsingleton equality instBEqOfDecidableEq
  subst standard
  induction items generalizing earlier with
  | nil => exact Listed.indexed_nil
  | cons a items ih =>
    have others := (ih (earlier ++ [key a]))
    simp only [List.append_assoc, List.singleton_append, ← List.map_cons] at others
    rw [secondOccurrencesAfter]
    by_cases second : earlier.count (key a) = 1
    · rw [if_pos second, ← List.singleton_append]
      exact Listed.indexed_cons ((Listed.singleton a).congr (by simp [second])) others
    · rw [if_neg second, ← List.nil_append (secondOccurrencesAfter _ _ _)]
      exact Listed.indexed_cons (Listed.nil (by simp [second])) others

end

/-! ## Breaches in a type -/

/-- A type shows a breach at a position, where `undefined` are the names that references may not use.  The
breaches that a record shows itself come before those of its fields; in a variant, each case comes with what
it shows itself before its fields.  Repetitions show at the second item with a name. -/
inductive TypeExpr.BreachAt (undefined : QualifiedName → Prop) : TypeExpr → List Nat → Breach → Prop where
  | reference {l : Location} {name : QualifiedName} (missing : undefined name) :
      BreachAt undefined (.reference l name) [] ⟨.undefinedType name, l⟩
  | array {l : Location} {e : TypeExpr} {p : List Nat} {b : Breach} (part : BreachAt undefined e p b) :
      BreachAt undefined (.array l e) p b
  | map {l : Location} {e : TypeExpr} {p : List Nat} {b : Breach} (part : BreachAt undefined e p b) :
      BreachAt undefined (.map l e) p b
  | optional {l : Location} {e : TypeExpr} {p : List Nat} {b : Breach} (part : BreachAt undefined e p b) :
      BreachAt undefined (.optional l e) p b
  | newtype {l : Location} {name : QualifiedName} {e : TypeExpr} {p : List Nat} {b : Breach}
      (part : BreachAt undefined e p b) : BreachAt undefined (.newtype l name e) p b
  | repeatedField {l : Location} {name : QualifiedName} {fields : List RecordField} {k : Nat}
      {f : RecordField} (here : fields[k]? = some f)
      (second : ((fields.take k).map FieldOf.name).count f.name = 1) :
      BreachAt undefined (.record l name fields) [0, k] ⟨.duplicateRecordField name f.name, f.location⟩
  | field {l : Location} {name : QualifiedName} {fields : List RecordField} {k : Nat} {f : RecordField}
      {p : List Nat} {b : Breach} (here : fields[k]? = some f) (part : BreachAt undefined f.type p b) :
      BreachAt undefined (.record l name fields) (1 :: k :: p) b
  | repeatedCase {l : Location} {name : QualifiedName} {cases : List VariantCase} {k : Nat}
      {c : VariantCase} (here : cases[k]? = some c)
      (second : ((cases.take k).map CaseOf.name).count c.name = 1) :
      BreachAt undefined (.variant l name cases) [k, 0] ⟨.duplicateCaseName name c.name, c.location⟩
  | repeatedCaseField {l : Location} {name : QualifiedName} {cases : List VariantCase} {k j : Nat}
      {c : VariantCase} {f : RecordField} (here : cases[k]? = some c) (inCase : c.fields[j]? = some f)
      (second : ((c.fields.take j).map FieldOf.name).count f.name = 1) :
      BreachAt undefined (.variant l name cases) [k, 1, j]
        ⟨.duplicateCaseField name c.name f.name, f.location⟩
  | caseField {l : Location} {name : QualifiedName} {cases : List VariantCase} {k j : Nat}
      {c : VariantCase} {f : RecordField} {p : List Nat} {b : Breach} (here : cases[k]? = some c)
      (inCase : c.fields[j]? = some f) (part : BreachAt undefined f.type p b) :
      BreachAt undefined (.variant l name cases) (k :: 2 :: j :: p) b

section

variable {undefined : QualifiedName → Prop} {visible : List QualifiedName}

/-- A field with a repeated name at its index, as a breach of the rule that `make` gives for the name. -/
def RepeatedFieldAt (make : Text → BrokenRule) (fields : List RecordField) : List Nat → Breach → Prop :=
  Indexed fields fun before f p b =>
    p = [] ∧ b = ⟨make f.name, f.location⟩ ∧ (before.map FieldOf.name).count f.name = 1

/-- The repeated fields of a record are listed by the indices of their second occurrences. -/
theorem repeatedFields_listed (make : Text → BrokenRule) (fields : List RecordField) :
    Listed (RepeatedFieldAt make fields)
      ((secondOccurrences FieldOf.name fields).map fun f => ⟨make f.name, f.location⟩) := by
  refine ((secondOccurrencesAfter_listed FieldOf.name [] fields).map _).congr fun p b => ?_
  cases p with
  | nil => simp [RepeatedFieldAt, Indexed]
  | cons k p =>
    constructor
    · rintro ⟨f, ⟨_, here, rfl, rfl, second⟩, rfl⟩
      exact ⟨f, here, rfl, rfl, second⟩
    · rintro ⟨f, here, rfl, rfl, second⟩
      exact ⟨f, ⟨f, here, rfl, rfl, second⟩, rfl⟩

/-- What a case shows behind cases with given names: that its name is repeated, the repeated names of its
fields, and what is in their types. -/
def CaseBreachAt (undefined : QualifiedName → Prop) (variant : QualifiedName) (earlier : List QualifiedName)
    (c : VariantCase) (p : List Nat) (b : Breach) : Prop :=
  (∃ q, p = 0 :: q ∧ q = [] ∧ b = ⟨.duplicateCaseName variant c.name, c.location⟩ ∧
      earlier.count c.name = 1) ∨
    (∃ q, p = 1 :: q ∧ RepeatedFieldAt (.duplicateCaseField variant c.name) c.fields q b) ∨
      ∃ q, p = 2 :: q ∧ Indexed c.fields (fun _ f => f.type.BreachAt undefined) q b

/-- A record shows its repeated fields first, and then what its fields break. -/
theorem TypeExpr.record_breachAt_iff {l : Location} {name : QualifiedName} {fields : List RecordField}
    {p : List Nat} {b : Breach} :
    (TypeExpr.record l name fields).BreachAt undefined p b ↔
      (∃ q, p = 0 :: q ∧ RepeatedFieldAt (.duplicateRecordField name) fields q b) ∨
        ∃ q, p = 1 :: q ∧ Indexed fields (fun _ f => f.type.BreachAt undefined) q b := by
  constructor
  · intro shown
    cases shown with
    | repeatedField here second => exact .inl ⟨_, rfl, _, here, rfl, rfl, second⟩
    | field here part => exact .inr ⟨_, rfl, _, here, part⟩
  · rintro (⟨_ | ⟨k, q⟩, rfl, holds⟩ | ⟨_ | ⟨k, q⟩, rfl, holds⟩)
    · cases holds
    · rcases holds with ⟨f, here, rfl, rfl, second⟩
      exact .repeatedField here second
    · cases holds
    · rcases holds with ⟨f, here, part⟩
      exact .field here part

/-- A variant shows what its cases break, one after the other. -/
theorem TypeExpr.variant_breachAt_iff {l : Location} {name : QualifiedName} {cases : List VariantCase}
    {p : List Nat} {b : Breach} :
    (TypeExpr.variant l name cases).BreachAt undefined p b ↔
      Indexed cases (fun before => CaseBreachAt undefined name (before.map CaseOf.name)) p b := by
  constructor
  · intro shown
    cases shown with
    | repeatedCase here second => exact ⟨_, here, .inl ⟨_, rfl, rfl, rfl, second⟩⟩
    | repeatedCaseField here inCase second =>
      exact ⟨_, here, .inr (.inl ⟨_, rfl, _, inCase, rfl, rfl, second⟩)⟩
    | caseField here inCase part => exact ⟨_, here, .inr (.inr ⟨_, rfl, _, inCase, part⟩)⟩
  · intro holds
    cases p with
    | nil => cases holds
    | cons k p =>
      rcases holds with ⟨c, here, ⟨q, rfl, rfl, rfl, second⟩ | ⟨_ | ⟨j, q⟩, rfl, holds⟩ |
        ⟨_ | ⟨j, q⟩, rfl, holds⟩⟩
      · exact .repeatedCase here second
      · cases holds
      · rcases holds with ⟨f, inCase, rfl, rfl, second⟩
        exact .repeatedCaseField here inCase second
      · cases holds
      · rcases holds with ⟨f, inCase, part⟩
        exact .caseField here inCase part

/-- That a name is defined more than once does not show in a type. -/
theorem TypeExpr.BreachAt.rule_ne {e : TypeExpr} {p : List Nat} {b : Breach}
    (h : e.BreachAt undefined p b) (name : QualifiedName) : b.rule ≠ .duplicateTypeName name := by
  induction h with
  | reference | repeatedField | repeatedCase | repeatedCaseField => rintro ⟨⟩
  | array _ ih | map _ ih | optional _ ih | newtype _ ih | field _ _ ih | caseField _ _ _ ih => exact ih

/-- A case lists what it shows itself in front of what its fields show. -/
theorem case_listed {variant : QualifiedName} {earlier : List QualifiedName} {c : VariantCase}
    {l : List Breach} (fields : Listed (Indexed c.fields fun _ f => f.type.BreachAt undefined) l) :
    Listed (CaseBreachAt undefined variant earlier c)
      ((Site.case variant earlier c).breaches visible ++ l) := by
  have name : Listed (fun q b => q = [] ∧ b = ⟨.duplicateCaseName variant c.name, c.location⟩ ∧
      earlier.count c.name = 1) (if earlier.count c.name = 1 then
        [(⟨.duplicateCaseName variant c.name, c.location⟩ : Breach)] else []) := by
    by_cases second : earlier.count c.name = 1
    · rw [if_pos second]
      exact (Listed.singleton _).congr (by simp [second])
    · rw [if_neg second]
      exact Listed.nil (by simp [second])
  have repeats := repeatedFields_listed (.duplicateCaseField variant c.name) c.fields
  rw [Site.breaches, List.append_assoc]
  refine (name.under 0).append (repeats.under_append (by decide : 1 < 2) fields) ?_
  rintro _ _ _ _ ⟨p, rfl, -⟩ (⟨q, rfl, -⟩ | ⟨q, rfl, -⟩)
  · exact cons_lt_cons_of_lt (by decide) p q
  · exact cons_lt_cons_of_lt (by decide) p q

mutual

/-- The sites of a type show its breaches in the order of their positions. -/
theorem TypeExpr.breaches_listed (unseen : ∀ name, undefined name ↔ name ∉ visible) (e : TypeExpr) :
    Listed (e.BreachAt undefined) (e.sites.flatMap (Site.breaches visible)) := by
  cases e with
  | absent | primitive | fixed | enumeration =>
    rw [TypeExpr.sites]
    refine Listed.nil fun p b shown => ?_
    cases shown
  | reference l name =>
    rw [TypeExpr.sites, List.flatMap_cons, List.flatMap_nil, List.append_nil, Site.breaches]
    by_cases seen : name ∈ visible
    · rw [if_pos (List.contains_iff_mem.mpr seen)]
      refine Listed.nil fun p b shown => ?_
      cases shown with
      | reference missing => exact (unseen name).mp missing seen
    · rw [if_neg (by simpa using seen)]
      refine (Listed.singleton _).congr fun p b => ?_
      constructor
      · rintro ⟨rfl, rfl⟩
        exact .reference ((unseen name).mpr seen)
      · intro shown
        cases shown
        exact ⟨rfl, rfl⟩
  | array l element | map l element | optional l element | newtype l name element =>
    rw [TypeExpr.sites]
    refine (TypeExpr.breaches_listed unseen element).congr fun p b => ?_
    constructor
    · intro part
      constructor
      exact part
    · intro shown
      cases shown
      assumption
  | record l name fields =>
    rw [TypeExpr.sites, List.flatMap_cons, Site.breaches]
    have repeats := repeatedFields_listed (.duplicateRecordField name) fields
    have parts := repeats.under_append (by decide : 0 < 1) (fieldBreaches_listed unseen fields)
    exact parts.congr fun p b => TypeExpr.record_breachAt_iff.symm
  | variant l name cases =>
    rw [TypeExpr.sites]
    exact (caseBreaches_listed unseen name [] cases).congr fun p b => TypeExpr.variant_breachAt_iff.symm

/-- What the fields of a record break is listed by the indices of the fields. -/
theorem fieldBreaches_listed (unseen : ∀ name, undefined name ↔ name ∉ visible)
    (fields : List (FieldOf TypeExpr)) :
    Listed (Indexed fields fun _ f => f.type.BreachAt undefined)
      ((fieldSites fields).flatMap (Site.breaches visible)) := by
  match fields with
  | [] => exact Listed.indexed_nil
  | ⟨location, name, doc, type⟩ :: fields =>
    rw [fieldSites, List.flatMap_append]
    exact Listed.indexed_cons (TypeExpr.breaches_listed unseen type) (fieldBreaches_listed unseen fields)

/-- What the cases of a variant break is listed by the indices of the cases, given the names before them. -/
theorem caseBreaches_listed (unseen : ∀ name, undefined name ↔ name ∉ visible) (variant : QualifiedName)
    (earlier : List QualifiedName) (cases : List (CaseOf TypeExpr)) :
    Listed (Indexed cases fun before => CaseBreachAt undefined variant (earlier ++ before.map CaseOf.name))
      ((caseSites variant earlier cases).flatMap (Site.breaches visible)) := by
  match cases with
  | [] => exact Listed.indexed_nil
  | ⟨location, name, doc, fields⟩ :: cases =>
    have others := caseBreaches_listed unseen variant (earlier ++ [name]) cases
    rw [caseSites, List.cons_append, List.flatMap_cons, List.flatMap_append, ← List.append_assoc]
    refine Listed.indexed_cons ?_ ?_
    · rw [List.map_nil, List.append_nil]
      exact case_listed (fieldBreaches_listed unseen fields)
    · simpa only [List.append_assoc, List.singleton_append, List.map_cons] using others

end

end

/-! ## Findings in a graph -/

namespace ModuleGraph

/-- A name that no module defines which imports lead to from an index. -/
def UndefinedFrom (g : ModuleGraph) (i : Nat) (name : QualifiedName) : Prop :=
  ∀ j, g.Reaches i j → ∀ d ∈ g.definitionsAt j, d.name ≠ name

/-- A finding that the type of a definition shows, at the index of the module, the index of the definition
and the position in the type. -/
inductive ShownAt (g : ModuleGraph) : List Nat → Finding → Prop where
  | intro {i j : Nat} {x : SchemaModule} {d : Definition} {p : List Nat} {b : Breach}
      (inGraph : g.modules[i]? = some x) (inModule : x.definitions[j]? = some d)
      (shown : d.type.BreachAt (g.UndefinedFrom i) p b) : ShownAt g (i :: j :: p) (.ofBreach x b)

/-- The finding that a name is defined more than once in the graph, for each module that defines it, at its
first definition there.  Its position is behind those of all modules. -/
inductive RepeatedAt (g : ModuleGraph) : List Nat → Finding → Prop where
  | intro {i j : Nat} {x : SchemaModule} {d : Definition} (inGraph : g.modules[i]? = some x)
      (inModule : x.definitions[j]? = some d) (first : ∀ e ∈ x.definitions.take j, e.name ≠ d.name)
      (repeated : 2 ≤ g.definedNames.count d.name) :
      RepeatedAt g [g.size, i] (.ofBreach x ⟨.duplicateTypeName d.name, d.location⟩)

/-- A finding at a position. -/
def FoundAt (g : ModuleGraph) (p : List Nat) (f : Finding) : Prop :=
  g.ShownAt p f ∨ g.RepeatedAt p f

/-- The location of the first of all findings of a violation. -/
def FirstFound (g : ModuleGraph) (v : Violation) (l : Location) : Prop :=
  ∃ p, g.FoundAt p ⟨v, l⟩ ∧ ∀ q l', g.FoundAt q ⟨v, l'⟩ → p < q ∨ (q = p ∧ l' = l)

variable {g : ModuleGraph}

/-! ### The walk through the modules -/

/-- What a module breaks is listed by the indices of its definitions. -/
theorem moduleFindings_listed {i : Nat} (valid : i < g.size) (x : SchemaModule) :
    Listed (fun p f => ∃ b, Indexed x.definitions (fun _ d => d.type.BreachAt (g.UndefinedFrom i)) p b ∧
      f = .ofBreach x b) (g.moduleFindings i x) := by
  have unseen : ∀ name, g.UndefinedFrom i name ↔ name ∉ g.visible i := by
    intro name
    rw [mem_visible_iff valid]
    simp [UndefinedFrom]
  exact (Listed.flatMap fun d _ => d.type.breaches_listed unseen).map _

/-- The walk through the modules finds what the types of their definitions show. -/
theorem shown_listed : Listed g.ShownAt (g.modules.zipIdx.flatMap fun (x, i) => g.moduleFindings i x) := by
  have each : ∀ xi ∈ g.modules.zipIdx, Listed (fun p f => ∃ b, Indexed xi.1.definitions
      (fun _ d => d.type.BreachAt (g.UndefinedFrom xi.2)) p b ∧ f = .ofBreach xi.1 b)
      (g.moduleFindings xi.2 xi.1) := by
    intro xi mem
    exact moduleFindings_listed (lt_size_of_getElem? (List.mem_zipIdx_iff_getElem?.mp mem)) xi.1
  refine (Listed.flatMap each).congr fun p f => ?_
  constructor
  · intro holds
    match p, holds with
    | _ :: [], ⟨_, _, _, holds, _⟩ => cases holds
    | i :: j :: p, ⟨(x, k), here, b, ⟨d, inModule, shown⟩, same⟩ =>
      rw [List.getElem?_zipIdx, Nat.zero_add, Option.map_eq_some_iff] at here
      rcases here with ⟨x, inGraph, pair⟩
      cases pair
      cases same
      exact .intro inGraph inModule shown
  · rintro ⟨inGraph, inModule, shown⟩
    refine ⟨(_, _), ?_, _, ⟨_, inModule, shown⟩, rfl⟩
    rw [List.getElem?_zipIdx, inGraph, Nat.zero_add]
    rfl

/-! ### Repeated names -/

/-- What is found first in a list stands at an index behind others that are not looked for. -/
theorem find?_eq_some_iff_getElem? {α : Type} {q : α → Bool} {a : α} {l : List α} :
    l.find? q = some a ↔ q a = true ∧ ∃ j : Nat, l[j]? = some a ∧ ∀ e ∈ l.take j, q e = false := by
  rw [List.find?_eq_some_iff_append]
  refine and_congr_right fun _ => ?_
  constructor
  · rintro ⟨before, after, rfl, others⟩
    refine ⟨before.length, by simp, ?_⟩
    rw [List.take_left]
    simpa using others
  · rintro ⟨j, here, others⟩
    rcases List.getElem?_eq_some_iff.mp here with ⟨bound, rfl⟩
    refine ⟨l.take j, l.drop (j + 1), ?_, by simpa using others⟩
    rw [List.getElem_cons_drop, List.take_append_drop]

/-- The findings about a repeated name, by the indices of the modules that define it. -/
theorem repetitionFindings_listed {name : QualifiedName} (repeated : 2 ≤ g.definedNames.count name) :
    Listed (fun p f => g.RepeatedAt (g.size :: p) f ∧ f.violation.rule = .duplicateTypeName name)
      (g.repetitionFindings name) := by
  refine Listed.filterMap.congr fun p f => ?_
  constructor
  · intro holds
    match p, holds with
    | i :: _, ⟨x, inGraph, rfl, image⟩ =>
      rcases Option.map_eq_some_iff.mp image with ⟨d, found, rfl⟩
      rcases find?_eq_some_iff_getElem?.mp found with ⟨defines, j, inModule, others⟩
      have same : d.name = name := of_decide_eq_true defines
      subst same
      exact ⟨.intro inGraph inModule (fun e mem => of_decide_eq_false (others e mem)) repeated, rfl⟩
  · rintro ⟨found, rule⟩
    cases found with
    | @intro i j x d inGraph inModule others _ =>
      cases rule
      have first : x.definitions.find? (·.name = d.name) = some d :=
        find?_eq_some_iff_getElem?.mpr
          ⟨decide_eq_true rfl, j, inModule, fun e mem => decide_eq_false (others e mem)⟩
      exact ⟨x, inGraph, rfl, by rw [first]; rfl⟩

/-! ### First findings -/

/-- No finding inside of a definition is about a name that is defined twice. -/
theorem ShownAt.rule_ne {p : List Nat} {f : Finding} (h : g.ShownAt p f) (name : QualifiedName) :
    f.violation.rule ≠ .duplicateTypeName name := by
  rcases h with ⟨-, -, shown⟩
  exact shown.rule_ne name

/-- A repetition is about a name that is defined twice. -/
theorem RepeatedAt.rule_eq {p : List Nat} {f : Finding} (h : g.RepeatedAt p f) :
    ∃ name, f.violation.rule = .duplicateTypeName name := by
  cases h
  exact ⟨_, rfl⟩

/-- Repetitions are found behind all modules. -/
theorem RepeatedAt.behind {p : List Nat} {f : Finding} (h : g.RepeatedAt p f) : ∃ q, p = g.size :: q := by
  cases h
  exact ⟨_, rfl⟩

/-- The first finding of a violation in the order of visiting is the one at the first position. -/
theorem firstFound_of_find? {v : Violation} {f : Finding}
    (found : g.visit.find? (fun f => decide (f.violation = v)) = some f) : g.FirstFound v f.location := by
  have isViolation : f.violation = v := by simpa using List.find?_some found
  subst isViolation
  rw [visit, List.find?_append, Option.or_eq_some_iff] at found
  rcases found with walk | ⟨-, behind⟩
  · rcases shown_listed.find? walk with ⟨p, here, first⟩
    refine ⟨p, .inl here, ?_⟩
    rintro q l' (shown | repeated)
    · refine (first q _ shown (decide_eq_true rfl)).imp_right fun same => ?_
      exact ⟨same.1, congrArg Finding.location same.2⟩
    · rcases repeated.rule_eq with ⟨name, rule⟩
      exact absurd rule (here.rule_ne name)
  · rw [List.find?_flatMap, List.findSome?_eq_some_iff] at behind
    rcases behind with ⟨before, name, after, split, behind, -⟩
    have repeated : 2 ≤ g.definedNames.count name := by
      rw [← mem_repeatedNames_iff, split]
      simp
    rcases (repetitionFindings_listed repeated).find? behind with ⟨p, ⟨here, rule⟩, first⟩
    refine ⟨g.size :: p, .inr here, ?_⟩
    rintro q l' (shown | repeated)
    · exact absurd rule (shown.rule_ne name)
    · rcases repeated.behind with ⟨q, rfl⟩
      rcases first q _ ⟨repeated, rule⟩ (decide_eq_true rfl) with less | ⟨rfl, same⟩
      · exact .inl (List.cons_lt_cons_iff.mpr (.inr ⟨rfl, less⟩))
      · exact .inr ⟨rfl, congrArg Finding.location same⟩

end ModuleGraph

end ThetaSchema
