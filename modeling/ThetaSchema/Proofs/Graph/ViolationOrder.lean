import ThetaSchema.Graph.Validation
import ThetaSchema.Proofs.Token.Words

/-!
# The order of violations

Violations are sorted by their messages, while repetitions are dropped by comparing the violations
themselves.  The two agree as long as a message tells the names in it apart, which it does for names whose
local part is an identifier.

Main definitions:

- `Violation.SameRank`: neither violation goes before the other.
- `BrokenRule.LocalTo`: the names of a rule have the form that they have in modules that were read.

Main results:

- `Violation.trichotomy`: violations are ordered up to equal rank.
- `Violation.eq_of_ascending`: strictly ascending lists are determined by their members.
- `BrokenRule.message_injective`: a message determines a rule with such names.
- `Violation.filter_sortBy`: sorting keeps the findings of a violation in their order.
- `Finding.merge_pairwise`: sorted findings are strictly ascending once repetitions are dropped.
- `ModuleGraph.find?_visit_of_mem_findings`: each violation is listed with what was found first of it.
-/

namespace ThetaSchema

/-! ## Comparing violations -/

section

variable {α : Type} [LT α] {a b c : α} {p q r : Prop}

/-- One step of a lexicographic order: it is transitive when both of its parts are. -/
theorem lex_trans (trans : a < b → b < c → a < c) (later : p → q → r) (first : a < b ∨ a = b ∧ p)
    (second : b < c ∨ b = c ∧ q) : a < c ∨ a = c ∧ r := by
  rcases first with less | ⟨rfl, hp⟩
  · rcases second with less' | ⟨rfl, -⟩
    · exact .inl (trans less less')
    · exact .inl less
  · rcases second with less' | ⟨rfl, hq⟩
    · exact .inl less'
    · exact .inr ⟨rfl, later hp hq⟩

/-- One step of a lexicographic order: things are compared further where the first parts are equal. -/
theorem lex_trichotomy (total : a < b ∨ a = b ∨ b < a) (later : p ∨ q ∨ r) :
    (a < b ∨ a = b ∧ p) ∨ (a = b ∧ q) ∨ (b < a ∨ b = a ∧ r) := by
  rcases total with less | rfl | greater
  · exact .inl (.inl less)
  · rcases later with hp | hq | hr
    · exact .inl (.inr ⟨rfl, hp⟩)
    · exact .inr (.inl ⟨rfl, hq⟩)
    · exact .inr (.inr (.inr ⟨rfl, hr⟩))
  · exact .inr (.inr (.inl greater))

end

/-- Texts are ordered byte by byte. -/
theorem Text.trichotomy (a b : Text) : a < b ∨ a = b ∨ b < a := by
  by_cases less : a < b
  · exact .inl less
  · by_cases greater : b < a
    · exact .inr (.inr greater)
    · exact .inr (.inl (List.le_antisymm greater less))

namespace Violation

/-- Neither of two violations goes before the other. -/
structure SameRank (a b : Violation) : Prop where
  moduleName : a.moduleName = b.moduleName
  file : a.file = b.file
  rank : a.rule.rank = b.rule.rank
  message : a.rule.message = b.rule.message

variable {a b c : Violation}

theorem lt_irrefl (a : Violation) : ¬ a < a := by
  rintro (name | ⟨-, file | ⟨-, rank | ⟨-, message⟩⟩⟩)
  · exact List.lt_irrefl _ name
  · exact List.lt_irrefl _ file
  · exact Nat.lt_irrefl _ rank
  · exact List.lt_irrefl _ message

theorem lt_trans (first : a < b) (second : b < c) : a < c :=
  lex_trans List.lt_trans (lex_trans List.lt_trans (lex_trans Nat.lt_trans List.lt_trans)) first second

/-- Violations are ordered up to equal rank. -/
theorem trichotomy (a b : Violation) : a < b ∨ a.SameRank b ∨ b < a := by
  have message := Text.trichotomy a.rule.message b.rule.message
  have rank := lex_trichotomy (Nat.lt_trichotomy a.rule.rank b.rule.rank) message
  have file := lex_trichotomy (Text.trichotomy a.file b.file) rank
  rcases lex_trichotomy (Text.trichotomy a.moduleName b.moduleName) file with less | same | greater
  · exact .inl less
  · rcases same with ⟨sameName, sameFile, sameRank, sameMessage⟩
    exact .inr (.inl ⟨sameName, sameFile, sameRank, sameMessage⟩)
  · exact .inr (.inr greater)

theorem SameRank.symm (h : a.SameRank b) : b.SameRank a :=
  ⟨h.moduleName.symm, h.file.symm, h.rank.symm, h.message.symm⟩

/-- What goes behind a violation goes behind those of its rank. -/
theorem SameRank.lt_of_lt (h : a.SameRank b) (behind : b < c) : a < c := by
  change b.moduleName < c.moduleName ∨ _ at behind
  rw [← h.moduleName, ← h.file, ← h.rank, ← h.message] at behind
  exact behind

/-- What does not go before something that does not go before a third violation does not go before the
third one either. -/
theorem not_lt_trans (first : ¬ b < a) (second : ¬ c < b) : ¬ c < a := by
  intro before
  rcases trichotomy b c with less | same | greater
  · exact first (lt_trans less before)
  · exact first (same.lt_of_lt before)
  · exact second greater

theorem not_lt_of_lt (h : a < b) : ¬ b < a :=
  fun back => lt_irrefl a (lt_trans h back)

section

variable {α : Type} (key : α → Violation)

/-- The relation that sorting goes by is transitive. -/
theorem sortBy_trans (a b c : α) (first : (!decide (key b < key a)) = true)
    (second : (!decide (key c < key b)) = true) : (!decide (key c < key a)) = true := by
  rw [Bool.not_eq_true', decide_eq_false_iff_not] at first second ⊢
  exact not_lt_trans first second

/-- The relation that sorting goes by is total. -/
theorem sortBy_total (a b : α) : (!decide (key b < key a) || !decide (key a < key b)) = true := by
  rw [Bool.or_eq_true, Bool.not_eq_true', Bool.not_eq_true', decide_eq_false_iff_not,
    decide_eq_false_iff_not]
  by_cases less : key a < key b
  · exact .inl (not_lt_of_lt less)
  · exact .inr less

/-- After sorting, nothing goes before what stands in front of it. -/
theorem sortBy_pairwise (items : List α) : (sortBy key items).Pairwise fun a b => ¬ key b < key a := by
  refine (List.pairwise_mergeSort (sortBy_trans key) (sortBy_total key) items).imp ?_
  intro a b notBefore
  rwa [Bool.not_eq_true', decide_eq_false_iff_not] at notBefore

/-- Sorting is stable: things with the same violation keep their order. -/
theorem filter_sortBy (v : Violation) (items : List α) :
    (sortBy key items).filter (fun a => decide (key a = v)) = items.filter fun a => decide (key a = v) := by
  have alike : (items.filter fun a => decide (key a = v)).Pairwise fun a b =>
      (!decide (key b < key a)) = true := by
    refine List.pairwise_of_forall_mem_list fun a inside b inside' => ?_
    rw [List.mem_filter, decide_eq_true_eq] at inside inside'
    rw [inside.2, inside'.2, Bool.not_eq_true', decide_eq_false_iff_not]
    exact lt_irrefl v
  have kept : (items.filter fun a => decide (key a = v)).Sublist
      ((sortBy key items).filter fun a => decide (key a = v)) := by
    have sub := List.sublist_mergeSort (sortBy_trans key) (sortBy_total key) alike List.filter_sublist
    have again := sub.filter fun a => decide (key a = v)
    simp only [List.filter_filter, Bool.and_self] at again
    exact again
  have all : (items.filter fun a => decide (key a = v)).length =
      ((sortBy key items).filter fun a => decide (key a = v)).length :=
    ((List.mergeSort_perm items _).symm.filter _).length_eq
  exact (kept.eq_of_length all).symm

end

/-! ### Ascending lists -/

variable {vs ws : List Violation}

/-- What ascends has no repetition. -/
theorem nodup_of_ascending (h : vs.Pairwise (· < ·)) : vs.Nodup := by
  refine h.imp ?_
  rintro v w less rfl
  exact lt_irrefl v less

/-- Strictly ascending lists are the same when their members are. -/
theorem eq_of_ascending (h : vs.Pairwise (· < ·)) (h' : ws.Pairwise (· < ·))
    (same : ∀ v, v ∈ vs ↔ v ∈ ws) : vs = ws := by
  have perm := (List.perm_ext_iff_of_nodup (nodup_of_ascending h) (nodup_of_ascending h')).mpr same
  have antisymm : ∀ v w, v ∈ vs → w ∈ ws → v < w → w < v → v = w := by
    intro v w _ _ less greater
    exact absurd greater (not_lt_of_lt less)
  exact perm.eq_of_pairwise antisymm h h'

end Violation

/-! ## Messages -/

section

variable {α : Type} {a : α} {x x' z z' : List α}

/-- Two lists that are split at the first occurrence of the same thing have the same parts. -/
theorem split_first (h : a ∉ x) (h' : a ∉ x') (same : x ++ a :: z = x' ++ a :: z') : x = x' ∧ z = z' := by
  induction x generalizing x' with
  | nil =>
    cases x' with
    | nil => exact ⟨rfl, (List.cons.inj same).2⟩
    | cons b x' =>
      rw [(List.cons.inj same).1] at h'
      exact absurd List.mem_cons_self h'
  | cons b x ih =>
    cases x' with
    | nil =>
      rw [← (List.cons.inj same).1] at h
      exact absurd List.mem_cons_self h
    | cons b' x' =>
      rcases List.cons.inj same with ⟨rfl, rest⟩
      rcases ih (List.not_mem_of_not_mem_cons h) (List.not_mem_of_not_mem_cons h') rest with ⟨rfl, rfl⟩
      exact ⟨rfl, rfl⟩

/-- Two lists that are split at the last occurrence of the same thing have the same parts. -/
theorem split_last (h : a ∉ z) (h' : a ∉ z') (same : x ++ a :: z = x' ++ a :: z') : x = x' ∧ z = z' := by
  have mirrored := congrArg List.reverse same
  simp only [List.reverse_append, List.reverse_cons, List.append_assoc, List.singleton_append] at mirrored
  rw [← List.mem_reverse] at h h'
  rcases split_first h h' mirrored with ⟨right, left⟩
  exact ⟨List.reverse_inj.mp left, List.reverse_inj.mp right⟩

end

/-- An identifier has no quote. -/
theorem quote_not_mem_identifier {w : Text} (h : isIdentifier w = true) : (39 : UInt8) ∉ w := by
  intro inside
  have byte := all_isIdentifierByte h 39 inside
  revert byte
  decide

namespace QualifiedName

/-- A name of a module, with an identifier as its local part. -/
structure LocalTo (moduleName : Text) (n : QualifiedName) : Prop where
  inModule : n.moduleName = moduleName
  identifier : isIdentifier n.localName = true

/-- A written name is split at its last dot. -/
theorem eq_of_render_eq {n n' : QualifiedName} (h : Byte.dot ∉ n.localName) (h' : Byte.dot ∉ n'.localName)
    (same : n.render = n'.render) : n = n' := by
  rcases n with ⟨inModule, localName⟩
  rcases n' with ⟨inModule', localName'⟩
  rw [render, render, List.append_assoc, List.append_assoc] at same
  rcases split_last h h' same with ⟨rfl, rfl⟩
  rfl

/-- Names with identifiers as their last components are rendered differently. -/
theorem render_injective {n n' : QualifiedName} (h : isIdentifier n.localName = true)
    (h' : isIdentifier n'.localName = true) (same : n.render = n'.render) : n = n' :=
  eq_of_render_eq (not_mem_identifier h).1 (not_mem_identifier h').1 same

/-- A quoted name of a known module ends at the first quote behind the module name. -/
theorem quoted_render_injective {moduleName : Text} {n n' : QualifiedName} {k k' : Text}
    (h : n.LocalTo moduleName) (h' : n'.LocalTo moduleName)
    (same : Text.quoted n.render ++ k = Text.quoted n'.render ++ k') : n = n' ∧ k = k' := by
  simp only [Text.quoted, render, h.inModule, h'.inModule, List.append_assoc,
    List.append_cancel_left_eq] at same
  rcases split_first (quote_not_mem_identifier h.identifier) (quote_not_mem_identifier h'.identifier)
    same with ⟨sameLocal, rest⟩
  constructor
  · rcases n with ⟨inModule, localName⟩
    rcases n' with ⟨inModule', localName'⟩
    rw [QualifiedName.mk.injEq]
    exact ⟨h.inModule.trans h'.inModule.symm, sameLocal⟩
  · exact rest

end QualifiedName

/-- A quoted text tells the text. -/
theorem Text.quoted_injective {t t' : Text} (same : quoted t = quoted t') : t = t' := by
  rw [quoted, quoted] at same
  exact List.append_cancel_left (List.append_cancel_right same)

namespace BrokenRule

/-- The names of a rule as they are in a module that was read: what the module declares belongs to it, and
local names are identifiers. -/
def LocalTo (moduleName : Text) : BrokenRule → Prop
  | duplicateRecordField record _ => record.LocalTo moduleName
  | duplicateCaseName variant case => variant.LocalTo moduleName ∧ case.LocalTo moduleName
  | duplicateCaseField variant case _ => variant.LocalTo moduleName ∧ case.LocalTo moduleName
  | undefinedType name => isIdentifier name.localName = true
  | duplicateTypeName name => isIdentifier name.localName = true

/-- What is known of the names in the message of a rule: `followed` of those that a further name or a field
comes after, and `last` of the others. -/
def NamesAre (followed last : QualifiedName → Prop) : BrokenRule → Prop
  | duplicateRecordField record _ => followed record
  | duplicateCaseName variant case => followed variant ∧ last case
  | duplicateCaseField variant case _ => followed variant ∧ followed case
  | undefinedType name => last name
  | duplicateTypeName name => last name

/-- A message determines a rule if its names can be read off: the last one from its written form, and a name
in front of others from a text that starts with it. -/
theorem message_determines {followed last : QualifiedName → Prop}
    (ends : ∀ {n n' k k'}, followed n → followed n' →
      Text.quoted n.render ++ k = Text.quoted n'.render ++ k' → n = n' ∧ k = k')
    (written : ∀ {n n'}, last n → last n' → n.render = n'.render → n = n') {r s : BrokenRule}
    (hr : r.NamesAre followed last) (hs : s.NamesAre followed last) (rank : r.rank = s.rank)
    (same : r.message = s.message) : r = s := by
  cases r with
  | duplicateRecordField record field =>
    cases s with
    | duplicateRecordField record' field' =>
      simp only [message, List.append_assoc, List.append_cancel_left_eq] at same
      rcases ends hr hs same with ⟨rfl, rest⟩
      rw [List.append_cancel_left_eq, List.append_cancel_right_eq] at rest
      rw [Text.quoted_injective rest]
    | _ => cases rank
  | duplicateCaseName variant case =>
    cases s with
    | duplicateCaseName variant' case' =>
      simp only [message, List.append_assoc, List.append_cancel_left_eq] at same
      rcases ends hr.1 hs.1 same with ⟨rfl, rest⟩
      rw [List.append_cancel_left_eq, List.append_cancel_right_eq] at rest
      rw [written hr.2 hs.2 (Text.quoted_injective rest)]
    | _ => cases rank
  | duplicateCaseField variant case field =>
    cases s with
    | duplicateCaseField variant' case' field' =>
      simp only [message, List.append_assoc, List.append_cancel_left_eq] at same
      rcases ends hr.2 hs.2 same with ⟨rfl, rest⟩
      rw [List.append_cancel_left_eq] at rest
      rcases ends hr.1 hs.1 rest with ⟨rfl, last⟩
      rw [List.append_cancel_left_eq, List.append_cancel_right_eq] at last
      rw [Text.quoted_injective last]
    | _ => cases rank
  | undefinedType name =>
    cases s with
    | undefinedType name' =>
      rw [message, message, List.append_cancel_right_eq, List.append_cancel_left_eq] at same
      rw [written hr hs (Text.quoted_injective same)]
    | _ => cases rank
  | duplicateTypeName name =>
    cases s with
    | duplicateTypeName name' =>
      simp only [message, List.append_assoc, List.append_cancel_left_eq] at same
      rw [List.append_cancel_right_eq] at same
      rw [written hr hs (Text.quoted_injective same)]
    | _ => cases rank

/-- A rule that is local to a module names nothing but what is local to it. -/
theorem LocalTo.namesAre {moduleName : Text} {r : BrokenRule} (h : r.LocalTo moduleName) :
    r.NamesAre (QualifiedName.LocalTo moduleName) fun n => isIdentifier n.localName = true := by
  cases r with
  | duplicateCaseName => exact ⟨h.1, h.2.identifier⟩
  | _ => exact h

/-- A message determines a rule with such names. -/
theorem message_injective {moduleName : Text} {r s : BrokenRule} (hr : r.LocalTo moduleName)
    (hs : s.LocalTo moduleName) (rank : r.rank = s.rank) (same : r.message = s.message) : r = s :=
  message_determines QualifiedName.quoted_render_injective QualifiedName.render_injective
    hr.namesAre hs.namesAre rank same

end BrokenRule

/-- Violations of modules that were read are the same when they have the same rank. -/
theorem Violation.SameRank.eq {a b : Violation} (h : a.SameRank b) (ha : a.rule.LocalTo a.moduleName)
    (hb : b.rule.LocalTo b.moduleName) : a = b := by
  rw [← h.moduleName] at hb
  have rule := BrokenRule.message_injective ha hb h.rank h.message
  rcases a with ⟨moduleName, file, r⟩
  rcases b with ⟨moduleName', file', r'⟩
  rw [Violation.mk.injEq]
  exact ⟨h.moduleName, h.file, rule⟩

/-! ## Dropping repetitions -/

namespace Finding

/-- Merging findings adds none. -/
theorem mem_of_mem_merge {f : Finding} {fs : List Finding} (mem : f ∈ merge fs) : f ∈ fs := by
  fun_induction merge fs with
  | case1 => exact mem
  | case2 g => exact mem
  | case3 g h rest same ih =>
    rcases List.mem_cons.mp (ih mem) with rfl | later
    · exact List.mem_cons_self
    · exact List.mem_cons_of_mem g (List.mem_cons_of_mem h later)
  | case4 g h rest other ih =>
    rcases List.mem_cons.mp mem with rfl | later
    · exact List.mem_cons_self
    · exact List.mem_cons_of_mem g (ih later)

/-- Sorted findings are strictly ascending once repetitions are dropped, if those of the same rank have the
same violation. -/
theorem merge_pairwise {fs : List Finding}
    (sorted : fs.Pairwise fun f g => ¬ g.violation < f.violation)
    (told : ∀ f ∈ fs, ∀ g ∈ fs, f.violation.SameRank g.violation → f.violation = g.violation) :
    (merge fs).Pairwise fun f g => f.violation < g.violation := by
  fun_induction merge fs with
  | case1 => exact .nil
  | case2 f => exact List.pairwise_singleton _ f
  | case3 f g rest same ih =>
    have kept : (f :: rest).Sublist (f :: g :: rest) := (List.sublist_cons_self g rest).cons_cons f
    exact ih (sorted.sublist kept) fun a inside b inside' =>
      told a (kept.subset inside) b (kept.subset inside')
  | case4 f g rest other ih =>
    rcases List.pairwise_cons.mp sorted with ⟨behind, tail⟩
    rw [List.pairwise_cons]
    constructor
    · -- `f` is strictly before `g`, and nothing behind `g` goes before `g`
      have next : f.violation < g.violation := by
        rcases Violation.trichotomy f.violation g.violation with less | same | greater
        · exact less
        · exact absurd (told f (by simp) g (by simp) same) other
        · exact absurd greater (behind g List.mem_cons_self)
      intro h mem
      rcases List.mem_cons.mp (mem_of_mem_merge mem) with rfl | later
      · exact next
      · rcases Violation.trichotomy f.violation h.violation with less | same | greater
        · exact less
        · exact absurd (same.symm.lt_of_lt next) ((List.pairwise_cons.mp tail).1 h later)
        · exact absurd greater (behind h (List.mem_cons_of_mem g later))
    · exact ih tail fun a inside b inside' =>
        told a (List.mem_cons_of_mem f inside) b (List.mem_cons_of_mem f inside')

/-- Of sorted findings, the first one of each violation is kept. -/
theorem find?_of_mem_merge {f : Finding} {fs : List Finding}
    (sorted : fs.Pairwise fun f g => ¬ g.violation < f.violation)
    (told : ∀ f ∈ fs, ∀ g ∈ fs, f.violation.SameRank g.violation → f.violation = g.violation)
    (mem : f ∈ merge fs) : fs.find? (fun g => decide (g.violation = f.violation)) = some f := by
  have ascending := merge_pairwise sorted told
  fun_induction merge fs with
  | case1 => cases mem
  | case2 g =>
    rw [List.mem_singleton.mp mem]
    simp
  | case3 g h rest same ih =>
    have kept : (g :: rest).Sublist (g :: h :: rest) := (List.sublist_cons_self h rest).cons_cons g
    have first := ih (sorted.sublist kept)
      (fun a inside b inside' => told a (kept.subset inside) b (kept.subset inside')) mem ascending
    by_cases here : g.violation = f.violation
    · simpa [here] using first
    · simpa [here, ← same] using first
  | case4 g h rest other ih =>
    rcases List.pairwise_cons.mp ascending with ⟨behind, tail⟩
    rcases List.mem_cons.mp mem with rfl | later
    · simp
    · -- what is kept behind `g` has another violation, so `g` is passed over
      have apart : g.violation ≠ f.violation := by
        intro same
        exact Violation.lt_irrefl f.violation (same ▸ behind f later)
      rw [List.find?_cons_of_neg (by simpa using apart)]
      exact ih (List.pairwise_cons.mp sorted).2
        (fun a inside b inside' => told a (List.mem_cons_of_mem g inside) b (List.mem_cons_of_mem g inside'))
        later tail

end Finding

/-! ## The list of violations -/

namespace ModuleGraph

section

variable {g : ModuleGraph} (localTo : ∀ f ∈ g.visit, f.violation.rule.LocalTo f.violation.moduleName)

include localTo

/-- Findings whose names have the form that they have in modules that were read are told apart by their
ranks. -/
theorem sorted_told : ∀ f ∈ Violation.sortBy Finding.violation g.visit,
    ∀ f' ∈ Violation.sortBy Finding.violation g.visit,
      f.violation.SameRank f'.violation → f.violation = f'.violation := by
  intro f inside f' inside' same
  exact same.eq (localTo f (List.mem_mergeSort.mp inside)) (localTo f' (List.mem_mergeSort.mp inside'))

/-- Violations are listed in strictly ascending order. -/
theorem violations_pairwise : g.violations.Pairwise (· < ·) := by
  rw [violations, List.pairwise_map]
  exact Finding.merge_pairwise (Violation.sortBy_pairwise Finding.violation g.visit) (sorted_told localTo)

/-- What is listed for a violation is what was found first of it. -/
theorem find?_visit_of_mem_findings {f : Finding} (mem : f ∈ g.findings) :
    g.visit.find? (fun f' => decide (f'.violation = f.violation)) = some f := by
  have first := Finding.find?_of_mem_merge (Violation.sortBy_pairwise Finding.violation g.visit)
    (sorted_told localTo) mem
  rwa [← List.head?_filter, Violation.filter_sortBy, List.head?_filter] at first

end

end ModuleGraph

end ThetaSchema
