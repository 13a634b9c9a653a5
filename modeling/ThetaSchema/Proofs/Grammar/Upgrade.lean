import ThetaSchema.Proofs.Grammar.Downgrade
import ThetaSchema.Proofs.Grammar.Persistence

/-!
# Reading at a newer language version

A body that is read at a language version without the gated constructs uses none of them.  At a version
that has them, the same tokens mean the same, apart from two words: the keywords of fixed types and of the
primitive type that was added.  The third keyword, that of enumerations, may be any name at both versions,
and no definition of the body starts with it, since the older version refuses every one that does.

Main results:

- `SameWord.ofUpgrade`: every word but two means the same at the newer version.
- `body_upgraded`: a body without the two words is read to the same statements.
-/

namespace ThetaSchema

/-- A word that is neither the keyword of fixed types nor that of the added primitive type means the same
at a version without these constructs and at one with all of them. -/
theorem SameWord.ofUpgrade {m m' : Metadata} (h : Downgrade m' m) {word : Text}
    (notFixed : word ≠ Feature.fixed.keyword) (notUuid : word ≠ Feature.uuid.keyword) :
    SameWord m.language m'.language word where
  primitive := by
    apply Option.ext
    intro kind
    rw [h.ofKeyword?_eq_some_iff]
    constructor
    · intro found
      refine ⟨found, ?_⟩
      rintro rfl
      exact notUuid (Primitive.ofKeyword?_eq_some_iff.mp found).2.symm
    · exact fun found => found.1
  fixed := fun isFixed => absurd isFixed notFixed

/-- Tokens without the two words are read alike at the newer version. -/
theorem Metadata.ReadsAlike.ofUpgrade {m m' : Metadata} (h : Downgrade m' m) {tokens : List Token}
    (plain : ∀ t ∈ tokens, t.kind = .identifier → t.text ≠ "Fixed" ∧ t.text ≠ "UUID") :
    m.ReadsAlike m' tokens where
  sameName := h.sameName.symm
  enumeration := fun _ => h.enabled .enumeration
  words := fun t mem identifier => .ofUpgrade h (plain t mem identifier).1 (plain t mem identifier).2

/-- A module body in which no identifier is one of the two words, and which is read at a language version
without the gated constructs, is read at every version that has them to the same statements, with the same
locations. -/
theorem body_upgraded {file text : Text} {m m' : Metadata} {statements : List Statement}
    (older : m.language < (⟨1, 1, 0⟩ : Version)) (newer : (⟨1, 1, 0⟩ : Version) ≤ m'.language)
    (sameName : m'.moduleName = m.moduleName)
    (plain : ∀ t ∈ (TokenStream.ofText file text).tokens, t.kind = .identifier →
      t.text ≠ "Fixed" ∧ t.text ≠ "UUID")
    (read : ((Session.start (TokenStream.ofText file text)).body m).2 = .ok statements) :
    ((Session.start (TokenStream.ofText file text)).body m').2 = .ok statements := by
  have upgrade : Downgrade m' m := ⟨newer, older, sameName.symm⟩
  have accepted := Session.body_start_ok_iff.mp read
  have nothing : StartsStatement [] := by simp [StartsStatement]
  have whole := readBody_append nothing (.ofUpgrade upgrade plain) accepted
  rw [Session.body_start_ok_iff]
  simpa [readBody] using whole

/-- Definitions that are named like the keywords of enumerations, and fields and symbols that are named like
constructs in other letters. -/
def plainSource : Text :=
  "/// Listed.\ntype enum = \x7b fixed : [enums?], uuid : enum.enum \x7d\nalias enums = \x7bInt\x7d\n" ++
    "type enumeration = enum | enums \x7b\x7d"

/-- The body is read at the first version and at one that is newer than the supported ones. -/
theorem body_upgraded_names :
    let older : Metadata := ⟨⟨1, 0, 0⟩, ⟨1, 0, 0⟩, "a"⟩
    let newer : Metadata := ⟨⟨1, 2, 7⟩, ⟨1, 0, 0⟩, "a"⟩
    ∃ statements, statements.length = 3 ∧
      ((Session.start (TokenStream.ofText "a.theta" plainSource)).body older).2 = .ok statements ∧
      ((Session.start (TokenStream.ofText "a.theta" plainSource)).body newer).2 = .ok statements := by
  intro older newer
  have readable : ((Session.start (TokenStream.ofText "a.theta" plainSource)).body older).2.toOption.any
      (fun statements => decide (statements.length = 3)) = true := by
    decide +kernel
  have plain : ∀ t ∈ (TokenStream.ofText "a.theta" plainSource).tokens, t.kind = .identifier →
      t.text ≠ "Fixed" ∧ t.text ≠ "UUID" := by
    decide +kernel
  rcases exists_ok_of_any readable with ⟨statements, read, three⟩
  have upgraded := @body_upgraded _ _ older newer _ (by decide) (by decide) rfl plain read
  exact ⟨statements, of_decide_eq_true three, read, upgraded⟩

end ThetaSchema
