import ThetaSchema.Proofs.Token.Placement

/-!
# What stands at a location

A location stands for a place of a text, and there a word, a mark or a documentation comment may begin.
This is said of the text itself; for a token it follows from what the token covers.

Main definitions:

- `Location.Holds`: bytes of a text that begin at a location.
- `Location.HasWord`, `Location.HasMark`, `Location.HasDoc`: a word, a mark, a documentation comment.
- `Token.StandsIn`: a token that covers its bytes in a text.

Main results:

- `Token.standsIn_of_mem_scan`: every token of a text stands in it.
- `Token.StandsIn.hasWord`, `Token.StandsIn.hasMark`, `Token.StandsIn.hasDoc`: what stands at its location.
- `Span.PlacedIn.before_eq`: tokens that touch cover neighbouring bytes.
-/

namespace ThetaSchema

/-! ## Locations -/

namespace Location

/-- The bytes `extent` of a text begin at the one place that a location stands for, and the text `after`
follows them. -/
def Holds (file source : Text) (l : Location) (extent after : Text) : Prop :=
  ∃ before, before ++ extent ++ after = source ∧ l.Behind file before ∧
    ∀ front, front <+: source → l.Behind file front → front = before

/-- A whole word begins at a location: no byte of an identifier follows it. -/
def HasWord (file source : Text) (l : Location) (word : Text) : Prop :=
  ∃ after, l.Holds file source word after ∧ EndsWord after

/-- A mark begins at a location. -/
def HasMark (file source : Text) (l : Location) (mark : Text) : Prop :=
  ∃ after, l.Holds file source mark after

/-- A documentation comment that carries a text begins at a location. -/
def HasDoc (file source : Text) (l : Location) (doc : Text) : Prop :=
  ∃ extent after, l.Holds file source extent after ∧ DocComment after doc extent

theorem Behind.holds {file source before extent after : Text} {l : Location} (h : l.Behind file before)
    (whole : before ++ extent ++ after = source) : l.Holds file source extent after := by
  have inside : before <+: source := by
    rw [← whole, List.append_assoc]
    exact List.prefix_append _ _
  exact ⟨before, whole, h, fun front front' h' => h'.eq_of_isPrefix h front' inside⟩

end Location

/-! ## Tokens -/

variable {file source : Text}

/-- A token that covers its bytes at their place in a text. -/
def Token.StandsIn (file source : Text) (t : Token) : Prop :=
  ∃ s : Span, s.PlacedIn file source ∧ s.token = t

/-- Every token of a text stands in it. -/
theorem Token.standsIn_of_mem_scan (short : source.length < UInt32.size) :
    ∀ t ∈ scan file {} source, t.StandsIn file source := by
  intro t mem
  rw [← Span.map_token_ofText] at mem
  obtain ⟨s, inside, same⟩ := List.mem_map.mp mem
  exact ⟨s, ((Span.ofText_tiling file source).found s inside).placedIn short, same⟩

namespace Span.PlacedIn

variable {s u : Span}

/-- The bytes of a token begin at its location. -/
theorem holds (h : s.PlacedIn file source) : s.token.location.Holds file source s.extent s.after :=
  h.behind.holds h.whole

/-- An identifier covers its text. -/
theorem extent_eq_of_identifier (h : s.PlacedIn file source) (identifier : s.token.kind = .identifier) :
    s.extent = s.token.text ∧ EndsWord s.after := by
  have covers := h.covers
  rw [identifier] at covers
  exact ⟨covers.1, covers.2.2⟩

/-- A mark covers its byte, which is its text. -/
theorem extent_eq_of_punctuation {b : UInt8} (only : ∀ c, Lexeme.punctuation c = Lexeme.punctuation b → c = b)
    (h : s.PlacedIn file source) (isMark : s.token.kind = Lexeme.punctuation b) :
    s.extent = [b] ∧ s.token.text = [b] := by
  have covers := h.covers
  rw [isMark] at covers
  obtain ⟨own, c, text, same, -⟩ := Lexeme.covers_punctuation_iff.mp covers
  rw [own, text, only c same.symm]
  exact ⟨rfl, rfl⟩

/-- Tokens that touch cover neighbouring bytes. -/
theorem before_eq (short : source.length < UInt32.size) (h : s.PlacedIn file source)
    (h' : u.PlacedIn file source) (touches : s.token.adjacentTo u.token = true)
    (own : s.extent = s.token.text) : u.before = s.before ++ s.extent := by
  have bound := h.stop_le
  rw [UInt32.size] at short
  -- The offset behind the token does not overflow.
  have stop : u.start = s.stop := by
    rw [Token.adjacentTo, beq_iff_eq] at touches
    have offsets := congrArg UInt64.toNat touches
    rw [Token.limit, UInt64.toNat_add, h.toNat_offset, h'.toNat_offset, ← own] at offsets
    rw [← offsets, Span.start, Span.stop]
    rw [Span.stop] at bound
    simp only [Nat.toUInt64_eq, UInt64.toNat_ofNat']
    omega
  have front : u.before <+: source := by
    rw [← h'.whole, List.append_assoc]
    exact List.prefix_append _ _
  have front' : s.before ++ s.extent <+: source := by
    rw [← h.whole]
    exact List.prefix_append _ _
  have size : u.before.length = (s.before ++ s.extent).length := by
    rw [List.length_append]
    exact stop
  exact (List.prefix_of_prefix_length_le front front' size.le).eq_of_length size

end Span.PlacedIn

namespace Token.StandsIn

variable {t : Token}

/-- The word of an identifier begins at its location. -/
theorem hasWord (h : t.StandsIn file source) (identifier : t.kind = .identifier) :
    t.location.HasWord file source t.text := by
  obtain ⟨s, placed, rfl⟩ := h
  obtain ⟨own, ends⟩ := placed.extent_eq_of_identifier identifier
  rw [← own]
  exact ⟨s.after, placed.holds, ends⟩

/-- The byte of a mark stands at its location. -/
theorem hasMark {b : UInt8} (only : ∀ c, Lexeme.punctuation c = Lexeme.punctuation b → c = b)
    (h : t.StandsIn file source) (isMark : t.kind = Lexeme.punctuation b) :
    t.location.HasMark file source [b] := by
  obtain ⟨s, placed, rfl⟩ := h
  rw [← (placed.extent_eq_of_punctuation only isMark).1]
  exact ⟨s.after, placed.holds⟩

/-- The comment of a documentation token begins at its location. -/
theorem hasDoc (h : t.StandsIn file source) (documentation : t.kind = .documentation) :
    t.location.HasDoc file source t.text := by
  obtain ⟨s, placed, rfl⟩ := h
  have covers := placed.covers
  rw [documentation] at covers
  exact ⟨s.extent, s.after, placed.holds, covers⟩

end Token.StandsIn

end ThetaSchema
