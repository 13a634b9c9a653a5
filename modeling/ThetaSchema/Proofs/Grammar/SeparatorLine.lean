import ThetaSchema.Proofs.Grammar.HeaderForms
import ThetaSchema.Proofs.Token.Spans

/-!
# The line of the separator

A header is read only if the tokens around its separator start on other lines.  Tokens come in order, so what
stands behind the separator is on later lines altogether, and what stands before it starts on earlier ones.
From there only a token with a newline in it can reach the line of the separator: a documentation block that
ends on this line, as the last token of the header.

Main definitions:

- `Span.ClosesOnLine`: a documentation block of several lines that ends on a line.

Main results:

- `Span.not_onLine_of_behind`: no token behind the separator is on its line.
- `Span.getLast?_of_onLine`: of the tokens before the separator only the last one can be on its line.
- `Span.FoundIn.closesOnLine_of_onLine`: if it is, it is a block that ends there.
- `separator_line_shared_iff`: the tokens on the line of a separator.
-/

namespace ThetaSchema

/-- A documentation block with a newline in it whose last byte is on a line of the text. -/
structure Span.ClosesOnLine (t : Text) (line : Nat) (s : Span) : Prop where
  documentation : s.token.kind = .documentation
  block : ∃ body, s.extent = "/**" ++ body ++ "*/" ∧ Byte.newline ∈ body
  closes : t.lineAt (s.stop - 1) = line

/-- A documentation comment ends with its line, or is a block. -/
theorem DocComment.endsLine_or_block {k text extent : Text} (h : DocComment k text extent) :
    EndsLine k ∨ ∃ body, extent = "/**" ++ body ++ "*/" := by
  cases h with
  | lines run ends whole => exact .inl ends
  | @block body doc closed => exact .inr ⟨body, rfl⟩

namespace Span

variable {file t : Text} {s u : Span}

/-! ## Tokens in order -/

/-- What follows a token is on later lines if the next token starts on another line. -/
theorem not_onLine_of_behind {others : List Span} (found : ∀ u ∈ s :: others, u.FoundIn file t)
    (ordered : (s :: others).Pairwise fun s u => s.stop ≤ u.start)
    (behind : ∀ u ∈ others.head?, u.token.location.line ≠ s.token.location.line) :
    ∀ u ∈ others, ¬ u.OnLine t (t.lineAt s.start) := by
  cases others with
  | nil => simp
  | cons next others =>
    obtain ⟨own, foundNext, -⟩ := by simpa only [List.forall_mem_cons] using found
    rw [List.pairwise_cons, List.pairwise_cons] at ordered
    obtain ⟨after, afterNext, -⟩ := ordered
    have later := own.lineAt_start_lt foundNext (after next List.mem_cons_self) (behind next rfl).symm
    rintro u mem ⟨i, first, -, on⟩
    have le : next.start ≤ u.start := by
      rcases List.mem_cons.mp mem with rfl | mem
      · exact le_rfl
      · have positive := foundNext.start_lt_stop
        have le := afterNext u mem
        omega
    have reached := t.lineAt_mono (le.trans first)
    omega

/-- Of what stands before a token only the last one can reach the token's line, if it starts on another
line. -/
theorem getLast?_of_onLine {front : List Span} (found : ∀ u ∈ front, u.FoundIn file t) (own : s.FoundIn file t)
    (ordered : front.Pairwise fun s u => s.stop ≤ u.start) (apart : ∀ u ∈ front, u.stop ≤ s.start)
    (before : ∀ u ∈ front.getLast?, u.token.location.line ≠ s.token.location.line) (mem : u ∈ front)
    (on : u.OnLine t (t.lineAt s.start)) : front.getLast? = some u := by
  rcases front.eq_nil_or_concat' with rfl | ⟨inner, last, rfl⟩
  · cases mem
  · have isLast : (inner ++ [last]).getLast? = some last := List.getLast?_concat
    have earlier := (found last (by simp)).lineAt_start_lt own (apart last (by simp)) (before last isLast)
    rcases List.mem_append.mp mem with inside | atEnd
    · obtain ⟨i, -, inExtent, reaches⟩ := on
      have stops := (List.pairwise_append.mp ordered).2.2 u inside last List.mem_cons_self
      have reached := t.lineAt_mono (inExtent.le.trans stops)
      omega
    · rw [List.mem_singleton.mp atEnd, isLast]

/-! ## The token before the separator -/

namespace FoundIn

/-- A separator starts with a dash. -/
theorem getElem?_start_separator (h : s.FoundIn file t) (isSeparator : s.token.kind = .separator) :
    t[s.start]? = some Byte.dash := by
  have covers := h.covers
  rw [isSeparator] at covers
  obtain ⟨-, ⟨n, three, dashes⟩, -⟩ := covers
  obtain ⟨more, rfl⟩ := Nat.exists_eq_add_of_le' three
  rw [h.getElem?_start, dashes]
  rfl

/-- Documentation lines end before the line of the separator behind them. -/
theorem not_onLine_of_endsLine (h : u.FoundIn file t) (ends : EndsLine u.after) (h' : s.FoundIn file t)
    (isSeparator : s.token.kind = .separator) (before : u.stop ≤ s.start) :
    ¬ u.OnLine t (t.lineAt s.start) := by
  -- A newline follows the documentation, so the dashes are behind this newline.
  have dash := h'.getElem?_start_separator isSeparator
  have apart : u.stop ≠ s.start := by
    intro same
    rw [← same, h.getElem?_stop] at dash
    exact absurd (ends _ dash) (by decide)
  have inside : u.stop < t.length := by
    have bounded := (List.getElem?_eq_some_iff.mp dash).1
    omega
  have newline : t[u.stop]? = some Byte.newline := by
    have byte := List.getElem?_eq_getElem inside
    rw [byte, ends _ (h.getElem?_stop.symm.trans byte)]
  have next := Text.lineAt_succ newline
  rintro ⟨i, -, last, on⟩
  have reached := t.lineAt_mono last.le
  have behind := t.lineAt_mono (show u.stop + 1 ≤ s.start by omega)
  omega

/-- Documentation or a version before a separator that starts on another line is on the separator's line only
if it is a block that ends there. -/
theorem closesOnLine_of_onLine (h : u.FoundIn file t) (h' : s.FoundIn file t)
    (kind : u.token.kind = .documentation ∨ u.token.kind = .version) (isSeparator : s.token.kind = .separator)
    (before : u.stop ≤ s.start) (apart : u.token.location.line ≠ s.token.location.line)
    (on : u.OnLine t (t.lineAt s.start)) : u.ClosesOnLine t (t.lineAt s.start) := by
  -- Without a newline the token would end on the line where it starts.
  have newline : Byte.newline ∈ u.extent := by
    by_contra single
    exact h.lineAt_start_ne h' apart (h.eq_lineAt_start_of_onLine single on).symm
  have covers := h.covers
  rcases kind with documentation | version
  · rw [documentation] at covers
    rcases covers.endsLine_or_block with ends | ⟨body, block⟩
    · exact absurd on (h.not_onLine_of_endsLine ends h' isSeparator before)
    · rw [block, List.mem_append, List.mem_append] at newline
      have inside := (newline.resolve_right (by decide)).resolve_left (by decide)
      refine ⟨documentation, ⟨body, block, inside⟩, ?_⟩
      obtain ⟨i, -, last, on⟩ := on
      have reached := t.lineAt_mono (show i ≤ u.stop - 1 by omega)
      have behind := t.lineAt_mono (show u.stop - 1 ≤ s.start by omega)
      omega
  · rw [version] at covers
    obtain ⟨own, -, -, bytes⟩ := covers
    rw [own] at newline
    exact absurd (bytes _ newline) (by decide)

end FoundIn
end Span

/-! ## Headers -/

/-- Entries and documentation end with documentation or with a version. -/
theorem FormsEntries.kind_of_getLast? {tokens : List Token} {settings : List (HeaderKey × Version)}
    (h : FormsEntries tokens settings) :
    ∀ t ∈ tokens.getLast?, t.kind = .documentation ∨ t.kind = .version := by
  induction h with
  | nil => simp
  | @doc t tokens settings documentation more ih =>
    cases tokens with
    | nil => simp [documentation]
    | cons u tokens => rwa [List.getLast?_cons_cons]
  | @entry first dash second colon version key v tokens settings one more ih =>
    rw [List.getLast?_cons_cons, List.getLast?_cons_cons, List.getLast?_cons_cons, List.getLast?_cons_cons]
    cases tokens with
    | nil => simp [one.isVersion]
    | cons u tokens => rwa [List.getLast?_cons_cons]

/-- The spans of a header, cut at its first separator. -/
theorem FormsHeader.exists_spans {settings : List (HeaderKey × Version)} {spans : List Span}
    (h : FormsHeader settings (spans.map Span.token)) :
    ∃ front s others, spans = front ++ s :: others ∧ s.token.kind = .separator ∧
      (∀ u ∈ front, u.token.kind ≠ .separator) ∧
      (∀ u ∈ front.getLast?, (u.token.kind = .documentation ∨ u.token.kind = .version) ∧
        u.token.location.line ≠ s.token.location.line) ∧
      ∀ u ∈ others.head?, u.token.location.line ≠ s.token.location.line := by
  generalize whole : spans.map Span.token = tokens at h
  obtain @⟨front, rest, separator, entries, first, isSeparator, before, behind⟩ := h
  obtain ⟨frontSpans, back, rfl, rfl, closing⟩ := List.map_eq_append_iff.mp whole
  obtain ⟨s, others, rfl, rfl, rfl⟩ := List.map_eq_cons_iff.mp closing
  refine ⟨frontSpans, s, others, rfl, isSeparator, fun u mem => first _ (List.mem_map_of_mem mem),
    fun u last => ?_, fun u next => ?_⟩
  · have inFront : u.token ∈ (frontSpans.map Span.token).getLast? := by
      rw [List.getLast?_map, Option.mem_def.mp last]
      rfl
    exact ⟨entries.kind_of_getLast? _ inFront, before _ inFront⟩
  · apply behind
    rw [List.head?_map, Option.mem_def.mp next]
    rfl

/-- Where a text is read as a header, no token behind the separator has a byte on the separator's line, and
of those before it just the last one may have one, if it is a documentation block of several lines that ends
there. -/
theorem separator_line_shared_iff {moduleName text : Text} {m : Metadata}
    (accepted : (Metadata.parse moduleName text).outcome = .ok m) :
    ∃ front s others, Span.ofText inputLabel text = front ++ s :: others ∧ s.token.kind = .separator ∧
      (∀ u ∈ front, u.token.kind ≠ .separator) ∧
      (∀ u ∈ others, ¬ u.OnLine text (text.lineAt s.start)) ∧
      ∀ u ∈ front, u.OnLine text (text.lineAt s.start) ↔
        front.getLast? = some u ∧ u.ClosesOnLine text (text.lineAt s.start) := by
  obtain ⟨-, settings, form, -⟩ := Outcome.judge_readHeader_iff_forms.mp accepted
  rw [TokenStream.tokens_ofText, ← Span.map_token_ofText] at form
  obtain ⟨front, s, others, split, isSeparator, first, before, behind⟩ := form.exists_spans
  obtain ⟨found, -, ordered, -⟩ := Span.ofText_tiling inputLabel text
  rw [split] at found ordered
  obtain ⟨foundFront, foundOthers⟩ := List.forall_mem_append.mp found
  obtain ⟨orderedFront, orderedOthers, apart⟩ := List.pairwise_append.mp ordered
  refine ⟨front, s, others, split, isSeparator, first,
    Span.not_onLine_of_behind foundOthers orderedOthers behind, fun u mem => ⟨fun on => ?_, ?_⟩⟩
  · have isLast := Span.getLast?_of_onLine foundFront (foundOthers s List.mem_cons_self) orderedFront
      (fun u mem => apart u mem s List.mem_cons_self) (fun u last => (before u last).2) mem on
    obtain ⟨kind, otherLine⟩ := before u isLast
    exact ⟨isLast, (foundFront u mem).closesOnLine_of_onLine (foundOthers s List.mem_cons_self) kind isSeparator
      (apart u mem s List.mem_cons_self) otherLine on⟩
  · rintro ⟨-, closes⟩
    have positive := (foundFront u mem).start_lt_stop
    exact ⟨u.stop - 1, by omega, by omega, closes.closes⟩

/-- A header with a block that ends on the line of its separator. -/
def crowdedSource : Text :=
  "language-version: 1.0.0\nencoding-version: 1.0.0\n/** a\n*/ ---\n"

theorem parse_crowdedSource : (Metadata.parse "a" crowdedSource).outcome = .ok ⟨⟨1, 0, 0⟩, ⟨1, 0, 0⟩, "a"⟩ :=
  toOption_eq_some_iff.mp (by decide +kernel)

/-- The tokens on the line of the separator that a block shares. -/
theorem separator_line_shared_iff_block :
    (Metadata.parse "a" crowdedSource).outcome = .ok ⟨⟨1, 0, 0⟩, ⟨1, 0, 0⟩, "a"⟩ ∧
      ∃ front s others, Span.ofText inputLabel crowdedSource = front ++ s :: others ∧
        s.token.kind = .separator ∧ (∀ u ∈ front, u.token.kind ≠ .separator) ∧
        (∀ u ∈ others, ¬ u.OnLine crowdedSource (crowdedSource.lineAt s.start)) ∧
        ∀ u ∈ front, u.OnLine crowdedSource (crowdedSource.lineAt s.start) ↔
          front.getLast? = some u ∧ u.ClosesOnLine crowdedSource (crowdedSource.lineAt s.start) :=
  ⟨parse_crowdedSource, separator_line_shared_iff parse_crowdedSource⟩

/-- A text that is read as a header, although a token other than the one separator is on its line. -/
theorem separator_line_shared :
    (Metadata.parse "a" crowdedSource).outcome = .ok ⟨⟨1, 0, 0⟩, ⟨1, 0, 0⟩, "a"⟩ ∧
      (Span.ofText inputLabel crowdedSource).countP (·.token.kind = .separator) = 1 ∧
      ∃ s ∈ Span.ofText inputLabel crowdedSource, ∃ u ∈ Span.ofText inputLabel crowdedSource,
        s.token.kind = .separator ∧ u.token.kind = .documentation ∧
          u.OnLine crowdedSource (crowdedSource.lineAt s.start) := by
  have shared : ((Span.ofText inputLabel crowdedSource).any fun s =>
      (Span.ofText inputLabel crowdedSource).any fun u =>
        decide (s.token.kind = .separator ∧ u.token.kind = .documentation ∧
          crowdedSource.lineAt (u.stop - 1) = crowdedSource.lineAt s.start)) = true := by
    decide +kernel
  obtain ⟨s, mem, inner⟩ := List.any_eq_true.mp shared
  obtain ⟨u, mem', found⟩ := List.any_eq_true.mp inner
  obtain ⟨isSeparator, documentation, line⟩ := of_decide_eq_true found
  have positive := ((Span.ofText_tiling inputLabel crowdedSource).found u mem').start_lt_stop
  exact ⟨parse_crowdedSource, by decide +kernel, s, mem, u, mem', isSeparator, documentation, u.stop - 1, by omega,
    by omega, line⟩

end ThetaSchema
