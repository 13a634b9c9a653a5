import Mathlib.Data.List.Permutation
import ThetaSchema.Proofs.Grammar.TypeForms
import ThetaSchema.Proofs.Printing.Header
import ThetaSchema.Proofs.Token.Extents

/-!
# The forms of headers

The grammar of headers with everything in it spelled out: the two words of each key, the tokens of an entry,
and the lines around the separator.  Entries may come in any order with documentation between them, and what
a header means is the versions it gives, so the order does not matter.

Main definitions:

- `HeaderKey.Spelled`, `IsEntry`: the words of a key, and the tokens of an entry.
- `FormsEntries`, `FormsHeader`: entries and documentation, and a whole header, with the settings they make.
- `HeaderDraft.setAll`: settings one after the other, none of them twice.

Main results:

- `readEntry_sound`: what is read as an entry has the form of one.
- `readEntries_iff`: entries are read up to the separator exactly when they have their form.
- `HeaderDraft.setAll_eq_some_iff_perm`: both versions are set exactly when each of them is set once.
- `header_ok_iff_forms`: a text is read as a header exactly when its tokens form one.
-/

namespace ThetaSchema

/-! ## The grammar -/

/-- The two words of a key, which a dash joins; the encoding version has two spellings. -/
inductive HeaderKey.Spelled : Text → Text → HeaderKey → Prop where
  | language : Spelled "language" "version" .language
  | encoding : Spelled "encoding" "version" .encoding
  | avro : Spelled "avro" "version" .encoding

/-- The tokens of an entry: two words and a dash that touch, a colon and a version. -/
structure IsEntry (first dash second colon version : Token) (key : HeaderKey) (v : Version) : Prop where
  isFirst : first.kind = .identifier
  isDash : dash.kind = .minus
  isSecond : second.kind = .identifier
  isColon : colon.kind = .colon
  isVersion : version.kind = .version
  touches : first.adjacentTo dash = true
  touches' : dash.adjacentTo second = true
  spelled : HeaderKey.Spelled first.text second.text key
  value : Version.parse? version.text = some v

/-- Entries with documentation in front of them and behind them, and the settings that the entries make. -/
inductive FormsEntries : List Token → List (HeaderKey × Version) → Prop where
  | nil : FormsEntries [] []
  | doc {t : Token} {tokens : List Token} {settings : List (HeaderKey × Version)}
      (documentation : t.kind = .documentation) (more : FormsEntries tokens settings) :
      FormsEntries (t :: tokens) settings
  | entry {first dash second colon version : Token} {key : HeaderKey} {v : Version} {tokens : List Token}
      {settings : List (HeaderKey × Version)} (one : IsEntry first dash second colon version key v)
      (more : FormsEntries tokens settings) :
      FormsEntries (first :: dash :: second :: colon :: version :: tokens) ((key, v) :: settings)

/-- Tokens that begin with a header: entries up to the first separator, whose line is neither the one where
the token before it starts nor the one where the token behind it does. -/
inductive FormsHeader (settings : List (HeaderKey × Version)) : List Token → Prop where
  | intro {front rest : List Token} {separator : Token} (entries : FormsEntries front settings)
      (first : ∀ t ∈ front, t.kind ≠ .separator) (isSeparator : separator.kind = .separator)
      (before : ∀ t ∈ front.getLast?, t.location.line ≠ separator.location.line)
      (behind : ∀ t ∈ rest.head?, t.location.line ≠ separator.location.line) :
      FormsHeader settings (front ++ separator :: rest)

/-- Neither documentation nor an entry holds a separator. -/
theorem FormsEntries.kind_ne_separator {tokens : List Token} {settings : List (HeaderKey × Version)}
    (h : FormsEntries tokens settings) : ∀ t ∈ tokens, t.kind ≠ .separator := by
  induction h with
  | nil => simp
  | doc documentation more ih => simpa [documentation] using ih
  | entry one more ih => simpa [one.isFirst, one.isDash, one.isSecond, one.isColon, one.isVersion] using ih

/-! ## Tokens that cover bytes -/

/-- A token whose text belongs to the bytes that some text gives it. -/
def Token.Covering (t : Token) : Prop :=
  ∃ k extent, t.kind.Covers k t.text extent

theorem Token.covering_of_mem_scan {file text : Text} {p : Position} {t : Token} (h : t ∈ scan file p text) :
    t.Covering := by
  obtain ⟨b, rest, read⟩ := mem_scan h
  have formed := Lexeme.read_formed b rest
  rw [Lexeme.Formed, read] at formed
  exact ⟨_, _, formed⟩

namespace Token.Covering

variable {t : Token}

/-- A word has no dash. -/
theorem dash_not_mem (h : t.Covering) (identifier : t.kind = .identifier) : Byte.dash ∉ t.text := by
  obtain ⟨k, extent, covers⟩ := h
  rw [identifier] at covers
  intro inside
  exact absurd (all_isIdentifierByte covers.2.1 _ inside) (by decide)

/-- A number without a dot is no version. -/
theorem version_of_parse? (h : t.Covering) (number : t.kind = .version ∨ t.kind = .integer) {v : Version}
    (value : Version.parse? t.text = some v) : t.kind = .version := by
  obtain ⟨k, extent, covers⟩ := h
  refine number.resolve_right fun integer => ?_
  rw [integer] at covers
  have single : Byte.dot ∉ t.text := fun inside => absurd (covers.2.2 _ inside) (by decide)
  rw [Version.parse?, List.splitOn_eq_singleton single] at value
  cases value

end Token.Covering

/-! ## Keys -/

namespace HeaderKey

variable {first second : Text} {key : HeaderKey}

theorem Spelled.ofText? (h : Spelled first second key) :
    HeaderKey.ofText? (first ++ Byte.dash :: second) = some key := by
  cases h <;> rfl

/-- The spellings of the keys, cut at their dash. -/
theorem ofText?_eq_some {t : Text} (h : HeaderKey.ofText? t = some key) :
    ∃ first second, t = first ++ Byte.dash :: second ∧ Byte.dash ∉ first ∧ Byte.dash ∉ second ∧
      Spelled first second key := by
  unfold HeaderKey.ofText? at h
  split at h
  · next language =>
    cases h
    exact ⟨"language", "version", language, by decide, by decide, .language⟩
  · split at h
    · next encoding =>
      cases h
      rcases encoding with encoding | avro
      · exact ⟨"encoding", "version", encoding, by decide, by decide, .encoding⟩
      · exact ⟨"avro", "version", avro, by decide, by decide, .avro⟩
    · cases h

end HeaderKey

/-- Behind a word a key either ends, or goes on with a dash and a word that touch. -/
theorem readKeyTail_cases (last : Token) (tokens : List Token) :
    readKeyTail last tokens = ([], tokens) ∨
      ∃ dash word rest, tokens = dash :: word :: rest ∧ dash.kind = .minus ∧ last.adjacentTo dash = true ∧
        word.kind = .identifier ∧ dash.adjacentTo word = true ∧
          readKeyTail last tokens =
            (Byte.dash :: word.text ++ (readKeyTail word rest).1, (readKeyTail word rest).2) := by
  fun_cases readKeyTail last tokens with
  | case1 dash word rest goesOn =>
    exact .inr ⟨dash, word, rest, rfl, goesOn.1, goesOn.2.1, goesOn.2.2.1, goesOn.2.2.2, rfl⟩
  | case2 => exact .inl rfl
  | case3 => exact .inl rfl

/-- What is read as a known key is two words with a dash between them. -/
theorem readKeyTail_sound {first : Token} {tokens : List Token} {key : HeaderKey}
    (covering : ∀ t ∈ first :: tokens, t.Covering) (identifier : first.kind = .identifier)
    (known : HeaderKey.ofText? (first.text ++ (readKeyTail first tokens).1) = some key) :
    ∃ dash second, tokens = dash :: second :: (readKeyTail first tokens).2 ∧ dash.kind = .minus ∧
      second.kind = .identifier ∧ first.adjacentTo dash = true ∧ dash.adjacentTo second = true ∧
        HeaderKey.Spelled first.text second.text key := by
  obtain ⟨front, back, same, noDash, noDash', spelled⟩ := HeaderKey.ofText?_eq_some known
  rcases readKeyTail_cases first tokens with ends | ⟨dash, word, rest, rfl, isDash, touches, isWord, touches', goesOn⟩
  · -- A single word has no dash, and every key has one.
    have ownNoDash := (covering first List.mem_cons_self).dash_not_mem identifier
    rw [ends, List.append_nil] at same
    rw [same] at ownNoDash
    exact absurd (List.mem_append_right front List.mem_cons_self) ownNoDash
  · rw [goesOn, List.cons_append] at same
    obtain ⟨rfl, -, rfl⟩ := (List.append_cons_inj_of_notMem noDash noDash').mp same.symm
    -- A third word would bring a second dash.
    rcases readKeyTail_cases word rest with ends | ⟨_, word', rest', -, -, -, -, -, more⟩
    · rw [goesOn, ends]
      rw [ends, List.append_nil] at spelled
      exact ⟨dash, word, rfl, isDash, isWord, touches, touches', spelled⟩
    · rw [more] at noDash'
      exact absurd (by simp) noDash'

/-! ## Entries -/

/-- What is read as the version of a key is a number that makes a version. -/
theorem readVersion_sound {key : Text} {tokens left : List Token} {v : Version}
    (h : readVersion key tokens = .accepted v left) :
    ∃ t, tokens = t :: left ∧ (t.kind = .version ∨ t.kind = .integer) ∧ Version.parse? t.text = some v := by
  cases tokens with
  | nil => cases h
  | cons t rest =>
    rw [readVersion] at h
    split at h
    · next number =>
      cases value : Version.parse? t.text with
      | none => simp [value] at h
      | some v' =>
        rw [value] at h
        cases h
        exact ⟨t, rfl, number, value⟩
    · cases h

/-- What is read as an entry has the form of one, and sets a version that was not set before. -/
theorem readEntry_sound {draft d : HeaderDraft} {tokens left : List Token}
    (covering : ∀ t ∈ tokens, t.Covering) (h : readEntry draft tokens = .accepted d left) :
    ∃ first dash second colon version key v, tokens = first :: dash :: second :: colon :: version :: left ∧
      IsEntry first dash second colon version key v ∧ draft.get? key = none ∧ d = draft.set v key := by
  obtain ⟨first, rest, accepted, h⟩ := Outcome.andThen_eq_accepted_iff.mp h
  obtain ⟨rfl, isFirst⟩ := expect_accepted accepted
  dsimp only at h
  split at h
  · cases h
  · next key known =>
    obtain ⟨dash, second, split, isDash, isSecond, touches, touches', spelled⟩ :=
      readKeyTail_sound covering isFirst known
    split at h
    · cases h
    · next unset =>
      obtain ⟨colon, behind, accepted, h⟩ := Outcome.andThen_eq_accepted_iff.mp h
      obtain ⟨same, isColon⟩ := expect_accepted accepted
      obtain ⟨v, accepted, rfl⟩ := Outcome.map_eq_accepted_iff.mp h
      obtain ⟨version, rfl, number, value⟩ := readVersion_sound accepted
      rw [split, same]
      rw [split, same] at covering
      have isVersion := (covering version (by simp)).version_of_parse? number value
      refine ⟨first, dash, second, colon, version, key, v, rfl, ?_, by simpa using unset, rfl⟩
      exact ⟨isFirst, isDash, isSecond, isColon, isVersion, touches, touches', spelled, value⟩

/-- Settings one after the other, none of which may set a version that is set already. -/
def HeaderDraft.setAll (d : HeaderDraft) : List (HeaderKey × Version) → Option HeaderDraft
  | [] => some d
  | (key, v) :: settings => if (d.get? key).isSome then none else (d.set v key).setAll settings

/-- Both versions are set from nothing exactly when each of them is set once, in either order. -/
theorem HeaderDraft.setAll_eq_some_iff_perm {settings : List (HeaderKey × Version)} {language encoding : Version} :
    ({} : HeaderDraft).setAll settings = some ⟨some language, some encoding⟩ ↔
      settings.Perm [(.language, language), (.encoding, encoding)] := by
  rw [List.perm_pair]
  match settings with
  | [] => simp [setAll]
  | [(key, v)] => cases key <;> simp [setAll, set]
  | [(key, v), (key', v')] => cases key <;> cases key' <;> simp [setAll, set, get?, and_comm]
  | (key, v) :: (key', v') :: (key'', v'') :: settings =>
    cases key <;> cases key' <;> cases key'' <;> simp [setAll, set, get?]

/-- Entries are read up to the separator exactly when they have their form and set no version twice. -/
theorem readEntries_iff {draft d : HeaderDraft} {tokens left : List Token}
    (covering : ∀ t ∈ tokens, t.Covering) :
    readEntries draft tokens = .accepted d left ↔
      ∃ front separator rest settings, tokens = front ++ left ∧ left = separator :: rest ∧
        separator.kind = .separator ∧ FormsEntries front settings ∧ draft.setAll settings = some d := by
  constructor
  · intro h
    fun_induction readEntries draft tokens with
    | case1 => cases h
    | case2 draft t rest isSeparator =>
      cases h
      exact ⟨[], t, rest, [], rfl, rfl, isSeparator, .nil, rfl⟩
    | case3 draft t rest noSeparator documentation ih =>
      obtain ⟨front, separator, behind, settings, rfl, isLeft, isSeparator, entries, sets⟩ :=
        ih (fun u mem => covering u (List.mem_cons_of_mem t mem)) h
      exact ⟨t :: front, separator, behind, settings, rfl, isLeft, isSeparator, .doc documentation entries, sets⟩
    | case4 => cases h
    | case5 draft t rest noSeparator noDoc d' left' accepted ih =>
      obtain ⟨first, dash, second, colon, version, key, v, split, one, unset, rfl⟩ :=
        readEntry_sound covering accepted
      rw [split] at covering ⊢
      obtain ⟨front, separator, behind, settings, rfl, isLeft, isSeparator, entries, sets⟩ :=
        ih (fun u mem => covering u (by simp [mem])) h
      refine ⟨_, separator, behind, _, rfl, isLeft, isSeparator, .entry one entries, ?_⟩
      simpa [HeaderDraft.setAll, unset] using sets
  · rintro ⟨front, separator, rest, settings, rfl, rfl, isSeparator, entries, sets⟩
    clear covering
    induction entries generalizing draft with
    | nil =>
      cases sets
      rw [List.nil_append, readEntries, if_pos isSeparator]
    | doc documentation more ih =>
      rw [List.cons_append, readEntries, if_neg (by simp [documentation]), if_pos documentation]
      exact ih sets
    | @entry first dash second colon version key v tokens settings one more ih =>
      unfold HeaderDraft.setAll at sets
      split at sets
      · cases sets
      · next unset =>
        have accepted := readEntry_tokens one.isFirst one.isDash one.isSecond one.isColon one.isVersion
          one.touches one.touches' one.spelled.ofText? one.value (by simpa using unset)
          (tokens ++ separator :: rest)
        have goesOn : readEntries draft (first :: [dash, second, colon, version] ++ (tokens ++ separator :: rest)) =
            readEntries (draft.set v key) (tokens ++ separator :: rest) :=
          readEntries_cons one.isFirst accepted
        exact goesOn.trans (ih sets)

/-! ## Headers -/

/-- A token that is there starts on another line than the separator. -/
theorem any_sharesLine_eq_false_iff {separator : Token} {o : Option Token} :
    o.any separator.sharesLine = false ↔ ∀ t ∈ o, t.location.line ≠ separator.location.line := by
  cases o with
  | none => simp
  | some t => simp [Token.sharesLine, @eq_comm _ separator.location.line]

/-- A separator closes a header exactly when it shares its line with neither neighbour and both versions are
set. -/
theorem closeHeader_eq_accepted_iff {moduleName : Text} {draft : HeaderDraft} {previous : Option Token}
    {separator : Token} {tokens rest : List Token} {m : Metadata} :
    closeHeader moduleName draft previous (separator :: tokens) = .accepted m rest ↔
      (∀ t ∈ previous, t.location.line ≠ separator.location.line) ∧
        (∀ t ∈ tokens.head?, t.location.line ≠ separator.location.line) ∧
          draft = ⟨some m.language, some m.encoding⟩ ∧ m.moduleName = moduleName ∧ tokens = rest := by
  rw [← any_sharesLine_eq_false_iff, ← any_sharesLine_eq_false_iff]
  rw [closeHeader]
  split
  · next crowded =>
    rw [Bool.or_eq_true] at crowded
    rcases crowded with before | behind
    · simp [before]
    · simp [behind]
  · next alone =>
    rw [Bool.or_eq_true, not_or, Bool.not_eq_true, Bool.not_eq_true] at alone
    rcases draft with ⟨_ | language, _ | encoding⟩ <;> rcases m with ⟨l, e, name⟩ <;>
      simp [alone, eq_comm, and_assoc]

/-- Tokens are read as a header exactly when they form one that sets each version once. -/
theorem readHeader_iff_forms {moduleName : Text} {tokens : List Token} {m : Metadata}
    (covering : ∀ t ∈ tokens, t.Covering) :
    (∃ rest, readHeader none moduleName tokens = .accepted m rest) ↔
      m.moduleName = moduleName ∧ ∃ settings, FormsHeader settings tokens ∧
        settings.Perm [(.language, m.language), (.encoding, m.encoding)] := by
  constructor
  · rintro ⟨rest, accepted⟩
    obtain ⟨draft, left, entries, closed⟩ := Outcome.andThen_eq_accepted_iff.mp accepted
    obtain ⟨front, separator, behind, settings, rfl, rfl, isSeparator, forms, sets⟩ :=
      (readEntries_iff covering).mp entries
    rw [lastConsumed?_append, Option.or_none] at closed
    obtain ⟨before, behind, rfl, named, -⟩ := closeHeader_eq_accepted_iff.mp closed
    exact ⟨named, settings, .intro forms forms.kind_ne_separator isSeparator before behind,
      HeaderDraft.setAll_eq_some_iff_perm.mp sets⟩
  · rintro ⟨named, settings, form, perm⟩
    obtain @⟨front, rest, separator, forms, -, isSeparator, before, behind⟩ := form
    have entries := (readEntries_iff covering).mpr ⟨front, separator, rest, settings, rfl, rfl, isSeparator,
      forms, HeaderDraft.setAll_eq_some_iff_perm.mpr perm⟩
    refine ⟨rest, ?_⟩
    rw [readHeader, entries, Outcome.andThen_accepted, lastConsumed?_append, Option.or_none]
    exact closeHeader_eq_accepted_iff.mpr ⟨before, behind, rfl, named, rfl⟩

/-- A session that starts on tokens reads their header. -/
theorem Session.header_start (stream : TokenStream) (moduleName : Text) :
    ((Session.start stream).header moduleName).2 =
      ((readHeader none moduleName stream.tokens).judge stream.stop).outcome := by
  unfold Session.header Session.run
  rw [Session.remaining_start]
  rfl

/-- A header is read as a metadata. -/
theorem Outcome.judge_readHeader_iff_forms {moduleName file text : Text} {stop : Token} {m : Metadata} :
    ((readHeader none moduleName (TokenStream.ofText file text).tokens).judge stop).outcome = .ok m ↔
      m.moduleName = moduleName ∧ ∃ settings, FormsHeader settings (TokenStream.ofText file text).tokens ∧
        settings.Perm [(.language, m.language), (.encoding, m.encoding)] := by
  rw [judge_ok_iff, readHeader_iff_forms]
  rw [TokenStream.tokens_ofText]
  exact fun t => Token.covering_of_mem_scan

/-! ## The order of the entries -/

theorem FormsEntries.unique {tokens : List Token} {settings settings' : List (HeaderKey × Version)}
    (h : FormsEntries tokens settings) (h' : FormsEntries tokens settings') : settings = settings' := by
  induction h generalizing settings' with
  | nil =>
    cases h'
    rfl
  | doc documentation more ih =>
    cases h' with
    | doc _ more' => exact ih more'
    | entry one more' =>
      rw [one.isFirst] at documentation
      cases documentation
  | entry one more ih =>
    cases h' with
    | doc documentation more' =>
      rw [one.isFirst] at documentation
      cases documentation
    | entry one' more' =>
      have key := one.spelled.ofText?.symm.trans one'.spelled.ofText?
      have value := one.value.symm.trans one'.value
      rw [ih more', Option.some.inj key, Option.some.inj value]

/-- Tokens form a header with at most one list of settings. -/
theorem FormsHeader.unique {tokens : List Token} {settings settings' : List (HeaderKey × Version)}
    (h : FormsHeader settings tokens) (h' : FormsHeader settings' tokens) : settings = settings' := by
  -- The entries end at the first separator.
  have front : ∀ {settings : List (HeaderKey × Version)}, FormsHeader settings tokens →
      FormsEntries (tokens.takeWhile (·.kind ≠ .separator)) settings := by
    rintro settings ⟨entries, first, isSeparator, -, -⟩
    rw [List.takeWhile_append_of_pos (by simpa using first), List.takeWhile_cons_of_neg (by simp [isSeparator]),
      List.append_nil]
    exact entries
  exact (front h).unique (front h')

/-- Tokens that form a header set its versions in the one way that they have. -/
theorem FormsHeader.exists_perm_iff {tokens : List Token} {settings versions : List (HeaderKey × Version)}
    (h : FormsHeader settings tokens) :
    (∃ settings', FormsHeader settings' tokens ∧ settings'.Perm versions) ↔ settings.Perm versions := by
  constructor
  · rintro ⟨settings', h', perm⟩
    rwa [h.unique h']
  · exact fun perm => ⟨settings, h, perm⟩

theorem toOption_eq_some_iff {ε α : Type} {r : Except ε α} {a : α} : r.toOption = some a ↔ r = .ok a := by
  cases r <;> simp [Except.toOption]

/-- A text is read as a header exactly when its tokens form one that sets each version once; the metadata has
the versions that are set and the name that is given.  A session that starts on the text and the function that
reads a lone header agree in that.  So where two texts form headers with the same settings in another order,
both are read to the same metadata or neither is read. -/
theorem header_ok_iff_forms (moduleName file text : Text) :
    (∀ m : Metadata, ((Session.start (TokenStream.ofText file text)).header moduleName).2 = .ok m ↔
      m.moduleName = moduleName ∧ ∃ settings, FormsHeader settings (TokenStream.ofText file text).tokens ∧
        settings.Perm [(.language, m.language), (.encoding, m.encoding)]) ∧
    (∀ m : Metadata, (Metadata.parse moduleName text).outcome = .ok m ↔
      m.moduleName = moduleName ∧ ∃ settings, FormsHeader settings (TokenStream.ofText inputLabel text).tokens ∧
        settings.Perm [(.language, m.language), (.encoding, m.encoding)]) ∧
    ∀ (text' : Text) (settings settings' : List (HeaderKey × Version)),
      FormsHeader settings (TokenStream.ofText inputLabel text).tokens →
      FormsHeader settings' (TokenStream.ofText inputLabel text').tokens → settings.Perm settings' →
        (Metadata.parse moduleName text').outcome.toOption = (Metadata.parse moduleName text).outcome.toOption := by
  have lone : ∀ (t : Text) (m : Metadata), (Metadata.parse moduleName t).outcome = .ok m ↔
      m.moduleName = moduleName ∧ ∃ settings, FormsHeader settings (TokenStream.ofText inputLabel t).tokens ∧
        settings.Perm [(.language, m.language), (.encoding, m.encoding)] :=
    fun t m => Outcome.judge_readHeader_iff_forms
  refine ⟨fun m => ?_, lone text, fun text' settings settings' form form' perm => ?_⟩
  · rw [Session.header_start, Outcome.judge_readHeader_iff_forms]
  · ext m
    rw [toOption_eq_some_iff, toOption_eq_some_iff, lone, lone, form.exists_perm_iff, form'.exists_perm_iff,
      perm.congr_left]

/-- A header with its language version first, and one with its encoding version first under the other key. -/
theorem header_ok_iff_forms_swapped :
    let languageFirst : Text := "language-version: 1.1.0\n/// a\nencoding-version: 1.0.0\n---\ntype T = Int\n"
    let encodingFirst : Text := "/** a */ avro-version: 1.0.0 language-version: 1.1.0\n----\n"
    ∃ settings settings',
      FormsHeader settings (TokenStream.ofText inputLabel languageFirst).tokens ∧
      FormsHeader settings' (TokenStream.ofText inputLabel encodingFirst).tokens ∧
      settings.Perm settings' ∧
      (Metadata.parse "a" encodingFirst).outcome.toOption = (Metadata.parse "a" languageFirst).outcome.toOption := by
  intro languageFirst encodingFirst
  have read : (Metadata.parse "a" languageFirst).outcome.toOption = some ⟨⟨1, 1, 0⟩, ⟨1, 0, 0⟩, "a"⟩ := by
    decide +kernel
  have read' : (Metadata.parse "a" encodingFirst).outcome.toOption = some ⟨⟨1, 1, 0⟩, ⟨1, 0, 0⟩, "a"⟩ := by
    decide +kernel
  obtain ⟨-, exact, swap⟩ := header_ok_iff_forms "a" inputLabel languageFirst
  obtain ⟨-, exact', -⟩ := header_ok_iff_forms "a" inputLabel encodingFirst
  obtain ⟨-, settings, form, versions⟩ := (exact _).mp (toOption_eq_some_iff.mp read)
  obtain ⟨-, settings', form', versions'⟩ := (exact' _).mp (toOption_eq_some_iff.mp read')
  have perm := versions.trans versions'.symm
  exact ⟨settings, settings', form, form', perm, swap encodingFirst settings settings' form form' perm⟩

end ThetaSchema
