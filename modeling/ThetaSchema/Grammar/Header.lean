import ThetaSchema.Grammar.Outcome

/-!
# The grammar of module headers

A header sets the language version and the encoding version, in either order, and ends at a separator
that is alone on its line.  Documentation between the entries is skipped, since nothing in a header can
carry it.

Main definitions:

- `readEntry`: a key, a colon and a version.
- `readHeader`: a whole header.

Main results:

- `readEntry_accepted`: an accepted entry consumes at least one token.
- `readHeader_suffix`: what is left is a part of the input.
-/

namespace ThetaSchema

/-! ## Keys -/

/-- The two things that a header sets. -/
inductive HeaderKey where
  | language
  | encoding
  deriving DecidableEq, Repr

/-- The meaning of a key; the encoding version has two spellings. -/
def HeaderKey.ofText? (t : Text) : Option HeaderKey :=
  if t = supportedLanguage.key then some language
  else if t = supportedEncoding.key ∨ t = "avro-version" then some encoding
  else none

/-- The versions that the entries of a header have set so far. -/
structure HeaderDraft where
  language : Option Version := none
  encoding : Option Version := none
  deriving DecidableEq, Repr

namespace HeaderDraft

/-- The version that a key was given. -/
def get? (d : HeaderDraft) : HeaderKey → Option Version
  | .language => d.language
  | .encoding => d.encoding

/-- Gives a key its version. -/
def set (d : HeaderDraft) (v : Version) : HeaderKey → HeaderDraft
  | .language => { d with language := some v }
  | .encoding => { d with encoding := some v }

end HeaderDraft

/-- Reads the part of a key behind its identifier `last`, as far as dashes and identifiers touch. -/
def readKeyTail (last : Token) : List Token → Text × List Token
  | dash :: word :: rest =>
    if dash.kind = .minus ∧ last.adjacentTo dash ∧ word.kind = .identifier ∧ dash.adjacentTo word then
      (Byte.dash :: word.text ++ (readKeyTail word rest).1, (readKeyTail word rest).2)
    else ([], dash :: word :: rest)
  | tokens => ([], tokens)

/-- The words of a key are taken from the front of the input. -/
theorem readKeyTail_suffix (last : Token) (tokens : List Token) :
    (readKeyTail last tokens).2 <:+ tokens := by
  fun_induction readKeyTail last tokens with
  | case1 last dash word rest _ ih =>
    exact ih.trans ((List.suffix_cons _ _).trans (List.suffix_cons _ _))
  | case2 => exact List.suffix_rfl
  | case3 => exact List.suffix_rfl

/-! ## Entries -/

/-- Reads the version that a key is given. -/
def readVersion (key : Text) : List Token → Outcome Version
  | [] => reject (.versionAfterKey key) []
  | t :: rest =>
    if t.kind = .version ∨ t.kind = .integer then
      match Version.parse? t.text with
      | some v => .accepted v rest
      | none => .rejected ⟨t :: rest, .malformedVersion t.text⟩ rest
    else reject (.versionAfterKey key) (t :: rest)

/-- Reads a colon and the version of a key that is not set yet. -/
def readSetting (draft : HeaderDraft) (key : HeaderKey) (spelling : Text) (tokens : List Token) :
    Outcome HeaderDraft :=
  (expect .colon (.colonAfterKey spelling) tokens).andThen fun _ rest =>
    (readVersion spelling rest).map (draft.set · key)

/-- Reads an entry of a header, given the versions that were set before. -/
def readEntry (draft : HeaderDraft) (tokens : List Token) : Outcome HeaderDraft :=
  (expect .identifier .metadataKey tokens).andThen fun first rest =>
    let spelling := first.text ++ (readKeyTail first rest).1
    match HeaderKey.ofText? spelling with
    | none => .rejected ⟨tokens, .unknownKey spelling⟩ (readKeyTail first rest).2
    | some key =>
      if (draft.get? key).isSome then
        .rejected ⟨tokens, .duplicateKey spelling⟩ (readKeyTail first rest).2
      else readSetting draft key spelling (readKeyTail first rest).2

/-- The version of a key is taken from the front of the input. -/
theorem readVersion_suffix (key : Text) (tokens : List Token) :
    (readVersion key tokens).rest <:+ tokens := by
  unfold readVersion
  split
  · exact List.suffix_rfl
  · split
    · split <;> exact List.suffix_cons _ _
    · exact List.suffix_rfl

/-- A setting is read from the front of the input, behind its key. -/
theorem readSetting_suffix (draft : HeaderDraft) (key : HeaderKey) (spelling : Text)
    (tokens : List Token) : (readSetting draft key spelling tokens).rest <:+ tokens := by
  refine Outcome.andThen_suffix (expect_suffix _ _ _) fun _ rest _ => ?_
  rw [Outcome.rest_map]
  exact readVersion_suffix spelling rest

/-- An entry is read from the front of the input. -/
theorem readEntry_suffix (draft : HeaderDraft) (tokens : List Token) :
    (readEntry draft tokens).rest <:+ tokens := by
  refine Outcome.andThen_suffix (expect_suffix _ _ _) fun first rest _ => ?_
  have key := readKeyTail_suffix first rest
  dsimp only
  split
  · exact key
  · split
    · exact key
    · exact (readSetting_suffix _ _ _ _).trans key

/-- Reading a token of a kind consumes it. -/
theorem expect_accepted {kind : TokenKind} {expected : Expectation} {tokens left : List Token} {t : Token}
    (h : expect kind expected tokens = .accepted t left) : tokens = t :: left ∧ t.kind = kind := by
  unfold expect at h
  split at h
  · cases h
  · split at h
    · next kindEq => cases h; exact ⟨rfl, kindEq⟩
    · cases h

/-- An accepted entry consumes at least one token. -/
theorem readEntry_accepted {draft d : HeaderDraft} {tokens left : List Token}
    (h : readEntry draft tokens = .accepted d left) : left.length < tokens.length := by
  obtain ⟨first, rest, accepted, h⟩ := Outcome.andThen_eq_accepted_iff.mp h
  have key := (readKeyTail_suffix first rest).length_le
  rw [(expect_accepted accepted).1]
  simp only at h
  split at h
  · cases h
  · next meaning _ =>
    split at h
    · cases h
    · have setting := readSetting_suffix draft meaning (first.text ++ (readKeyTail first rest).1)
        (readKeyTail first rest).2
      rw [h] at setting
      exact Nat.lt_succ_of_le (Nat.le_trans setting.length_le key)

/-- Reads entries up to the separator, which is left. -/
def readEntries (draft : HeaderDraft) (tokens : List Token) : Outcome HeaderDraft :=
  match tokens with
  | [] => .rejected ⟨[], .unfinishedHeader⟩ []
  | t :: rest =>
    if t.kind = .separator then .accepted draft (t :: rest)
    else if t.kind = .documentation then readEntries draft rest
    else
      match _h : readEntry draft (t :: rest) with
      | .rejected f left => .rejected f left
      | .accepted d left => readEntries d left
termination_by tokens.length
decreasing_by
  · exact Nat.lt_succ_self _
  · exact readEntry_accepted _h

/-- Entries are read from the front of the input up to the separator. -/
theorem readEntries_suffix (draft : HeaderDraft) (tokens : List Token) :
    (readEntries draft tokens).rest <:+ tokens := by
  fun_induction readEntries draft tokens with
  | case1 => exact List.suffix_rfl
  | case2 => exact List.suffix_rfl
  | case3 _ _ _ _ _ ih => exact ih.trans (List.suffix_cons _ _)
  | case4 draft t rest _ _ f left h => exact (congrArg Outcome.rest h) ▸ readEntry_suffix draft (t :: rest)
  | case5 draft t rest _ _ d left h ih =>
    have entry := readEntry_suffix draft (t :: rest)
    rw [h] at entry
    exact ih.trans entry

/-! ## The separator -/

/-- Whether two tokens start on the same line. -/
def Token.sharesLine (a b : Token) : Bool :=
  a.location.line == b.location.line

/-- Reads the separator behind the entries of a header.  Its line may hold neither the token before it
nor the one behind it, and both versions have to be set. -/
def closeHeader (moduleName : Text) (draft : HeaderDraft) (previous : Option Token) :
    List Token → Outcome Metadata
  | [] => .rejected ⟨[], .unfinishedHeader⟩ []
  | separator :: rest =>
    if previous.any separator.sharesLine || rest.head?.any separator.sharesLine then
      .rejected ⟨separator :: rest, .crowdedSeparator⟩ rest
    else
      match draft.language, draft.encoding with
      | none, _ => .rejected ⟨separator :: rest, .missingKey supportedLanguage.key⟩ rest
      | some _, none => .rejected ⟨separator :: rest, .missingKey supportedEncoding.key⟩ rest
      | some language, some encoding => .accepted ⟨language, encoding, moduleName⟩ rest

/-- The last token that a reader consumed, given what it started from and what it left. -/
def lastConsumed? (tokens rest : List Token) : Option Token :=
  (tokens.take (tokens.length - rest.length)).getLast?

/-- Reads a header.  The token in front of it, if there is one, may not share the separator's line
either. -/
def readHeader (before : Option Token) (moduleName : Text) (tokens : List Token) : Outcome Metadata :=
  (readEntries {} tokens).andThen fun draft rest =>
    closeHeader moduleName draft ((lastConsumed? tokens rest).or before) rest

/-- Closing the header takes the separator at most. -/
theorem closeHeader_suffix (moduleName : Text) (draft : HeaderDraft) (previous : Option Token)
    (tokens : List Token) : (closeHeader moduleName draft previous tokens).rest <:+ tokens := by
  unfold closeHeader
  split
  · exact List.suffix_rfl
  · split
    · exact List.suffix_cons _ _
    · split <;> exact List.suffix_cons _ _

/-- A header is read from the front of the input. -/
theorem readHeader_suffix (before : Option Token) (moduleName : Text) (tokens : List Token) :
    (readHeader before moduleName tokens).rest <:+ tokens :=
  Outcome.andThen_suffix (readEntries_suffix {} tokens) fun draft rest _ =>
    closeHeader_suffix moduleName draft _ rest

end ThetaSchema
