import ThetaSchema.Proofs.Cursor.Types
import ThetaSchema.Proofs.Grammar.Sequences
import ThetaSchema.Proofs.Printing.Header

/-!
# Headers read with a cursor

Keys, versions and whole headers as a cursor reads them.  The loop over the entries passes a comment or an
entry in each turn and ends at the separator or at the end mark.  Whether the separator is alone on its line
is seen at the tokens around it, which are looked at by their indices.

Main definitions:

- `Reading.entry`, `Reading.entries`: the entries of a header.
- `Reading.header`: a whole header.

Main results:

- `Meets.entries`: a cursor reads the entries that the readers of tokens read.
- `Meets.header`: the same for a header behind the tokens that are passed already.
-/

namespace ThetaSchema

namespace Reading

/-! ## Entries -/

/-- Whether the cursor stands on a dash that touches the token behind it and an identifier ahead. -/
def keyGoesOn : Reading Bool := do
  if ← isAttached .minus then
    let word ← peek 1
    if word.kind = .identifier then return (← current).adjacentTo word else return false
  else return false

/-- Reads the part of a key behind the identifier that the cursor has passed. -/
def keyTail : Reading Text :=
  loop fun again => do
    if ← keyGoesOn then
      let _ ← advance
      let word ← advance
      let others ← again
      return Byte.dash :: word.text ++ others
    else return []

/-- Whether the cursor stands on a version or an integer. -/
def isNumber : Reading Bool := do
  if ← isNext .version then return true else isNext .integer

/-- Reads the version that a key is given. -/
def version (key : Text) : Reading Version := do
  let t ← current
  if ← isNumber then
    let _ ← advance
    match Version.parse? t.text with
    | some v => return v
    | none => blame t (.malformedVersion t.text)
  else unexpected (.versionAfterKey key)

/-- Reads an entry of a header, given the versions that were set before. -/
def entry (draft : HeaderDraft) : Reading HeaderDraft := do
  let keyToken ← current
  let first ← expect .identifier .metadataKey
  let others ← keyTail
  match HeaderKey.ofText? (first.text ++ others) with
  | none => blame keyToken (.unknownKey (first.text ++ others))
  | some key =>
    if (draft.get? key).isSome then blame keyToken (.duplicateKey (first.text ++ others))
    else
      let _ ← expect .colon (.colonAfterKey (first.text ++ others))
      let v ← version (first.text ++ others)
      return draft.set v key

/-- Reads entries up to the separator. -/
def entries : HeaderDraft → Reading HeaderDraft :=
  loopWith fun again draft => do
    if ← isNext .separator then return draft
    else if ← accept .documentation then again draft
    else if ← atEnd then blame (← current) .unfinishedHeader
    else
      let next ← entry draft
      again next

/-! ## The separator -/

/-- The index of the cursor. -/
def place : Reading Nat := do
  return (← get).index

/-- Whether the token in front of an index, if there is one, starts on the line of the separator. -/
def sharesLineBefore (separator : Token) (i : Nat) : Reading Bool := do
  if i = 0 then return false else return separator.sharesLine (← look (i - 1))

/-- Whether the cursor stands on a token that starts on the line of the separator. -/
def sharesLineBehind (separator : Token) : Reading Bool := do
  if ← atEnd then return false else return separator.sharesLine (← current)

/-- Reads a header. -/
def header (moduleName : Text) : Reading Metadata := do
  let draft ← entries {}
  let i ← place
  let separator ← advance
  let crowdedBefore ← sharesLineBefore separator i
  let crowdedBehind ← sharesLineBehind separator
  if crowdedBefore || crowdedBehind then blame separator .crowdedSeparator
  else
    match draft.language, draft.encoding with
    | none, _ => blame separator (.missingKey supportedLanguage.key)
    | some _, none => blame separator (.missingKey supportedEncoding.key)
    | some language, some encoding => return ⟨language, encoding, moduleName⟩

end Reading

/-- Whether a dash and an identifier follow that touch one another and the identifier in front. -/
def keyContinues (last : Token) : List Token → Bool
  | dash :: word :: _ =>
    dash.kind = .minus && last.adjacentTo dash && word.kind = .identifier && dash.adjacentTo word
  | _ => false

/-- Entries are read up to a separator. -/
theorem exists_cons_of_readEntries {draft d : HeaderDraft} {tokens left : List Token}
    (h : readEntries draft tokens = .accepted d left) : ∃ separator others, left = separator :: others := by
  fun_induction readEntries draft tokens with
  | case1 => cases h
  | case2 draft t rest _ =>
    cases h
    exact ⟨t, rest, rfl⟩
  | case3 _ _ _ _ _ ih => exact ih h
  | case4 => cases h
  | case5 _ _ _ _ _ _ _ _ ih => exact ih h

/-- The token in front of what is left is the last one that was consumed by now, or the last one before. -/
theorem lastConsumed?_or {all tokens left : List Token} (part : tokens <:+ all) (behind : left <:+ tokens) :
    (lastConsumed? tokens left).or (lastConsumed? all tokens) = lastConsumed? all left := by
  obtain ⟨before, rfl⟩ := part
  obtain ⟨between, rfl⟩ := behind
  rw [lastConsumed?_append, lastConsumed?_append, ← List.append_assoc, lastConsumed?_append,
    List.getLast?_append]

namespace Meets

variable {ts rest : List Token}

/-! ## Entries -/

/-- A look back and two ahead tell whether a key goes on with a dash. -/
theorem keyGoesOn {last : Token} (behind : last :: rest <:+ (TokenStream.ofTokens ts).tokens) :
    Meets ts rest Reading.keyGoesOn (.accepted (keyContinues last rest) rest) := by
  refine (isAttached (by decide) behind).andThen ?_
  cases rest with
  | nil => exact pure false
  | cons dash left =>
    rw [List.head?_cons, Option.any_some]
    cases attached : decide (dash.kind = .minus) && last.adjacentTo dash with
    | false =>
      cases left with
      | nil => exact pure false
      | cons word others =>
        rw [keyContinues, attached]
        exact pure false
    | true =>
      refine peek_cons.andThen ?_
      simp (disch := decide) only [Token.kind_front_iff]
      cases left with
      | nil => exact pure false
      | cons word others =>
        rw [keyContinues, attached, startsWith_cons]
        cases decide (word.kind = .identifier) with
        | false => exact pure false
        | true => exact current.andThen (pure _)

/-- The loop over the dashes of a key. -/
theorem keyTail {last : Token} (behind : last :: rest <:+ (TokenStream.ofTokens ts).tokens) :
    Meets ts rest Reading.keyTail (.accepted (readKeyTail last rest).1 (readKeyTail last rest).2) := by
  -- A turn belongs to the identifier that was passed last.
  refine loopWith (Q := fun _ rest o => ∃ last, last :: rest <:+ (TokenStream.ofTokens ts).tokens ∧
    o = .accepted (readKeyTail last rest).1 (readKeyTail last rest).2) ?_ ⟨last, behind, rfl⟩
  rintro again - rest _ ⟨last, behind, rfl⟩ later
  refine (keyGoesOn behind).andThen ?_
  rcases rest with _ | ⟨dash, _ | ⟨word, others⟩⟩
  · exact pure []
  · exact pure []
  · rw [readKeyTail]
    have inside := (List.suffix_cons dash _).trans ((List.suffix_cons last _).trans behind)
    by_cases goesOn :
      dash.kind = .minus ∧ last.adjacentTo dash ∧ word.kind = .identifier ∧ dash.adjacentTo word
    · rw [if_pos (by simpa [keyContinues, and_assoc] using goesOn), if_pos goesOn]
      refine advance.andThen (advance.andThen ?_)
      have turn := later () others _ ⟨word, inside, rfl⟩ (by simp only [List.length_cons]; omega)
      exact turn.map (Byte.dash :: word.text ++ ·)
    · rw [if_neg (by simpa [keyContinues, and_assoc] using goesOn), if_neg goesOn]
      exact pure []

/-- A look at the next token tells whether it is a version or an integer. -/
theorem isNumber : Meets ts rest Reading.isNumber
    (.accepted (startsWith .version rest || startsWith .integer rest) rest) := by
  refine (isNext (by decide)).andThen ?_
  cases startsWith .version rest with
  | true => exact pure true
  | false => exact isNext (by decide)

/-- The version of a key is read as its reader reads it. -/
theorem version (key : Text) : Meets ts rest (Reading.version key) (readVersion key rest) := by
  refine current.andThen (isNumber.andThen ?_)
  cases rest with
  | nil => exact unexpected _
  | cons t left =>
    rw [readVersion, startsWith_cons, startsWith_cons]
    by_cases number : t.kind = .version ∨ t.kind = .integer
    · rw [if_pos (by simpa using number), if_pos number]
      refine advance.andThen ?_
      change Meets ts left (match Version.parse? t.text with
        | some v => Pure.pure v
        | none => Reading.blame t _) _
      cases Version.parse? t.text with
      | some v => exact pure v
      | none => exact blame (t :: left) _
    · rw [if_neg (by simpa using number), if_neg number]
      exact unexpected _

/-- An entry is read as its reader reads it, repeated and unknown keys included. -/
theorem entry (draft : HeaderDraft) : Meets ts rest (Reading.entry draft) (readEntry draft rest) := by
  refine of_part fun part => current.andThen ((expect (by decide) _).bind fun first left accepted => ?_)
  have whole := (expect_accepted accepted).1
  subst whole
  refine (keyTail part).andThen ?_
  dsimp only
  cases HeaderKey.ofText? (first.text ++ (readKeyTail first left).1) with
  | none => exact blame (first :: left) _
  | some key =>
    dsimp only
    by_cases again : (draft.get? key).isSome = true
    · rw [if_pos again, if_pos again]
      exact blame (first :: left) _
    · rw [if_neg again, if_neg again]
      refine (expect (by decide) _).bind fun _ left' _ => ?_
      exact (version _).map (draft.set · key)

/-- The loop over the entries of a header. -/
theorem entries (draft : HeaderDraft) : Meets ts rest (Reading.entries draft) (readEntries draft rest) := by
  refine loopWith (Q := fun draft rest o => o = readEntries draft rest) ?_ rfl
  rintro again draft rest _ rfl later
  refine (isNext (by decide)).andThen ?_
  cases rest with
  | nil =>
    refine (accept_of_other (by decide) rfl).andThen (atEnd.andThen (current.andThen ?_))
    rw [readEntries]
    exact blame [] _
  | cons t left =>
    rw [readEntries, startsWith_cons]
    by_cases separates : t.kind = .separator
    · rw [if_pos (decide_eq_true separates), if_pos separates]
      exact pure draft
    rw [if_neg (by simpa using separates), if_neg separates]
    by_cases isDoc : t.kind = .documentation
    · rw [if_pos isDoc]
      exact (accept_of_kind (by decide) isDoc).andThen (later draft left _ rfl (Nat.lt_succ_self _))
    rw [if_neg isDoc]
    refine (accept_of_other (by decide) (by simpa using isDoc)).andThen (atEnd.andThen ?_)
    have sequence := readEntries_cons_of_ne separates isDoc draft left
    rw [readEntries, if_neg separates, if_neg isDoc] at sequence
    rw [sequence]
    exact (entry draft).bind fun next behind accepted => later next behind _ rfl (readEntry_accepted accepted)

/-! ## The separator -/

/-- The index of the cursor is the number of the tokens that were read. -/
theorem place : Meets ts rest Reading.place
    (.accepted ((TokenStream.ofTokens ts).tokens.length - rest.length) rest) := by
  intro turns c enough stands calm
  have same : (TokenStream.ofTokens ts).tokens.length - rest.length = c.index := by
    have index := stands.index
    omega
  rw [same]
  exact ⟨c, ⟨stands, calm, (List.append_nil c.log).symm⟩, rfl⟩

/-- The token in front of the separator is found at the index before. -/
theorem sharesLineBefore {front others : List Token} {separator : Token}
    (split : front ++ separator :: others = (TokenStream.ofTokens ts).tokens) :
    Meets ts rest (Reading.sharesLineBefore separator front.length)
      (.accepted (front.getLast?.any separator.sharesLine) rest) := by
  unfold Reading.sharesLineBefore
  cases last : front.getLast? with
  | none =>
    rw [List.getLast?_eq_none_iff.mp last]
    exact pure false
  | some t =>
    obtain ⟨before, rfl⟩ := List.getLast?_eq_some_iff.mp last
    obtain ⟨behind, whole⟩ := TokenStream.ofTokens_isPrefix ts
    have here : (Token.closed ts)[(before ++ [t]).length - 1]? = some t := by
      rw [← whole, ← split]
      simp
    rw [if_neg (by simp), Option.any_some]
    exact (look here).andThen (pure _)

/-- The token behind the separator is the next one. -/
theorem sharesLineBehind (separator : Token) : Meets ts rest (Reading.sharesLineBehind separator)
    (.accepted (rest.head?.any separator.sharesLine) rest) := by
  refine atEnd.andThen ?_
  cases rest with
  | nil => exact pure false
  | cons t left => exact current.andThen (pure _)

/-- A header is read in front of the tokens that are left, the last one before them at hand. -/
theorem header (moduleName : Text) : Meets ts rest (Reading.header moduleName)
    (readHeader (lastConsumed? (TokenStream.ofTokens ts).tokens rest) moduleName rest) := by
  refine of_part fun part => (entries {}).bind fun draft left accepted => place.andThen ?_
  have behind := readEntries_suffix {} rest
  rw [accepted, Outcome.rest_accepted] at behind
  rw [lastConsumed?_or part behind]
  obtain ⟨separator, others, rfl⟩ := exists_cons_of_readEntries accepted
  obtain ⟨front, split⟩ := behind.trans part
  have consumed : (TokenStream.ofTokens ts).tokens.length - (separator :: others).length = front.length := by
    rw [← split, List.length_append]
    omega
  rw [consumed, closeHeader, ← split, lastConsumed?_append]
  refine advance.andThen ((sharesLineBefore split).andThen ((sharesLineBehind separator).andThen ?_))
  cases front.getLast?.any separator.sharesLine || others.head?.any separator.sharesLine with
  | true => exact blame (separator :: others) _
  | false =>
    rcases draft with ⟨_ | language, _ | encoding⟩
    · exact blame (separator :: others) _
    · exact blame (separator :: others) _
    · exact blame (separator :: others) _
    · exact pure _

end Meets

end ThetaSchema
