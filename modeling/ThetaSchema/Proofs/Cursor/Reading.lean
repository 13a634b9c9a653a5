import ThetaSchema.Proofs.Grammar.Reports
import ThetaSchema.Proofs.Grammar.Types

/-!
# Reading with a cursor

The readers of the grammar take tokens and leave a part of them.  The same reading can be done by a cursor
on one list of tokens, which looks at the token it stands on, at the ones ahead and at the one behind, and
moves on token by token.  It remembers every index at which it looked at a token and every index at which
it stood.  Looking outside of the list is undefined, and a loop is not obliged to end, so that a reading has
a result only if it ends and stays inside.

Main definitions:

- `Cursor`, `Cursor.Steady`: a cursor, and what its memory says if nothing went wrong.
- `Reading`: what is done with a cursor.
- `Reading.current`, `Reading.peek`, `Reading.previous`, `Reading.advance`: looks and moves.
- `Meets`: a reading with a cursor ends as an outcome of a reader says.

Main results:

- `Meets.bind`: readings that follow one another.
- `Meets.isNext`, `Meets.advance`, `Meets.expect`, `Meets.unexpected`: the single steps.
-/

namespace ThetaSchema

/-! ## Cursors -/

/-- A cursor on a list of tokens, with the indices at which it stood before, those of the tokens that it
looked at, the fault that is not returned yet, and the reports so far. -/
structure Cursor where
  tokens : List Token
  index : Nat := 0
  passed : List Nat := []
  looked : List Nat := []
  fault? : Option SchemaError := none
  log : Log := []

namespace Cursor

/-- All indices at which a cursor stood, up to the present one. -/
def path (c : Cursor) : List Nat :=
  c.passed ++ [c.index]

/-- The cursor with a fault of a token reported and kept. -/
def faulted (c : Cursor) (t : Token) (cause : Cause) : Cursor :=
  let failure : Failure := ⟨[t], cause⟩
  { c with fault? := some (failure.error t), log := c.log.report (failure.diagnostic t) }

/-- From one index to a later one: never back, and not away from an end mark. -/
def Onward (tokens : List Token) (i j : Nat) : Prop :=
  i ≤ j ∧ (tokens[i]?.any (·.kind = .endOfInput) → j = i)

/-- A cursor that has only looked at tokens of the list, has never gone back, and has stayed at the first end
mark that it came to. -/
structure Steady (c : Cursor) : Prop where
  inside : ∀ i ∈ c.looked, i < c.tokens.length
  onward : c.path.Pairwise (Onward c.tokens)

end Cursor

/-! ## Readings -/

/-- What is done with a cursor, given how often a loop may turn.  A reading without a result needs more turns,
or looks at a token outside of the list; one whose result holds no value has found a fault. -/
abbrev Reading := ReaderT Nat (OptionT (StateT Cursor Option))

namespace Reading

/-- The result of a reading from a cursor on, with a number of turns for each loop. -/
def on (p : Reading α) (turns : Nat) (c : Cursor) : Option (Option α × Cursor) :=
  (p.run turns).run.run c

/-- The first turns of a loop, which has no result if it needs more of them. -/
def unroll (body : (ι → Reading α) → ι → Reading α) : Nat → ι → Reading α
  | 0, _ => fun _ => OptionT.mk fun _ => none
  | turns + 1, i => body (unroll body turns) i

/-- A loop that keeps something from turn to turn.  The body may do the loop again. -/
def loopWith (body : (ι → Reading α) → ι → Reading α) (i : ι) : Reading α :=
  fun turns => unroll body turns i turns

/-- A loop that keeps nothing but the cursor from turn to turn. -/
def loop (body : Reading α → Reading α) : Reading α :=
  loopWith (fun again (_ : Unit) => body (again ())) ()

/-- Looks at the token at an index. -/
def look (i : Nat) : Reading Token :=
  fun _ => OptionT.mk fun c => c.tokens[i]?.map fun t => (some t, { c with looked := c.looked ++ [i] })

/-- Looks at the token that the cursor stands on. -/
def current : Reading Token := do
  look (← get).index

/-- Looks at a token ahead, or at the last one if the list ends before. -/
def peek (ahead : Nat) : Reading Token := do
  let c ← get
  look (min (c.index + ahead) (c.tokens.length - 1))

/-- Looks at the token behind the cursor, or at the first one if there is none. -/
def previous : Reading Token := do
  look ((← get).index - 1)

/-- Whether the cursor stands on a token of a kind. -/
def isNext (kind : TokenKind) : Reading Bool := do
  return (← current).kind = kind

/-- Whether the cursor stands on an end mark. -/
def atEnd : Reading Bool :=
  isNext .endOfInput

/-- Whether the cursor stands on a token of a kind, and a look at more than its kind says so as well. -/
def isNextAnd (kind : TokenKind) (more : Reading Bool) : Reading Bool := do
  if ← isNext kind then more else return false

/-- Whether the cursor stands on an identifier with a given text. -/
def isWord (word : Text) : Reading Bool :=
  isNextAnd .identifier do return (← current).text == word

/-- Moves the cursor to the next token. -/
def step : Reading Unit :=
  modify fun c => { c with index := c.index + 1, passed := c.passed ++ [c.index] }

/-- Moves the cursor to the next token, unless it stands on an end mark, and looks at the token behind. -/
def advance : Reading Token := do
  if ← atEnd then previous
  else
    step
    previous

/-- Moves the cursor over a token of a kind, if it stands on one. -/
def accept (kind : TokenKind) : Reading Bool := do
  if ← isNext kind then
    let _ ← advance
    return true
  else return false

/-- Finds fault with a token.  The first fault is reported and kept. -/
def blame (t : Token) (cause : Cause) : Reading α :=
  fun _ => OptionT.mk fun c => some (none, if c.fault?.isSome then c else c.faulted t cause)

/-- Finds fault with the token that the cursor stands on, because something else is expected. -/
def unexpected (expected : Expectation) : Reading α := do
  blame (← current) (.unexpected expected)

/-- Moves the cursor over a token of a kind, and finds fault if it does not stand on one. -/
def expect (kind : TokenKind) (expected : Expectation) : Reading Token := do
  if ← isNext kind then advance else unexpected expected

/-- Moves the cursor over documentation, if it stands on it, and returns its text. -/
def documentation : Reading (Option Text) := do
  if ← isNext .documentation then return some (← advance).text else return none

variable {α β : Type}

/-- Two readings are run one after the other, and the second one only if the first one returns a value. -/
theorem on_bind (p : Reading α) (f : α → Reading β) (turns : Nat) (c : Cursor) :
    (p >>= f).on turns c = (p.on turns c).bind fun
      | (some a, c') => (f a).on turns c'
      | (none, c') => some (none, c') := by
  change (p.on turns c).bind _ = _
  congr 1
  funext r
  rcases r with ⟨_ | a, c'⟩ <;> rfl

/-- A look notes the index that it went to, and fails outside of the tokens. -/
theorem on_look (i turns : Nat) (c : Cursor) :
    (look i).on turns c = c.tokens[i]?.map fun t => (some t, { c with looked := c.looked ++ [i] }) := rfl

/-- Blaming a token leaves a fault behind, if none was waiting. -/
theorem on_blame {c : Cursor} (calm : c.fault? = none) (t : Token) (cause : Cause) (turns : Nat) :
    (blame t cause : Reading α).on turns c = some (none, c.faulted t cause) := by
  change some (none, if c.fault?.isSome = true then c else c.faulted t cause) = _
  rw [calm]
  rfl

end Reading

/-! ## Tokens up to the first end mark -/

/-- The end mark of a stream is one. -/
theorem TokenStream.kind_stop (ts : List Token) : (ofTokens ts).stop.kind = .endOfInput := by
  unfold ofTokens
  split
  · next stop others behind =>
    have first := List.head?_dropWhile_not (fun t : Token => decide (t.kind ≠ .endOfInput)) ts
    rw [behind] at first
    simpa using first
  · cases ts.getLast? <;> rfl

/-- No token of a stream is an end mark. -/
theorem TokenStream.kind_ne_endOfInput {ts : List Token} :
    ∀ t ∈ (ofTokens ts).tokens, t.kind ≠ .endOfInput := by
  intro t mem
  unfold ofTokens at mem
  split at mem
  · simpa using List.mem_takeWhile_imp mem
  · next nothing => exact of_decide_eq_true (List.dropWhile_eq_nil_iff.mp nothing t mem)

/-- Tokens that start with one of a kind are that one and others. -/
theorem exists_cons_of_startsWith {kind : TokenKind} {tokens : List Token}
    (starts : startsWith kind tokens = true) : ∃ t left, tokens = t :: left ∧ t.kind = kind := by
  cases tokens with
  | nil => cases starts
  | cons t left => exact ⟨t, left, rfl, by simpa using starts⟩

/-- A token of a kind is not read where another one stands, or none. -/
theorem expect_of_startsWith_eq_false {kind : TokenKind} {tokens : List Token}
    (other : startsWith kind tokens = false) (expected : Expectation) :
    expect kind expected tokens = reject expected tokens := by
  cases tokens with
  | nil => rfl
  | cons t left => exact if_neg (by simpa using other)

/-- The token at the front of what is left, which is the end mark if nothing is. -/
def Token.front (ts rest : List Token) : Token :=
  rest.head?.getD (TokenStream.ofTokens ts).stop

/-- What is left starts with a token of a kind, other than that of end marks, if the front is one. -/
theorem Token.kind_front_iff {ts rest : List Token} {kind : TokenKind} (proper : kind ≠ .endOfInput) :
    (front ts rest).kind = kind ↔ startsWith kind rest = true := by
  cases rest with
  | nil =>
    constructor
    · exact fun same => absurd (same.symm.trans (TokenStream.kind_stop ts)) proper
    · exact fun starts => nomatch starts
  | cons t left => exact decide_eq_true_iff.symm

namespace Cursor

/-- The cursor stands in front of the tokens that are left. -/
structure At (ts rest : List Token) (c : Cursor) : Prop where
  tokens : c.tokens = Token.closed ts
  part : rest <:+ (TokenStream.ofTokens ts).tokens
  index : c.index + rest.length = (TokenStream.ofTokens ts).tokens.length
  steady : c.Steady

variable {ts rest : List Token} {c : Cursor}

/-- A token ahead that is not behind the end mark is one of those that are left, or the end mark. -/
theorem At.getElem?_ahead (h : c.At ts rest) {ahead : Nat} (le : ahead ≤ rest.length) :
    c.tokens[c.index + ahead]? = some (Token.front ts (rest.drop ahead)) := by
  obtain ⟨others, whole⟩ := TokenStream.ofTokens_isPrefix ts
  obtain ⟨before, split⟩ := h.part
  have index := h.index
  rw [← split, List.length_append] at index
  have stands : c.index = before.length := by omega
  rw [h.tokens, ← whole, ← split, stands, List.append_assoc, List.append_assoc,
    List.getElem?_append_right (by omega), Nat.add_sub_cancel_left, ← List.append_assoc, Token.front]
  rcases Nat.lt_or_eq_of_le le with more | rfl
  · simp [List.getElem?_append_left, more, List.head?_drop]
  · simp

/-- Looking at a token of the list changes the memory of looks alone. -/
theorem At.look (h : c.At ts rest) {i : Nat} (inside : i < c.tokens.length) :
    Cursor.At ts rest { c with looked := c.looked ++ [i] } where
  tokens := h.tokens
  part := h.part
  index := h.index
  steady := by
    refine ⟨fun j mem => ?_, h.steady.onward⟩
    rcases List.mem_append.mp mem with before | now
    · exact h.steady.inside j before
    · rwa [List.mem_singleton.mp now]

/-- Moving on from a token that is not an end mark keeps a cursor steady. -/
theorem At.step {t : Token} (h : c.At ts (t :: rest)) :
    Cursor.At ts rest { c with index := c.index + 1, passed := c.passed ++ [c.index] } where
  tokens := h.tokens
  part := (List.suffix_cons t rest).trans h.part
  index := by
    have index := h.index
    rw [List.length_cons] at index
    dsimp only
    omega
  steady := by
    refine ⟨h.steady.inside, List.pairwise_append.mpr ⟨h.steady.onward, List.pairwise_singleton _ _, ?_⟩⟩
    intro i mem j next
    rw [List.mem_singleton.mp next]
    have here : c.tokens[c.index]? = some t := h.getElem?_ahead (Nat.zero_le _)
    have proper := TokenStream.kind_ne_endOfInput t (h.part.subset List.mem_cons_self)
    -- The cursor came to its present index from every earlier one, and no end mark stands there.
    have before : Onward c.tokens i c.index := by
      rcases List.mem_append.mp mem with earlier | now
      · exact (List.pairwise_append.mp h.steady.onward).2.2 i earlier c.index (List.mem_singleton_self _)
      · rw [List.mem_singleton.mp now]
        exact ⟨le_rfl, fun _ => rfl⟩
    refine ⟨Nat.le_succ_of_le before.1, fun ends => ?_⟩
    rw [← before.2 ends, here] at ends
    exact absurd (by simpa using ends) proper

/-- A fault does not move the cursor. -/
theorem At.faulted (h : c.At ts rest) (t : Token) (cause : Cause) : (c.faulted t cause).At ts rest :=
  ⟨h.tokens, h.part, h.index, h.steady.inside, h.steady.onward⟩

end Cursor

/-- The report on a failure speaks of the offending token alone. -/
theorem Failure.diagnostic_lone {stop : Token} (isEnd : stop.kind = .endOfInput) (f : Failure) :
    f.diagnostic stop = (⟨[f.token stop], f.cause⟩ : Failure).diagnostic (f.token stop) := by
  rcases f with ⟨_ | ⟨t, others⟩, cause⟩
  · cases cause with
    | unexpected expected => simp [diagnostic, token, message, unexpectedMessage, isEnd, Token.describe]
    | _ => rfl
  · cases cause <;> rfl

/-! ## Readings and readers -/

/-- The cursor `c'` is where an outcome leaves it when it is read from the cursor `c`: in front of the tokens
that are left, with the report on a failure in its log and its error kept. -/
structure Cursor.Leaves {α : Type} (ts : List Token) (o : Outcome α) (c c' : Cursor) : Prop where
  place : c'.At ts o.rest
  fault : c'.fault? = errorOf? (o.judge (TokenStream.ofTokens ts).stop).outcome
  log : c'.log = c.log ++ (o.judge (TokenStream.ofTokens ts).stop).log

/-- In front of the tokens that are left, a reading ends as an outcome says: with its value, if it accepts, and
where it leaves the tokens.  One turn of a loop for each token, and one more, are enough for it. -/
def Meets {α : Type} (ts rest : List Token) (p : Reading α) (o : Outcome α) : Prop :=
  ∀ (turns : Nat) (c : Cursor), (TokenStream.ofTokens ts).tokens.length < turns → c.At ts rest →
    c.fault? = none → ∃ c', c.Leaves ts o c' ∧
      p.on turns c = some ((o.judge (TokenStream.ofTokens ts).stop).outcome.toOption, c')

namespace Meets

variable {α β : Type} {ts rest rest' : List Token}
variable {p : Reading α} {f : α → Reading β} {o : Outcome α} {a : α}

/-- A reading is only asked to meet an outcome where the tokens that are left belong to the stream. -/
theorem of_part (h : rest <:+ (TokenStream.ofTokens ts).tokens → Meets ts rest p o) : Meets ts rest p o :=
  fun turns c enough place calm => h place.part turns c enough place calm

/-- A value that is returned without reading leaves the tokens as they are. -/
theorem pure (a : α) : Meets ts rest (pure a) (.accepted a rest) := by
  intro turns c enough place calm
  exact ⟨c, ⟨place, calm, (List.append_nil c.log).symm⟩, rfl⟩

/-- Readings that follow one another meet the outcomes of readers that follow one another. -/
theorem bind {next : α → List Token → Outcome β} (first : Meets ts rest p o)
    (second : ∀ a left, o = .accepted a left → Meets ts left (f a) (next a left)) :
    Meets ts rest (p >>= f) (o.andThen next) := by
  intro turns c enough place calm
  obtain ⟨c', leaves, read⟩ := first turns c enough place calm
  rw [Reading.on_bind, read]
  cases o with
  | rejected failure left => exact ⟨c', ⟨leaves.place, leaves.fault, leaves.log⟩, rfl⟩
  | accepted a left =>
    obtain ⟨c'', last, behind⟩ := second a left rfl turns c' enough leaves.place leaves.fault
    refine ⟨c'', ⟨last.place, last.fault, ?_⟩, behind⟩
    rw [last.log, leaves.log]
    exact congrArg (· ++ _) (List.append_nil c.log)

/-- A reading that accepts is followed by the next one. -/
theorem andThen {o : Outcome β} (first : Meets ts rest p (.accepted a rest')) (second : Meets ts rest' (f a) o) :
    Meets ts rest (p >>= f) o := by
  have both : Meets ts rest (p >>= f) ((Outcome.accepted a rest').andThen fun _ _ => o) := by
    refine first.bind fun b left same => ?_
    cases same
    exact second
  exact both

/-- A reading that rejects is followed by nothing. -/
theorem rejected {failure : Failure} (first : Meets ts rest p (.rejected failure rest')) :
    Meets ts rest (p >>= f) (.rejected failure rest') := by
  have both : Meets ts rest (p >>= f)
      ((Outcome.rejected failure rest' : Outcome α).andThen fun _ left => .rejected failure left) :=
    first.bind fun _ _ same => nomatch same
  exact both

/-- Readings that return a changed value. -/
theorem map (h : Meets ts rest p o) (g : α → β) :
    Meets ts rest (p >>= fun a => Pure.pure (g a)) (o.map g) :=
  h.bind fun a _ _ => pure (g a)

/-! ## Loops -/

/-- A loop ends as the outcomes say that belong to its turns, if a turn does so as long as the loop does on
fewer tokens: the tokens that are left are the turns that it has left. -/
theorem loopWith {ι : Type} {body : (ι → Reading α) → ι → Reading α}
    {Q : ι → List Token → Outcome α → Prop}
    (turn : ∀ again i rest o, Q i rest o →
      (∀ j left o, Q j left o → left.length < rest.length → Meets ts left (again j) o) →
      Meets ts rest (body again i) o)
    {i : ι} (h : Q i rest o) : Meets ts rest (Reading.loopWith body i) o := by
  have unrolled : ∀ (count : Nat) (i : ι) (rest : List Token) (o : Outcome α), Q i rest o →
      rest.length < count → Meets ts rest (Reading.unroll body count i) o := by
    intro count
    induction count with
    | zero => exact fun i rest o _ few => absurd few (Nat.not_lt_zero _)
    | succ count ih =>
      intro i rest o isTurn few
      exact turn _ i rest o isTurn fun j left o' later fewer => ih j left o' later (by omega)
  intro turns c enough place calm
  have few : rest.length < turns := Nat.lt_of_le_of_lt place.part.length_le enough
  exact unrolled turns i rest o h few turns c enough place calm

/-- The same for a loop that keeps nothing from turn to turn. -/
theorem loop {body : Reading α → Reading α} {o : List Token → Outcome α}
    (turn : ∀ again rest, (∀ left, left.length < rest.length → Meets ts left again (o left)) →
      Meets ts rest (body again) (o rest)) :
    Meets ts rest (Reading.loop body) (o rest) := by
  refine loopWith (Q := fun _ rest o' => o' = o rest) ?_ rfl
  rintro again i rest _ rfl later
  exact turn (again ()) rest fun left fewer => later () left _ rfl fewer

/-! ## Looks -/

/-- Looking at a token of the list. -/
theorem look {i : Nat} {t : Token} (here : (Token.closed ts)[i]? = some t) :
    Meets ts rest (Reading.look i) (.accepted t rest) := by
  intro turns c enough place calm
  rw [← place.tokens] at here
  have inside : i < c.tokens.length := (List.getElem?_eq_some_iff.mp here).1
  rw [Reading.on_look, here]
  exact ⟨_, ⟨place.look inside, calm, (List.append_nil c.log).symm⟩, rfl⟩

/-- A look at an index that depends on the cursor. -/
theorem lookAt {g : Cursor → Nat} {t : Token}
    (here : ∀ c : Cursor, c.At ts rest → (Token.closed ts)[g c]? = some t) :
    Meets ts rest (do Reading.look (g (← get))) (.accepted t rest) := by
  intro turns c enough place calm
  exact look (here c place) turns c enough place calm

theorem current : Meets ts rest Reading.current (.accepted (Token.front ts rest) rest) :=
  lookAt fun _ place => place.tokens ▸ place.getElem?_ahead (Nat.zero_le _)

/-- Looking ahead as far as the end mark. -/
theorem peek {ahead : Nat} (le : ahead ≤ rest.length) :
    Meets ts rest (Reading.peek ahead) (.accepted (Token.front ts (rest.drop ahead)) rest) := by
  refine lookAt fun c place => ?_
  have here := place.getElem?_ahead le
  have inside := (List.getElem?_eq_some_iff.mp here).1
  rw [Nat.min_eq_left (by omega), ← place.tokens, here]

/-- Looking at the token ahead of one that is left. -/
theorem peek_cons {t : Token} :
    Meets ts (t :: rest) (Reading.peek 1) (.accepted (Token.front ts rest) (t :: rest)) :=
  peek (by simp)

/-- Looking ahead is defined everywhere, since it stops at the last token. -/
theorem exists_peek (ts rest : List Token) (ahead : Nat) :
    ∃ t, Meets ts rest (Reading.peek ahead) (.accepted t rest) := by
  let count := (TokenStream.ofTokens ts).tokens.length
  let i := min (count - rest.length + ahead) ((Token.closed ts).length - 1)
  have nonempty := (TokenStream.ofTokens_isPrefix ts).length_le
  have inside : i < (Token.closed ts).length := by
    rw [List.length_append, List.length_singleton] at nonempty
    omega
  refine ⟨(Token.closed ts)[i], lookAt fun c place => ?_⟩
  have index := place.index
  rw [place.tokens, show c.index = count - rest.length by omega]
  exact List.getElem?_eq_getElem inside

/-- The token behind the cursor is the one that was left last. -/
theorem previous {last : Token} (behind : last :: rest <:+ (TokenStream.ofTokens ts).tokens) :
    Meets ts rest Reading.previous (.accepted last rest) := by
  refine lookAt fun c place => ?_
  obtain ⟨others, whole⟩ := TokenStream.ofTokens_isPrefix ts
  obtain ⟨before, split⟩ := behind
  have index := place.index
  rw [← split, List.length_append, List.length_cons] at index
  rw [← whole, ← split, show c.index - 1 = before.length by omega]
  simp

/-- Whether the cursor stands on a token of some kind is seen at the tokens that are left. -/
theorem isNext {kind : TokenKind} (proper : kind ≠ .endOfInput) :
    Meets ts rest (Reading.isNext kind) (.accepted (startsWith kind rest) rest) := by
  have same : decide ((Token.front ts rest).kind = kind) = startsWith kind rest := by
    rw [Bool.eq_iff_iff, decide_eq_true_iff, Token.kind_front_iff proper]
  exact current.andThen (same ▸ pure _)

/-- The cursor is at the end where no token is left. -/
theorem atEnd : Meets ts rest Reading.atEnd (.accepted rest.isEmpty rest) := by
  refine of_part fun part => current.andThen ?_
  have same : decide ((Token.front ts rest).kind = .endOfInput) = rest.isEmpty := by
    cases rest with
    | nil => exact decide_eq_true (TokenStream.kind_stop ts)
    | cons t others => exact decide_eq_false (TokenStream.kind_ne_endOfInput t (part.subset List.mem_cons_self))
  rw [same]
  exact pure _

/-- What more is to be seen has only to be said of the first of the tokens that are left. -/
theorem isNextAnd {kind : TokenKind} (proper : kind ≠ .endOfInput) {more : Reading Bool} {b : Token → Bool}
    (each : ∀ t left, rest = t :: left → Meets ts rest more (.accepted (b t) rest)) :
    Meets ts rest (Reading.isNextAnd kind more)
      (.accepted (rest.head?.any fun t => t.kind = kind && b t) rest) := by
  refine (isNext proper).andThen ?_
  cases rest with
  | nil => exact pure false
  | cons t left =>
    rw [startsWith_cons, List.head?_cons, Option.any_some]
    by_cases isKind : t.kind = kind
    · rw [if_pos (decide_eq_true isKind), decide_eq_true isKind, Bool.true_and]
      exact each t left rfl
    · rw [if_neg (by simpa using isKind), decide_eq_false isKind, Bool.false_and]
      exact pure false

/-- The next token is a given word where the tokens start with it. -/
theorem isWord (word : Text) :
    Meets ts rest (Reading.isWord word) (.accepted (startsWithWord word rest) rest) := by
  refine isNextAnd (by decide) fun t left whole => ?_
  subst whole
  exact current.andThen (pure _)

/-! ## Moves -/

/-- Moving over the first of the tokens that are left. -/
theorem advance {t : Token} : Meets ts (t :: rest) Reading.advance (.accepted t rest) := by
  refine of_part fun part => atEnd.andThen ?_
  have step : Meets ts (t :: rest) Reading.step (.accepted () rest) := fun turns c enough place calm =>
    ⟨_, ⟨place.step, calm, (List.append_nil c.log).symm⟩, rfl⟩
  exact step.andThen (previous part)

/-- A token of the kind is passed over. -/
theorem accept_of_kind {kind : TokenKind} (proper : kind ≠ .endOfInput) {t : Token} (isKind : t.kind = kind) :
    Meets ts (t :: rest) (Reading.accept kind) (.accepted true rest) := by
  have next : Meets ts (t :: rest) _ _ := isNext proper
  rw [startsWith_cons, decide_eq_true isKind] at next
  exact next.andThen (advance.andThen (pure true))

/-- Nothing else is. -/
theorem accept_of_other {kind : TokenKind} (proper : kind ≠ .endOfInput) (other : startsWith kind rest = false) :
    Meets ts rest (Reading.accept kind) (.accepted false rest) := by
  have next : Meets ts rest _ _ := isNext proper
  rw [other] at next
  exact next.andThen (pure false)

/-! ## Faults -/

/-- Finding fault with the token at the front of the site of a failure. -/
theorem blame (site : List Token) (cause : Cause) :
    Meets ts rest (Reading.blame (Token.front ts site) cause : Reading α) (.rejected ⟨site, cause⟩ rest) := by
  intro turns c enough place calm
  have same := Failure.diagnostic_lone (TokenStream.kind_stop ts) ⟨site, cause⟩
  refine ⟨_, ⟨place.faulted _ _, ?_, ?_⟩, Reading.on_blame calm _ _ turns⟩
  · exact congrArg (fun d => some (SchemaError.syntaxFault d _)) same.symm
  · exact congrArg (fun d => c.log.report d) same.symm

/-- An unexpected token is blamed as the readers blame it. -/
theorem unexpected (expected : Expectation) :
    Meets ts rest (Reading.unexpected expected : Reading α) (reject expected rest) :=
  current.andThen (blame rest _)

/-- An expected token is taken as the readers take it. -/
theorem expect {kind : TokenKind} (proper : kind ≠ .endOfInput) (expected : Expectation) :
    Meets ts rest (Reading.expect kind expected) (ThetaSchema.expect kind expected rest) := by
  refine (isNext proper).andThen ?_
  cases rest with
  | nil => exact unexpected expected
  | cons t others =>
    rw [startsWith_cons, ThetaSchema.expect]
    by_cases isKind : t.kind = kind
    · rw [if_pos (decide_eq_true isKind), if_pos isKind]
      exact advance
    · rw [if_neg (by simpa using isKind), if_neg isKind]
      exact unexpected expected

/-- Documentation is passed over by the cursor as it is by the readers. -/
theorem documentation :
    Meets ts rest Reading.documentation (.accepted (docOf rest) (afterDoc rest)) := by
  refine (isNext (by decide)).andThen ?_
  cases rest with
  | nil => exact pure _
  | cons t others =>
    rw [startsWith_cons, docOf, afterDoc, startsWith_cons]
    by_cases isDoc : t.kind = .documentation
    · rw [if_pos (decide_eq_true isDoc), if_pos (decide_eq_true isDoc), List.head?_cons, Option.bind_some,
        if_pos isDoc]
      exact advance.andThen (pure _)
    · rw [if_neg (by simpa using isDoc), if_neg (by simpa using isDoc), List.head?_cons, Option.bind_some,
        if_neg isDoc]
      exact pure _

end Meets

end ThetaSchema
