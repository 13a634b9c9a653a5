import ThetaSchema.Proofs.Cursor.Definitions
import ThetaSchema.Proofs.Cursor.Header

/-!
# Requests served by a cursor

Bodies, definitions and types on their own as a cursor reads them, and any number of requests served one after
the other on the same list.  A list that is empty or does not end with an end mark gets one; one that has end
marks in the middle is kept as it is.  Every request is served with as many turns for each loop as there are
tokens, and one more, and the cursor ends up where the session does.

Main definitions:

- `Reading.body`, `Reading.loneDefinition`, `Reading.loneType`: the other parts that can be asked for.
- `Cursor.start`, `Cursor.serve`, `Cursor.serveAll`: requests served on one list of tokens.
- `Cursor.Follows`: a cursor is where a session is.

Main results:

- `Cursor.Follows.serve`: serving a request keeps cursor and session together.
- `Cursor.exists_serveAll`: every request ends, with looks at tokens of the list alone, and the cursor never goes
  back and stays at the first end mark.
-/

namespace ThetaSchema

namespace Reading

/-! ## Statements -/

/-- Reads an import, from its keyword on. -/
def imports : Reading Statement := do
  let keyword ← advance
  let (first, others) ← path
  return .imports keyword.location (dotted (first :: others))

/-- Whether nothing that documentation can belong to follows. -/
def documentationEnds : Reading Bool := do
  if ← atEnd then return true else isNext .documentation

/-- Whether no definition follows documentation at the start of a statement. -/
def noDefinitionAhead : Reading Bool := do
  if ← documentationEnds then return true else isWord importKeyword

/-- Whether documentation was read, and nothing follows that it can belong to. -/
def strays (doc : Option Text) (nothingAhead : Reading Bool) : Reading Bool :=
  if doc.isSome then nothingAhead else return false

/-- Reads a statement. -/
def statement (m : Metadata) : Reading Statement := do
  let docToken ← current
  let doc ← documentation
  if ← strays doc noDefinitionAhead then blame docToken (.strayDocumentation .definition)
  else if ← isWord importKeyword then imports
  else return .defines (← definition m doc)

/-- Reads statements up to the end mark. -/
def body (m : Metadata) : Reading (List Statement) :=
  loop fun again => do
    if ← atEnd then return []
    else
      let first ← statement m
      let others ← again
      return first :: others

/-! ## Definitions and types on their own -/

/-- Returns a value if the cursor stands on an end mark. -/
def finish (a : α) : Reading α := do
  if ← atEnd then return a
  else if ← isNext .documentation then blame (← current) (.strayDocumentation .definition)
  else unexpected .endOfInput

/-- Reads a definition up to the end mark. -/
def loneDefinition (m : Metadata) : Reading Definition := do
  let docToken ← current
  let doc ← documentation
  if ← strays doc documentationEnds then blame docToken (.strayDocumentation .definition)
  else definition m doc >>= finish

/-- Reads a type expression up to the end mark. -/
def loneType (m : Metadata) : Reading TypeExpr :=
  type m >>= finish

/-- Reads the part that a request asks for. -/
def part : Session.Request → Reading Session.Part
  | .header moduleName => return .header (← header moduleName)
  | .body m => return .body (← body m)
  | .definition m => return .definition (← loneDefinition m)
  | .type m => return .type (← loneType m)

end Reading

namespace Cursor

/-! ## Requests -/

/-- A cursor at the start of a list of tokens, which gets an end mark if there is none at its end. -/
def start (ts : List Token) : Cursor :=
  { tokens := Token.closed ts }

/-- Takes the fault that was kept.  If there is none, reading has failed without a reason, which is reported at
the token that the cursor stands on. -/
def takeFault (c : Cursor) : Option (SchemaError × Cursor) :=
  match c.fault? with
  | some e => some (e, { c with fault? := none })
  | none => c.tokens[c.index]?.map fun t =>
    let d : Diagnostic := ⟨.error, t.location, "parse failed", (max 1 t.text.length).toUInt32⟩
    (.syntaxFault d none, { c with looked := c.looked ++ [c.index], log := c.log.report d })

/-- Serves a request, with a number of turns for each loop. -/
def serve (turns : Nat) (c : Cursor) (request : Session.Request) :
    Option (Except SchemaError Session.Part × Cursor) :=
  ((Reading.part request).on turns c).bind fun
    | (some part, c') => some (.ok part, c')
    | (none, c') => c'.takeFault.map fun (e, c'') => (.error e, c'')

/-- Serves requests one after the other, whatever becomes of each. -/
def serveAll (turns : Nat) : List Session.Request → Cursor →
    Option (List (Except SchemaError Session.Part) × Cursor)
  | [], c => some ([], c)
  | request :: requests, c => do
    let (reply, c') ← c.serve turns request
    let (replies, c'') ← serveAll turns requests c'
    return (reply :: replies, c'')

end Cursor

namespace Meets

variable {ts rest : List Token}

/-! ## Statements -/

/-- An import is read as its reader reads it, the keyword included. -/
theorem imports {t : Token} : Meets ts (t :: rest) Reading.imports (readImport (t :: rest)) :=
  advance.andThen (path.bind fun _ _ _ => pure _)

/-- A look at the next token tells whether documentation is the last thing in the input or in front of more of
it. -/
theorem documentationEnds :
    Meets ts rest Reading.documentationEnds (.accepted (endsDocumentation rest) rest) := by
  refine atEnd.andThen ?_
  rw [endsDocumentation]
  cases rest.isEmpty with
  | true => exact pure true
  | false => exact isNext (by decide)

/-- Two looks tell whether documentation stands in front of no definition. -/
theorem noDefinitionAhead : Meets ts rest Reading.noDefinitionAhead
    (.accepted (endsDocumentation rest || startsWithWord importKeyword rest) rest) := by
  refine documentationEnds.andThen ?_
  cases endsDocumentation rest with
  | true => exact pure true
  | false => exact isWord importKeyword

/-- Documentation strays if it is there and the look behind it says so. -/
theorem strays {tokens : List Token} {p : Reading Bool} {b : Bool} (ahead : Meets ts rest p (.accepted b rest)) :
    Meets ts rest (Reading.strays (docOf tokens) p) (.accepted (startsWith .documentation tokens && b) rest) := by
  rw [Reading.strays, isSome_docOf]
  cases startsWith .documentation tokens with
  | true => exact ahead
  | false => exact pure false

/-- A statement is read as its reader reads it. -/
theorem statement (m : Metadata) : Meets ts rest (Reading.statement m) (readStatement m rest) := by
  refine current.andThen (documentation.andThen ((strays noDefinitionAhead).andThen ?_))
  rw [readStatement]
  cases startsWith .documentation rest &&
      (endsDocumentation (afterDoc rest) || startsWithWord importKeyword (afterDoc rest)) with
  | true => exact blame rest _
  | false =>
    refine (isWord importKeyword).andThen ?_
    cases word : startsWithWord importKeyword (afterDoc rest) with
    | true =>
      cases whole : afterDoc rest with
      | nil =>
        rw [whole] at word
        cases word
      | cons t left => exact imports
    | false => exact (definition m _).map Statement.defines

/-- The loop over the statements of a body. -/
theorem body (m : Metadata) : Meets ts rest (Reading.body m) (readBody m rest) := by
  refine loop (o := readBody m) fun again rest later => atEnd.andThen ?_
  cases rest with
  | nil =>
    rw [readBody]
    exact pure []
  | cons t left =>
    rw [readBody_cons]
    refine (statement m).bind fun s behind accepted => ?_
    exact (later behind (readStatement_accepted accepted)).map (s :: ·)

/-! ## Definitions and types on their own -/

/-- Behind a complete value the cursor has to be at the end. -/
theorem finish {α : Type} (a : α) : Meets ts rest (Reading.finish a) (ThetaSchema.finish a rest) := by
  refine atEnd.andThen ?_
  cases rest with
  | nil => exact pure a
  | cons t left =>
    refine (isNext (by decide)).andThen ?_
    rw [ThetaSchema.finish]
    cases startsWith .documentation (t :: left) with
    | true => exact current.andThen (blame (t :: left) _)
    | false => exact unexpected .endOfInput

/-- A definition on its own is read as its reader reads it. -/
theorem loneDefinition (m : Metadata) :
    Meets ts rest (Reading.loneDefinition m) (readLoneDefinition m rest) := by
  refine current.andThen (documentation.andThen ((strays documentationEnds).andThen ?_))
  rw [readLoneDefinition]
  cases startsWith .documentation rest && endsDocumentation (afterDoc rest) with
  | true => exact blame rest _
  | false => exact (definition m _).bind fun d _ _ => finish d

/-- A type on its own is read as its reader reads it. -/
theorem loneType (m : Metadata) : Meets ts rest (Reading.loneType m) (readLoneType m rest) :=
  (type m).bind fun e _ _ => finish e

end Meets

/-! ## Cursors and sessions -/

/-- What a reader makes of the tokens of a session that remain, for a request. -/
def Session.answer (s : Session) : Session.Request → Outcome Session.Part
  | .header moduleName => (readHeader s.previous? moduleName s.remaining).map .header
  | .body m => (readBody m s.remaining).map .body
  | .definition m => (readLoneDefinition m s.remaining).map .definition
  | .type m => (readLoneType m s.remaining).map .type

/-- The verdict on a changed value is the changed verdict. -/
theorem Outcome.judge_map {α β : Type} (stop : Token) (o : Outcome α) (g : α → β) :
    (o.map g).judge stop = ⟨(o.judge stop).log, (o.judge stop).outcome.map g⟩ := by
  cases o <;> rfl

/-- A request is served by running the reader that belongs to it. -/
theorem Session.serve_eq_run_answer (s : Session) (request : Session.Request) :
    s.serve request = s.run fun _ => s.answer request := by
  cases request <;>
    simp only [serve, header, body, definition, type, run, answer, Outcome.judge_map, Outcome.rest_map,
      Prod.map, id]

namespace Cursor

/-- A cursor is where a session is: in front of the same tokens, with the same reports. -/
structure Follows (ts : List Token) (s : Session) (c : Cursor) : Prop where
  stream : s.stream = TokenStream.ofTokens ts
  place : c.At ts s.remaining
  index : c.index = s.cursor
  calm : c.fault? = none
  log : c.log = s.log

variable {ts : List Token} {s : Session} {c : Cursor}

/-- A new cursor follows a new session. -/
theorem Follows.start (ts : List Token) : (start ts).Follows ts (Session.start (TokenStream.ofTokens ts)) where
  stream := rfl
  place :=
    { tokens := rfl
      part := List.suffix_rfl
      index := Nat.zero_add _
      steady := ⟨fun _ mem => absurd mem List.not_mem_nil, List.pairwise_singleton _ _⟩ }
  index := rfl
  calm := rfl
  log := rfl

/-- The cursor reads what the readers answer to a request. -/
theorem Follows.meets (h : c.Follows ts s) (request : Session.Request) :
    Meets ts s.remaining (Reading.part request) (s.answer request) := by
  cases request with
  | header moduleName =>
    have index := h.place.index
    rw [h.index] at index
    have previous : s.previous? = lastConsumed? (TokenStream.ofTokens ts).tokens s.remaining := by
      rw [Session.previous?, lastConsumed?, h.stream, ← index, Nat.add_sub_cancel]
    rw [Session.answer, previous]
    exact (Meets.header moduleName).map Session.Part.header
  | body m => exact (Meets.body m).map Session.Part.body
  | definition m => exact (Meets.loneDefinition m).map Session.Part.definition
  | type m => exact (Meets.loneType m).map Session.Part.type

/-- Where an outcome leaves a cursor, it leaves the session. -/
theorem Follows.of_leaves (h : c.Follows ts s) {α : Type} {o : Outcome α} {c' : Cursor}
    (leaves : c.Leaves ts o c') : Cursor.Follows ts (s.run fun _ => o).1 { c' with fault? := none } where
  stream := h.stream
  place := by
    have remaining : (s.run fun _ => o).1.remaining = o.rest := by
      simp only [Session.run, Session.remaining, h.stream]
      exact (List.suffix_iff_eq_drop.mp leaves.place.part).symm
    rw [remaining]
    exact ⟨leaves.place.tokens, leaves.place.part, leaves.place.index, leaves.place.steady.inside,
      leaves.place.steady.onward⟩
  index := by
    have index := leaves.place.index
    simp only [Session.run, h.stream]
    omega
  calm := rfl
  log := by
    simp only [Session.run, h.stream, ← h.log]
    exact leaves.log

/-- Serving a request keeps cursor and session together. -/
theorem Follows.serve (h : c.Follows ts s) {turns : Nat}
    (enough : (TokenStream.ofTokens ts).tokens.length < turns) (request : Session.Request) :
    ∃ c', c.serve turns request = some ((s.serve request).2, c') ∧ c'.Follows ts (s.serve request).1 := by
  obtain ⟨c', leaves, read⟩ := h.meets request turns c enough h.place h.calm
  refine ⟨{ c' with fault? := none }, ?_, s.serve_eq_run_answer request ▸ h.of_leaves leaves⟩
  have fault := leaves.fault
  rw [Cursor.serve, read, s.serve_eq_run_answer, Session.run, h.stream]
  cases answer : s.answer request with
  | accepted part rest =>
    rw [answer] at fault
    have same : { c' with fault? := none } = c' := by rw [← show c'.fault? = none from fault]
    rw [same]
    rfl
  | rejected f rest =>
    rw [answer] at fault
    simp only [Outcome.judge, Except.toOption, Option.bind_some, takeFault]
    rw [show c'.fault? = some (f.error _) from fault]
    rfl

/-- The same for requests that are served one after the other. -/
theorem Follows.serveAll (h : c.Follows ts s) {turns : Nat}
    (enough : (TokenStream.ofTokens ts).tokens.length < turns) (requests : List Session.Request) :
    ∃ c', c.serveAll turns requests = some (s.replies requests, c') ∧ c'.Follows ts (s.after requests) := by
  induction requests generalizing c s with
  | nil => exact ⟨c, rfl, h⟩
  | cons request requests ih =>
    obtain ⟨c', served, follows⟩ := h.serve enough request
    obtain ⟨c'', others, last⟩ := ih follows
    refine ⟨c'', ?_, last⟩
    rw [Cursor.serveAll, served, Option.bind_eq_bind, Option.bind_some]
    dsimp only
    rw [others]
    rfl

/-- For any tokens and any requests that are served one after the other, every request ends as soon as a loop
may turn more often than there are tokens, with the reply of the session and the cursor where the session is.
All tokens that the cursor looked at on the way are in the list, it never went back, and where it came to stand
on an end mark it stayed. -/
theorem exists_serveAll (ts : List Token) (requests : List Session.Request) {turns : Nat}
    (enough : ts.length < turns) :
    let s := Session.start (TokenStream.ofTokens ts)
    ∃ c : Cursor, (Cursor.start ts).serveAll turns requests = some (s.replies requests, c) ∧
      c.tokens = Token.closed ts ∧ c.index = (s.after requests).cursor ∧ c.log = (s.after requests).log ∧
      (∀ i ∈ c.looked, i < (Token.closed ts).length) ∧
      c.path.Pairwise (· ≤ ·) ∧
      c.path.Pairwise fun i j => (Token.closed ts)[i]?.any (·.kind = .endOfInput) → j = i := by
  intro s
  have closed : (Token.closed ts).length ≤ ts.length + 1 := by
    unfold Token.closed
    split <;> simp
  have inside := (TokenStream.ofTokens_isPrefix ts).length_le
  rw [List.length_append, List.length_singleton] at inside
  have fewer : (TokenStream.ofTokens ts).tokens.length < turns := by omega
  obtain ⟨c, served, follows⟩ := (Follows.start ts).serveAll fewer requests
  have steady := follows.place.steady
  rw [← follows.place.tokens]
  exact ⟨c, served, rfl, follows.index, follows.log, steady.inside, steady.onward.imp fun onward => onward.1,
    steady.onward.imp fun onward => onward.2⟩

/-- With an end mark in the middle, a body, a type and a header end there one after the other.  The cursor moves
once, and it looks at no token behind the mark. -/
theorem exists_serveAll_interrupted :
    let m : Metadata := ⟨⟨1, 0, 0⟩, ⟨1, 0, 0⟩, "a"⟩
    let requests : List Session.Request := [.body m, .type m, .header "a"]
    interruptedTokens.length < 4 ∧
      ∃ c : Cursor, (Cursor.start interruptedTokens).serveAll 4 requests =
          some ((Session.start (TokenStream.ofTokens interruptedTokens)).replies requests, c) ∧
        c.path = [0, 1] ∧ ∀ i ∈ c.looked, i ≤ 1 := by
  intro m requests
  have enough : interruptedTokens.length < 4 := by decide
  obtain ⟨c, served, -⟩ := exists_serveAll interruptedTokens requests enough
  have run : ((Cursor.start interruptedTokens).serveAll 4 requests).map
      (fun result => (result.2.path, result.2.looked.all (· ≤ 1))) = some ([0, 1], true) := by decide +kernel
  rw [served, Option.map_some, Option.some.injEq, Prod.mk.injEq] at run
  exact ⟨enough, c, served, run.1, by simpa using run.2⟩

end Cursor

end ThetaSchema
