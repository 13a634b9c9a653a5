import Mathlib.Data.List.TakeWhile
import ThetaSchema.Proofs.Grammar.Faults

/-!
# One report for every failure

A session serves requests for headers, bodies, definitions and types in any order and goes on after a
failure.  A request that succeeds leaves the log alone.  One that fails adds the diagnostic of the error
that it returns, about one token of the input or its end, so the log of a session is the list of its
failures.  Reading a module reports in the same way.

Main definitions:

- `Session.Request`, `Session.serve`: the requests and how they are served.
- `Session.after`, `Session.replies`: requests that are served one after the other.
- `Reported`: what a request leaves in the log.

Main results:

- `Failure.message_ne`: every failure is worded by its cause.
- `Session.serve_reported`: the report on one request.
- `Session.log_after`: the log behind any number of requests.
- `session_reported`: both, and the reports on modules.
-/

namespace ThetaSchema

/-! ## Wording -/

/-- Texts that start differently differ. -/
theorem Text.append_ne {s t w : Text} (nonempty : s ≠ []) (first : s.head? ≠ w.head?) : s ++ t ≠ w := by
  rintro rfl
  cases s with
  | nil => exact nonempty rfl
  | cons b s => exact first rfl

/-- Every failure is worded by its cause, never by the bare fact that reading failed. -/
theorem Failure.message_ne (f : Failure) : f.message ≠ "parse failed" := by
  rcases f with ⟨site, cause⟩
  cases cause with
  | unfinishedHeader | crowdedSeparator =>
    simp only [message]
    decide
  | unexpected expected =>
    simp only [message, unexpectedMessage, List.append_assoc]
    split
    · exact Text.append_ne (by decide) (by decide)
    · split
      · decide
      · exact Text.append_ne (by decide) (by decide)
      · exact Text.append_ne (by decide) (by decide)
  | unknownKey | duplicateKey | malformedVersion | missingKey | strayDocumentation | reservedWord | missingSize
  | sizeOutOfRange | unavailable =>
    simp only [message, Text.quoted, VersionMismatch.message, List.append_assoc]
    exact Text.append_ne (by decide) (by decide)

/-! ## The tokens of a session -/

/-- A list of tokens with an end mark at its end, which is added if there is none. -/
def Token.closed (ts : List Token) : List Token :=
  if ts.getLast?.any (·.kind = .endOfInput) then ts else ts ++ [TokenStream.stopAfter ts.getLast?]

theorem Token.isPrefix_closed (ts : List Token) : ts <+: closed ts := by
  unfold closed
  split
  · exact List.prefix_rfl
  · exact List.prefix_append ts _

/-- A stream of tokens and the end mark behind it are a front part of the closed list. -/
theorem TokenStream.ofTokens_isPrefix (ts : List Token) :
    (ofTokens ts).tokens ++ [(ofTokens ts).stop] <+: Token.closed ts := by
  have split := List.takeWhile_append_dropWhile (p := fun t : Token => decide (t.kind ≠ .endOfInput)) (l := ts)
  unfold ofTokens
  cases behind : ts.dropWhile (fun t => decide (t.kind ≠ .endOfInput)) with
  | nil =>
    have proper : ts.getLast?.any (fun t => decide (t.kind = .endOfInput)) = false := by
      rw [Option.any_eq_false_iff_get]
      intro some
      have last := List.mem_of_getLast? (Option.some_get some).symm
      simpa using List.dropWhile_eq_nil_iff.mp behind _ last
    rw [Token.closed, proper]
    exact List.prefix_rfl
  | cons stop rest =>
    refine List.IsPrefix.trans ⟨rest, ?_⟩ (Token.isPrefix_closed ts)
    rw [behind] at split
    rw [List.append_assoc, List.singleton_append, split]

/-- The offending token of a failure that is blamed on tokens of a stream is one of the closed list. -/
theorem Failure.token_mem_closed {ts : List Token} {f : Failure}
    (h : f.site <:+ (TokenStream.ofTokens ts).tokens) :
    f.token (TokenStream.ofTokens ts).stop ∈ Token.closed ts := by
  refine (TokenStream.ofTokens_isPrefix ts).subset ?_
  rw [token]
  cases site : f.site with
  | nil => exact List.mem_append_right _ (List.mem_singleton_self _)
  | cons t others =>
    rw [site] at h
    exact List.mem_append_left _ (h.subset List.mem_cons_self)

/-- The end mark that is added to a list has no text, so texts stay as short as they are. -/
theorem Token.length_text_closed {ts : List Token} (small : ∀ t ∈ ts, t.text.length < UInt32.size) :
    ∀ t ∈ closed ts, t.text.length < UInt32.size := by
  intro t mem
  unfold closed at mem
  split at mem
  · exact small t mem
  · rcases List.mem_append.mp mem with given | added
    · exact small t given
    · rw [List.mem_singleton.mp added]
      cases ts.getLast? <;> exact Nat.zero_lt_succ _

/-! ## Reports -/

/-- What a request leaves in the log, given the tokens, the log before it and its result.  A success leaves
the log as it is.  A failure adds the diagnostic of its error, which is about one of the tokens. -/
inductive Reported {α : Type} (tokens : List Token) (before : Log) : Except SchemaError α → Log → Prop
  | silent (a : α) : Reported tokens before (.ok a) before
  | once {d : Diagnostic} {mismatch : Option VersionMismatch} {t : Token} (isError : d.severity = .error)
      (inside : t ∈ tokens) (located : d.location = t.location)
      (covers : d.length.toNat = max 1 t.text.length) (worded : d.message ≠ "parse failed") :
      Reported tokens before (.error (.syntaxFault d mismatch)) (before ++ [d])

/-- A report says nothing about the value of a success. -/
theorem Reported.map {α β : Type} {tokens : List Token} {before log : Log} {result : Except SchemaError α}
    (h : Reported tokens before result log) (g : α → β) : Reported tokens before (result.map g) log := by
  cases h with
  | silent a => exact .silent (g a)
  | once isError inside located covers worded => exact .once isError inside located covers worded

/-- A diagnostic that covers at least one byte is recorded as it is. -/
theorem Diagnostic.recorded_of_pos {d : Diagnostic} (h : 0 < d.length.toNat) : d.recorded = d := by
  have one : (1 : UInt32) ≤ d.length := UInt32.le_iff_toNat_le.mpr h
  have same : max 1 d.length = d.length := if_pos one
  rw [recorded, same]

/-- The length of a report on a token that is shorter than 32 bits can count. -/
theorem Failure.length_diagnostic {stop : Token} {f : Failure}
    (small : (f.token stop).text.length < UInt32.size) :
    (f.diagnostic stop).length.toNat = max 1 (f.token stop).text.length := by
  have bound : max 1 (f.token stop).text.length < UInt32.size := by
    rw [Nat.max_lt]
    exact ⟨by decide, small⟩
  rw [diagnostic, Nat.toUInt32, UInt32.toNat_ofNat_of_lt' bound]

/-- The verdict on an outcome that blames its tokens is reported once if it is a failure. -/
theorem Outcome.judge_reported {α : Type} {ts tokens : List Token} {o : Outcome α} (h : o.FaultIn tokens)
    (part : tokens <:+ (TokenStream.ofTokens ts).tokens)
    (small : ∀ t ∈ ts, t.text.length < UInt32.size) (before : Log) :
    let verdict := o.judge (TokenStream.ofTokens ts).stop
    Reported (Token.closed ts) before verdict.outcome (before ++ verdict.log) := by
  cases h with
  | accepted a rest =>
    simp only [Outcome.judge, Logged.succeed, List.append_nil]
    exact .silent a
  | @rejected f rest inside =>
    have mem := Failure.token_mem_closed (inside.trans part)
    have covers := Failure.length_diagnostic (Token.length_text_closed small _ mem)
    have same := Diagnostic.recorded_of_pos (by rw [covers]; exact Nat.le_max_left 1 _)
    simp only [Outcome.judge, Log.report, List.nil_append, same]
    exact .once rfl mem rfl covers f.message_ne

namespace Session

/-! ## Requests -/

/-- A request for the next part of the tokens. -/
inductive Request where
  | header (moduleName : Text)
  | body (metadata : Metadata)
  | definition (metadata : Metadata)
  | type (metadata : Metadata)

/-- What a request that succeeds returns. -/
inductive Part where
  | header (metadata : Metadata)
  | body (statements : List Statement)
  | definition (definition : Definition)
  | type (type : TypeExpr)

/-- Serves a request. -/
def serve (s : Session) : Request → Session × Except SchemaError Part
  | .header moduleName => (s.header moduleName).map id (Except.map .header)
  | .body m => (s.body m).map id (Except.map .body)
  | .definition m => (s.definition m).map id (Except.map .definition)
  | .type m => (s.type m).map id (Except.map .type)

/-- The session behind requests that are served one after the other, whatever becomes of each. -/
def after (s : Session) : List Request → Session
  | [] => s
  | request :: requests => (s.serve request).1.after requests

/-- The results of requests that are served one after the other. -/
def replies (s : Session) : List Request → List (Except SchemaError Part)
  | [] => []
  | request :: requests => (s.serve request).2 :: (s.serve request).1.replies requests

theorem remaining_suffix (s : Session) : s.remaining <:+ s.stream.tokens :=
  List.drop_suffix _ _

/-- A session reads the same tokens throughout. -/
theorem stream_serve (s : Session) (request : Request) : (s.serve request).1.stream = s.stream := by
  cases request <;> rfl

theorem stream_after (s : Session) (requests : List Request) : (s.after requests).stream = s.stream := by
  induction requests generalizing s with
  | nil => rfl
  | cons request requests ih => rw [after, ih, stream_serve]

/-- The report on a request that a reader serves, whatever part its result is. -/
theorem run_reported {α : Type} {ts : List Token} (small : ∀ t ∈ ts, t.text.length < UInt32.size)
    {s : Session} (stream : s.stream = TokenStream.ofTokens ts) {read : List Token → Outcome α}
    (blames : (read s.remaining).FaultIn s.remaining) (part : α → Part) :
    Reported (Token.closed ts) s.log ((s.run read).map id (Except.map part)).2 (s.run read).1.log := by
  have inside := s.remaining_suffix
  rw [stream] at inside
  have reported := Outcome.judge_reported blames inside small s.log
  rw [← stream] at reported
  exact reported.map part

/-- A request that succeeds reports nothing, and one that fails reports its error once. -/
theorem serve_reported {ts : List Token} (small : ∀ t ∈ ts, t.text.length < UInt32.size) {s : Session}
    (stream : s.stream = TokenStream.ofTokens ts) (request : Request) :
    Reported (Token.closed ts) s.log (s.serve request).2 (s.serve request).1.log := by
  cases request with
  | header moduleName => exact run_reported small stream (readHeader_faultIn _ _ _) .header
  | body m => exact run_reported small stream (readBody_faultIn m _) .body
  | definition m => exact run_reported small stream (readLoneDefinition_faultIn m _) .definition
  | type m => exact run_reported small stream (readLoneType_faultIn m _) .type

/-- The diagnostic of a result that is a fault of the source. -/
def fault? : Except SchemaError Part → Option Diagnostic
  | .error (.syntaxFault d _) => some d
  | _ => none

/-- The log behind any number of requests lists the faults among their results. -/
theorem log_after {ts : List Token} (small : ∀ t ∈ ts, t.text.length < UInt32.size) {s : Session}
    (stream : s.stream = TokenStream.ofTokens ts) (requests : List Request) :
    (s.after requests).log = s.log ++ (s.replies requests).filterMap fault? := by
  induction requests generalizing s with
  | nil => exact (List.append_nil s.log).symm
  | cons request requests ih =>
    have next := ih ((s.stream_serve request).trans stream)
    have reported := serve_reported small stream request
    rw [after, replies, next]
    generalize (s.serve request).2 = result, (s.serve request).1.log = log at reported ⊢
    cases reported with
    | silent a => rfl
    | once isError mem located covers worded => rw [List.append_assoc]; rfl

end Session

/-! ## Modules -/

/-- Metadata is refused for nothing but a version outside its range. -/
theorem Metadata.checkSupported_error {m : Metadata} {e : SchemaError} (h : m.checkSupported = .error e) :
    ∃ range actual, e = .unsupportedVersion m range actual := by
  unfold checkSupported at h
  split at h
  · cases h
    exact ⟨_, _, rfl⟩
  · split at h
    · cases h
      exact ⟨_, _, rfl⟩
    · cases h

/-- What reading a module leaves in an empty log.  A module that is read, or whose header names a version
outside its range, leaves nothing; one that is refused for its source leaves the diagnostic of the error. -/
inductive SchemaModule.Reported : Logged SchemaModule → Prop
  | read (x : SchemaModule) : Reported ⟨[], .ok x⟩
  | unsupported (m : Metadata) (range : VersionRange) (actual : Version) :
      Reported ⟨[], .error (.unsupportedVersion m range actual)⟩
  | refused {d : Diagnostic} {mismatch : Option VersionMismatch} (isError : d.severity = .error) :
      Reported ⟨[d.recorded], .error (.syntaxFault d mismatch)⟩

theorem SchemaModule.parse_reported (moduleName file text : Text) :
    SchemaModule.Reported (SchemaModule.parse moduleName file text) := by
  unfold SchemaModule.parse
  dsimp only
  cases readHeader none moduleName (TokenStream.ofText file text).tokens with
  | rejected f rest => exact .refused rfl
  | accepted metadata rest =>
    dsimp only
    unfold SchemaModule.parseBody
    split
    · next e unsupported =>
      rcases Metadata.checkSupported_error unsupported with ⟨range, actual, rfl⟩
      exact .unsupported metadata range actual
    · cases readBody metadata rest with
      | rejected f left => exact .refused rfl
      | accepted statements left => exact .read _

/-! ## All reports -/

/-- For any tokens and any requests before it, a request that succeeds reports nothing, and one that fails
reports once, an error whose diagnostic is the one returned, about a token of the closed list; so a log
lists the faults among the results.  A module is refused for its source with one report of an error, and
is otherwise read or refused without one. -/
theorem session_reported (ts : List Token) (small : ∀ t ∈ ts, t.text.length < UInt32.size) :
    (∀ (requests : List Session.Request) (request : Session.Request),
      let s := (Session.start (TokenStream.ofTokens ts)).after requests
      Reported (Token.closed ts) s.log (s.serve request).2 (s.serve request).1.log) ∧
    (∀ requests : List Session.Request,
      let s := Session.start (TokenStream.ofTokens ts)
      (s.after requests).log = (s.replies requests).filterMap Session.fault?) ∧
    ∀ moduleName file text : Text, SchemaModule.Reported (SchemaModule.parse moduleName file text) := by
  refine ⟨fun requests request => ?_, fun requests => ?_, SchemaModule.parse_reported⟩
  · exact Session.serve_reported small (Session.stream_after _ requests) request
  · exact Session.log_after small rfl requests

/-- Tokens with an end mark in the middle, which no request gets past. -/
def interruptedTokens : List Token :=
  [⟨.identifier, "type", ⟨"a", 1, 1⟩, 0⟩, ⟨.endOfInput, [], ⟨"a", 1, 5⟩, 4⟩, ⟨.minus, "-", ⟨"a", 2, 1⟩, 5⟩]

/-- A body without a name is reported at the end mark, the body behind it is empty and not reported, and a
type is reported at the end mark again. -/
theorem session_reported_interrupted :
    let m : Metadata := ⟨⟨1, 0, 0⟩, ⟨1, 0, 0⟩, "a"⟩
    let s := (Session.start (TokenStream.ofTokens interruptedTokens)).after [.body m, .body m]
    (∀ t ∈ interruptedTokens, t.text.length < UInt32.size) ∧
      s.log = [⟨.error, ⟨"a", 1, 5⟩, "expected a type name, found end of input", 1⟩] ∧
      Reported (Token.closed interruptedTokens) s.log (s.serve (.type m)).2 (s.serve (.type m)).1.log ∧
      (s.serve (.type m)).1.log = s.log ++ [⟨.error, ⟨"a", 1, 5⟩, "expected a type, found end of input", 1⟩] ∧
      SchemaModule.Reported (SchemaModule.parse "a" "a.theta" "type") := by
  intro m s
  have small : ∀ t ∈ interruptedTokens, t.text.length < UInt32.size := by decide
  have reported := session_reported interruptedTokens small
  refine ⟨small, by decide +kernel, reported.1 [.body m, .body m] (.type m), by decide +kernel, ?_⟩
  exact reported.2.2 "a" "a.theta" "type"

end ThetaSchema
