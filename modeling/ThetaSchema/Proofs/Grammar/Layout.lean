import ThetaSchema.Proofs.Grammar.Alignment
import ThetaSchema.Proofs.Grammar.Reports

/-!
# Layout does not matter

The lines and columns of tokens end up in locations and nowhere else.  Of the places of tokens a reader
only sees whether two tokens that follow one another touch, so lists that agree in this and in what the
tokens are have the same body, or fail at the same token for the same reason.

Main definitions:

- `SpeltAlike`: lists of tokens that may differ in layout alone.
- `FailsAt`: a failure on a fresh session, with the index of the token that it blames.
- `ReadAlike`: lists of tokens with the same outcome.

Main results:

- `SpeltAlike.aligned`: lists that are spelt alike are aligned.
- `readAlike_of_speltAlike`: a body, a definition and a type are read alike from them.
-/

namespace ThetaSchema

variable {α : Type} {R : Location → Location → Prop} {ts ts' : List Token}

/-- Lists of tokens that agree position by position in kinds and texts, and of which two tokens that follow
one another touch in both lists or in neither. -/
structure SpeltAlike (ts ts' : List Token) : Prop where
  words : ts.map (fun t => (t.kind, t.text)) = ts'.map fun t => (t.kind, t.text)
  touching : List.zipWith Token.adjacentTo ts ts.tail = List.zipWith Token.adjacentTo ts' ts'.tail

/-! ## Alignment -/

/-- Lists that are spelt alike are aligned, wherever their tokens are. -/
theorem SpeltAlike.aligned (h : SpeltAlike ts ts') : Aligned (fun _ _ => True) ts ts' := by
  induction ts generalizing ts' with
  | nil =>
    rw [List.map_eq_nil_iff.mp h.words.symm]
    exact .nil
  | cons t rest ih =>
    rcases List.map_eq_cons_iff.mp h.words.symm with ⟨t', rest', rfl, word, words⟩
    rcases Prod.mk.inj word with ⟨kind, text⟩
    have touching := h.touching
    rw [List.tail_cons, List.tail_cons] at touching
    refine .cons ⟨kind.symm, text.symm, trivial⟩ ?_ (ih ⟨words.symm, ?_⟩)
    · intro u first u' first'
      rcases List.head?_eq_some_iff.mp first with ⟨others, rfl⟩
      rcases List.head?_eq_some_iff.mp first' with ⟨others', rfl⟩
      exact (List.cons.inj touching).1
    · match rest, rest' with
      | [], [] => rfl
      | [], _ :: _ => cases words
      | _ :: _, [] => cases words
      | _ :: _, _ :: _ => exact (List.cons.inj touching).2

/-- The tokens in front of the first end mark are aligned if all are. -/
theorem Aligned.takeWhile (h : Aligned R ts ts') (p : TokenKind → Bool) :
    Aligned R (ts.takeWhile fun t => p t.kind) (ts'.takeWhile fun t => p t.kind) := by
  have first : ∀ {us : List Token} {u : Token}, u ∈ (us.takeWhile fun t => p t.kind).head? → u ∈ us.head? := by
    intro us u inside
    cases us with
    | nil => exact inside
    | cons v others =>
      rw [List.takeWhile_cons] at inside
      split at inside
      · exact inside
      · cases inside
  induction h with
  | nil => exact .nil
  | cons moved touch _ ih =>
    rw [List.takeWhile_cons, List.takeWhile_cons, moved.kind]
    split
    · exact .cons moved (fun u inside u' inside' => touch u (first inside) u' (first inside')) ih
    · exact .nil

theorem TokenStream.tokens_ofTokens (ts : List Token) :
    (ofTokens ts).tokens = ts.takeWhile (·.kind ≠ .endOfInput) := by
  unfold ofTokens
  split
  · rfl
  · next behind => exact (List.takeWhile_eq_self_iff.mpr (by simpa using List.dropWhile_eq_nil_iff.mp behind)).symm

/-- Streams are aligned if the lists they come from are. -/
theorem Aligned.ofTokens (h : Aligned R ts ts') :
    Aligned R (TokenStream.ofTokens ts).tokens (TokenStream.ofTokens ts').tokens := by
  rw [TokenStream.tokens_ofTokens, TokenStream.tokens_ofTokens]
  exact h.takeWhile fun kind => kind ≠ .endOfInput

/-! ## Failures -/

/-- The message about a rejection depends on its cause and on the kind and the text of one token. -/
theorem Failure.message_eq_of_aligned {f f' : Failure} (cause : f.cause = f'.cause)
    (site : Aligned R f.site f'.site) : f.message = f'.message := by
  rcases f with ⟨site, cause⟩
  rcases f' with ⟨site', cause'⟩
  cases cause
  cases cause with
  | unexpected expected =>
    cases site with
    | nil => rfl
    | cons moved _ _ =>
      simp only [message, unexpectedMessage, List.head?_cons, Token.describe, moved.kind, moved.text]
  | _ => rfl

/-- A reader fails on a fresh session: it blames the token with the index `i`, where the end mark counts,
and the error is about this token. -/
structure FailsAt (read : List Token → Outcome α) (ts : List Token) (i : Nat) (message : Text)
    (mismatch : Option VersionMismatch) : Prop where
  blamed : ∃ f rest, read (Session.start (.ofTokens ts)).remaining = .rejected f rest ∧
    i + f.site.length = (TokenStream.ofTokens ts).tokens.length
  reported : ∃ t, (Token.closed ts)[i]? = some t ∧ ((Session.start (.ofTokens ts)).run read).2 =
    .error (.syntaxFault ⟨.error, t.location, message, (max 1 t.text.length).toUInt32⟩ mismatch)

/-- The offending token of a failure stands behind the tokens in front of its site. -/
theorem Failure.getElem?_closed {f : Failure} {front : List Token}
    (h : (TokenStream.ofTokens ts).tokens = front ++ f.site) :
    (Token.closed ts)[front.length]? = some (f.token (TokenStream.ofTokens ts).stop) := by
  obtain ⟨behind, same⟩ := TokenStream.ofTokens_isPrefix ts
  rw [← same, h, List.append_assoc, List.append_assoc, List.getElem?_append_right le_rfl, Nat.sub_self, token]
  cases f.site <;> rfl

/-- A reader that blames its tokens and rejects them fails at the first token of the site. -/
theorem failsAt_of_rejected {read : List Token → Outcome α} {f : Failure} {rest : List Token}
    (blames : (read (TokenStream.ofTokens ts).tokens).FaultIn (TokenStream.ofTokens ts).tokens)
    (rejected : read (TokenStream.ofTokens ts).tokens = .rejected f rest) :
    FailsAt read ts ((TokenStream.ofTokens ts).tokens.length - f.site.length) f.message f.mismatch? := by
  rw [rejected] at blames
  obtain ⟨front, same⟩ := blames.site
  have index : (TokenStream.ofTokens ts).tokens.length - f.site.length = front.length := by
    rw [← same, List.length_append, Nat.add_sub_cancel]
  rw [index]
  refine ⟨⟨f, rest, ?_, ?_⟩, f.token (TokenStream.ofTokens ts).stop, Failure.getElem?_closed same.symm, ?_⟩
  · rw [Session.remaining_start, rejected]
  · rw [← same, List.length_append]
  · simp only [Session.run, Session.remaining_start, rejected]
    rfl

/-! ## Outcomes -/

/-- A reader has the same outcome on fresh sessions with two lists of tokens: values that are the same as
far as `same` tells, or failures at the same index with the same message and the same mismatch. -/
inductive ReadAlike (same : α → α → Prop) (read : List Token → Outcome α) (ts ts' : List Token) : Prop
  | accepted {a a' : α} (first : ((Session.start (.ofTokens ts)).run read).2 = .ok a)
      (second : ((Session.start (.ofTokens ts')).run read).2 = .ok a') (value : same a a')
  | rejected {i : Nat} {message : Text} {mismatch : Option VersionMismatch}
      (first : FailsAt read ts i message mismatch) (second : FailsAt read ts' i message mismatch)

/-- A session that starts on tokens succeeds with what a reader accepts from them. -/
theorem Session.run_start_ok {stream : TokenStream} {read : List Token → Outcome α} {a : α} {rest : List Token}
    (accepted : read stream.tokens = .accepted a rest) : ((Session.start stream).run read).2 = .ok a := by
  simp only [Session.run, Session.remaining_start, accepted]
  rfl

/-- A reader that keeps alignment and blames its tokens has the same outcome on aligned lists. -/
theorem ReadAlike.of_matched {S same : α → α → Prop} {read : List Token → Outcome α} (h : Aligned R ts ts')
    (keeps : ∀ {tokens tokens'}, Aligned R tokens tokens' → Outcome.Matched R S (read tokens) (read tokens'))
    (blames : ∀ tokens, (read tokens).FaultIn tokens) (value : ∀ {a a'}, S a a' → same a a') :
    ReadAlike same read ts ts' := by
  have lengths := h.ofTokens.length_eq
  have outcomes := keeps h.ofTokens
  generalize o : read (TokenStream.ofTokens ts).tokens = outcome at outcomes
  generalize o' : read (TokenStream.ofTokens ts').tokens = outcome' at outcomes
  cases outcomes with
  | accepted related left => exact .accepted (Session.run_start_ok o) (Session.run_start_ok o') (value related)
  | @rejected f f' rest rest' cause site left =>
    have fails := failsAt_of_rejected (blames _) o
    have mismatch : f.mismatch? = f'.mismatch? := by rw [Failure.mismatch?, Failure.mismatch?, cause]
    rw [Failure.message_eq_of_aligned cause site, mismatch, lengths, site.length_eq] at fails
    exact .rejected fails (failsAt_of_rejected (blames _) o')

/-- Lists of tokens that are spelt alike have the same body, the same definition and the same type, up to
locations, or fail at the same token with the same message and the same mismatch. -/
theorem readAlike_of_speltAlike (m : Metadata) (h : SpeltAlike ts ts') :
    ReadAlike (fun s s' => s.map Statement.unlocated = s'.map Statement.unlocated) (readBody m) ts ts' ∧
      ReadAlike (fun d d' => d.unlocated = d'.unlocated) (readLoneDefinition m) ts ts' ∧
      ReadAlike (fun e e' => e.unlocated = e'.unlocated) (readLoneType m) ts ts' := by
  refine ⟨?_, ?_, ?_⟩
  · exact .of_matched h.aligned (readBody_matched m) (readBody_faultIn m) map_unlocated_eq_of_relocated
  · exact .of_matched h.aligned (readLoneDefinition_matched m) (readLoneDefinition_faultIn m)
      Definition.Relocated.unlocated_eq
  · exact .of_matched h.aligned (readLoneType_matched m) (readLoneType_faultIn m)
      TypeExpr.Relocated.unlocated_eq

/-- The tokens of an import on one line. -/
def importOnOneLine : List Token :=
  [⟨.identifier, "import", ⟨"a", 1, 1⟩, 0⟩, ⟨.identifier, "b", ⟨"a", 1, 8⟩, 7⟩, ⟨.dot, ".", ⟨"a", 1, 9⟩, 8⟩,
    ⟨.identifier, "c", ⟨"a", 1, 10⟩, 9⟩]

/-- The same tokens in four places that have nothing to do with each other, apart from the path that stays
in one piece. -/
def importInPieces : List Token :=
  [⟨.identifier, "import", ⟨"z", 5, 3⟩, 70⟩, ⟨.identifier, "b", ⟨"y", 9, 9⟩, 3⟩, ⟨.dot, ".", ⟨[], 1, 1⟩, 4⟩,
    ⟨.identifier, "c", ⟨"z", 2, 7⟩, 5⟩]

/-- An import is read alike wherever its tokens are, and taken for a type it fails at its second token. -/
theorem readAlike_of_speltAlike_import :
    let m : Metadata := ⟨⟨1, 0, 0⟩, ⟨1, 0, 0⟩, "a"⟩
    SpeltAlike importOnOneLine importInPieces ∧
      (ReadAlike (fun s s' => s.map Statement.unlocated = s'.map Statement.unlocated) (readBody m)
          importOnOneLine importInPieces ∧
        ReadAlike (fun d d' => d.unlocated = d'.unlocated) (readLoneDefinition m) importOnOneLine
          importInPieces ∧
        ReadAlike (fun e e' => e.unlocated = e'.unlocated) (readLoneType m) importOnOneLine importInPieces) ∧
      (readBody m importOnOneLine = .accepted [.imports ⟨"a", 1, 1⟩ "b.c"] [] ∧
        readBody m importInPieces = .accepted [.imports ⟨"z", 5, 3⟩ "b.c"] []) ∧
      FailsAt (readLoneType m) importOnOneLine 1 "expected end of input, found 'b'" none ∧
      FailsAt (readLoneType m) importInPieces 1 "expected end of input, found 'b'" none := by
  intro m
  have spelt : SpeltAlike importOnOneLine importInPieces := ⟨by decide, by decide⟩
  refine ⟨spelt, readAlike_of_speltAlike m spelt, ⟨?_, ?_⟩, ?_, ?_⟩
  · rw [importOnOneLine, readBody_cons, ← importOnOneLine,
      show readStatement m importOnOneLine = .accepted (.imports ⟨"a", 1, 1⟩ "b.c") [] from rfl,
      Outcome.andThen_accepted, readBody, Outcome.map_accepted]
  · rw [importInPieces, readBody_cons, ← importInPieces,
      show readStatement m importInPieces = .accepted (.imports ⟨"z", 5, 3⟩ "b.c") [] from rfl,
      Outcome.andThen_accepted, readBody, Outcome.map_accepted]
  · exact ⟨⟨_, _, rfl, rfl⟩, _, rfl, rfl⟩
  · exact ⟨⟨_, _, rfl, rfl⟩, _, rfl, rfl⟩

end ThetaSchema
