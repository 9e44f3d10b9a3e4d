import EarleyForest.Proofs.Parser.Stepwise

/-!
# The stream after a parse

A parse changes nothing of a stream but its position, which never goes back (`TokenStream.Moves`),
and the position tells where the parse stopped (`StopsAt`): at the end after a success, at what
could not be read after a rejection, and if the chart grew too large, at the token whose items were
too many or at the one before. One turn of the loop moves on by one token, so this holds of all turns
(`stopsAt_readTokens`) and of the parse (`parseFrom_stopsAt`).
-/

namespace EarleyForest

variable {T N : Type}

namespace TokenStream

variable {stream after last : TokenStream T} {token : Token T} {tokens : List (Token T)}

/-- From the first stream tokens have been read, if any, and the second one is left. -/
structure Moves (stream after : TokenStream T) : Prop where
  tokens_eq : after.tokens = stream.tokens
  endSpan_eq : after.endSpan = stream.endSpan
  le_position : stream.position ≤ after.position

theorem Moves.refl (stream : TokenStream T) : stream.Moves stream := ⟨rfl, rfl, Nat.le_refl _⟩

theorem Moves.trans (h : stream.Moves after) (h' : after.Moves last) : stream.Moves last where
  tokens_eq := h'.tokens_eq.trans h.tokens_eq
  endSpan_eq := h'.endSpan_eq.trans h.endSpan_eq
  le_position := Nat.le_trans h.le_position h'.le_position

theorem Moves.position_le (h : stream.Moves after) : after.position ≤ stream.tokens.size :=
  h.tokens_eq ▸ after.position_le

/-- Where no token is left the stream is at its end. -/
theorem position_of_rest_eq_nil (h : stream.rest = []) : stream.position = stream.tokens.size := by
  have hle := List.drop_eq_nil_iff.1 h
  have := stream.position_le
  rw [Array.length_toList] at hle
  omega

theorem current?_of_rest_eq_nil (h : stream.rest = []) : stream.current? = none := by
  rw [current?, position_of_rest_eq_nil h]
  simp

theorem current?_of_rest_eq_cons (h : stream.rest = token :: tokens) :
    stream.current? = some token := by
  rw [current?, ← Nat.add_zero stream.position, ← getElem?_rest, h]
  rfl

/-- To read a token moves on by one. -/
theorem next_of_rest_eq_cons (h : stream.rest = token :: tokens) :
    stream.Moves stream.next.2 ∧ stream.next.2.position = stream.position + 1 ∧
      stream.next.2.rest = tokens := by
  have hlt : stream.position < stream.tokens.size := by
    have := congrArg List.length h
    rw [length_rest, List.length_cons] at this
    omega
  rw [next, dif_pos hlt]
  refine ⟨⟨rfl, rfl, Nat.le_succ _⟩, rfl, ?_⟩
  have htail := congrArg List.tail h
  rwa [rest, List.tail_drop] at htail

end TokenStream

/-- Where the stream is left by a parse from position `base` that ends with the result. -/
inductive StopsAt {α : Type} (base : Nat) (stream : TokenStream T) :
    Except (ParseError T N) α → Prop where
  | ok (a : α) (h : stream.position = stream.tokens.size) : StopsAt base stream (.ok a)
  | unknownStart (A : N) (h : stream.position = base) :
    StopsAt base stream (.error (.unknownStart A))
  | rejected (r : Rejection T) (hposition : r.position = stream.position)
    (hfound : r.found? = stream.current?) (hspan : r.span = stream.currentSpan) :
    StopsAt base stream (.error (.rejected r))
  | chartLimitExceeded (limit position : Nat) (hle : stream.position ≤ position)
    (hge : position ≤ stream.position + 1) :
    StopsAt base stream (.error (.chartLimitExceeded limit position))

variable [DecidableEq N] [SearchKey N] [DecidableEq T]

namespace Grammar

variable {g : Grammar T N} {config : ParserConfig} {start : N} {base n : Nat}

/-- The turns of the loop from any one on. -/
theorem stopsAt_readTokens {tokens : List (Token T)} {earlier : Array (ItemSet g n)}
    {kernel : Tally g n} {stream : TokenStream T} (hrest : stream.rest = tokens)
    (hposition : stream.position = base + earlier.size) :
    let (result, after) := g.readTokens config start base tokens earlier kernel stream
    stream.Moves after ∧ StopsAt base after result := by
  induction tokens generalizing earlier kernel stream with
  | nil =>
    have hcurrent := TokenStream.current?_of_rest_eq_nil hrest
    rw [readTokens]
    cases kernel.close config earlier with
    | error limit => exact ⟨.refl _, .chartLimitExceeded _ _ (by omega) (by omega)⟩
    | ok t =>
      dsimp only
      by_cases h : t.set.hasCompleted start 0 = true
      · rw [if_pos h]
        exact ⟨.refl _, .ok _ (TokenStream.position_of_rest_eq_nil hrest)⟩
      · rw [if_neg h]
        refine ⟨.refl _, .rejected _ hposition.symm hcurrent.symm ?_⟩
        rw [TokenStream.currentSpan, hcurrent]
        rfl
  | cons token tokens ih =>
    have hcurrent := TokenStream.current?_of_rest_eq_cons hrest
    rw [readTokens]
    cases kernel.close config earlier with
    | error limit => exact ⟨.refl _, .chartLimitExceeded _ _ (by omega) (by omega)⟩
    | ok t =>
      dsimp only
      cases t.scan config token.kind with
      | error limit =>
        dsimp only
        exact ⟨.refl _, .chartLimitExceeded _ _ (by omega) (by omega)⟩
      | ok next =>
        dsimp only
        by_cases h : next.set.size = 0
        · rw [if_pos h]
          refine ⟨.refl _, .rejected _ hposition.symm hcurrent.symm ?_⟩
          rw [TokenStream.currentSpan, hcurrent]
          rfl
        · rw [if_neg h]
          obtain ⟨hmoves, hnext, hrest⟩ := TokenStream.next_of_rest_eq_cons hrest
          have hposition : stream.next.2.position = base + (earlier.push t.set).size := by
            rw [Array.size_push]
            omega
          exact ⟨hmoves.trans (ih hrest hposition).1, (ih hrest hposition).2⟩

/-- The loop from its beginning on. -/
theorem stopsAt_parseAs (g : Grammar T N) (config : ParserConfig) (stream : TokenStream T)
    (start : N) :
    stream.Moves (g.parseAs config stream start).2 ∧
      StopsAt stream.position (g.parseAs config stream start).2
        (g.parseAs config stream start).1 := by
  rw [← parseStepwiseAs_eq_parseAs, parseStepwiseAs]
  cases Tally.addAll config (⟨.empty, 0⟩ : Tally g (stream.rest.map Token.kind).length)
      ((g.alternatives start).map (.start 0)) with
  | error limit =>
    exact ⟨.refl _, .chartLimitExceeded _ _ (Nat.le_refl _) (Nat.le_succ _)⟩
  | ok kernel =>
    dsimp only
    have hloop : stream.Moves
          (g.readTokens config start stream.position stream.rest #[] kernel stream).2 ∧
        StopsAt stream.position
          (g.readTokens config start stream.position stream.rest #[] kernel stream).2
          (g.readTokens config start stream.position stream.rest #[] kernel stream).1 :=
      stopsAt_readTokens rfl rfl
    cases hrun : g.readTokens config start stream.position stream.rest #[] kernel stream with
    | mk result after =>
      rw [hrun] at hloop
      obtain ⟨hmoves, hstops⟩ := hloop
      cases hstops with
      | ok chart h => exact ⟨hmoves, .ok _ h⟩
      | unknownStart A h => exact ⟨hmoves, .unknownStart A h⟩
      | rejected r h h' h'' => exact ⟨hmoves, .rejected r h h' h''⟩
      | chartLimitExceeded limit q h h' => exact ⟨hmoves, .chartLimitExceeded limit q h h'⟩

/-- What a parse makes of a stream, whatever has been done with it before. The loop and the parser
leave the same: the tokens and the end are as before, and the position has not gone back. It is the
end of the tokens after a success and stays if the start symbol is unknown; a rejection tells the
position, the token and the span that the stream has then; and a chart that is too large is reported
at the position or the next one. -/
theorem parseFrom_stopsAt (g : Grammar T N) (config : ParserConfig) (stream : TokenStream T)
    (start : N) :
    g.parseStepwise config stream start = g.parseFrom config stream start ∧
      let (result, after) := g.parseFrom config stream start
      after.tokens = stream.tokens ∧ after.endSpan = stream.endSpan ∧
        stream.position ≤ after.position ∧ after.position ≤ stream.tokens.size ∧
          StopsAt stream.position after result := by
  refine ⟨parseStepwise_eq_parseFrom g config stream start, ?_⟩
  suffices h : stream.Moves (g.parseFrom config stream start).2 ∧
      StopsAt stream.position (g.parseFrom config stream start).2
        (g.parseFrom config stream start).1 from
    ⟨h.1.tokens_eq, h.1.endSpan_eq, h.1.le_position, h.1.position_le, h.2⟩
  unfold parseFrom
  split
  · exact stopsAt_parseAs ..
  · exact ⟨.refl _, .unknownStart _ rfl⟩

end Grammar

end EarleyForest
