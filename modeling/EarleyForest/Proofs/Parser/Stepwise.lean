import EarleyForest.Parser.Stepwise
import EarleyForest.Proofs.Chart.Tally
import EarleyForest.Proofs.Parser.Diagnostics

/-!
# The parser as a loop

`Grammar.parseFrom` reads the chart first and works out from it where it stopped; the loop of
`Grammar.parseStepwise` moves on token by token and stops at the first item that is one too many.
Both give the same result and leave the same stream (`parseStepwise_eq_parseFrom`).
-/

namespace EarleyForest

variable {T N : Type}

namespace TokenStream

variable {stream : TokenStream T} {k : Nat}

theorem advance_zero (stream : TokenStream T) : stream.advance 0 = stream := by
  have := stream.position_le
  cases stream
  simp only [advance, mk.injEq, true_and, and_true]
  omega

theorem next_advance (hk : k < stream.rest.length) :
    (stream.advance k).next.2 = stream.advance (k + 1) := by
  have hle := stream.position_le
  rw [length_rest] at hk
  have hlt : (stream.advance k).position < (stream.advance k).tokens.size := by
    simp only [advance]
    omega
  rw [next, dif_pos hlt]
  simp only [advance, mk.injEq, true_and, and_true]
  omega

theorem currentSpan_advance (hk : k ≤ stream.rest.length) :
    (stream.advance k).currentSpan = match stream.rest[k]? with
      | some token => token.span
      | none => stream.endSpan := by
  rw [currentSpan, current?_advance hk]
  rfl

end TokenStream

variable [DecidableEq N] [SearchKey N]

namespace Chart

variable {g : Grammar T N} {n : Nat} (sets : Array (ItemSet g n)) (s : ItemSet g n)

theorem reached_push : (⟨sets.push s⟩ : Chart g n).reached = sets.size := by
  simp [reached]

theorem last_push : (⟨sets.push s⟩ : Chart g n).last = s := by
  simp [last]

theorem readFrom_eq_error [DecidableEq T] {config : ParserConfig} {kinds : List T}
    {earlier : Array (ItemSet g n)} {kernel : ItemSet g n} {count limit : Nat}
    (h : config.exceeded? (count + (kernel.close earlier).size) = some limit) :
    readFrom config kinds earlier count kernel = .error ⟨limit, earlier.size, earlier.size⟩ := by
  cases kinds <;> simp only [readFrom, h]

end Chart

namespace Grammar

variable {g : Grammar T N} {config : ParserConfig} {stream : TokenStream T} {start : N} {n : Nat}

/-- The items that the first set begins with are counted one by one too. -/
theorem addAll_start_eq_tally :
    Tally.addAll config (⟨.empty, 0⟩ : Tally g n) ((g.alternatives start).map (.start 0)) =
      (ItemSet.empty.addAll ((g.alternatives start).map (.start 0))).tally config 0 := by
  have hzero : config.exceeded? 0 = none := by
    cases h : config.exceeded? 0 with
    | none => rfl
    | some limit => exact absurd (ParserConfig.exceeded?_eq_some_iff.1 h).2 (Nat.not_lt_zero _)
  have hempty : (ItemSet.empty : ItemSet g n).tally config 0 = .ok ⟨.empty, 0⟩ :=
    ItemSet.tally_eq_ok hzero
  rw [← ItemSet.tally_bind_addAll, hempty]
  · rfl
  · intro i hi
    obtain ⟨rule, hr, rfl⟩ := List.mem_map.1 hi
    exact Item.isProper_start hr (Nat.zero_le n)

variable [DecidableEq T]

/-- What a parse makes of a reading that has ended: the chart if it is accepted, or a report, and
the stream. -/
def settle (g : Grammar T N) (config : ParserConfig) (stream : TokenStream T) (start : N) :
    Except Overflow (Chart g n) → Except (ParseError T N) (Chart g n) × TokenStream T
  | .error o =>
    (.error (.chartLimitExceeded o.limit (stream.position + o.position)), stream.advance o.read)
  | .ok chart =>
    let after := stream.advance chart.reached
    if chart.accepts start then (.ok chart, after)
    else (.error (.rejected (g.rejection config chart.last after)), after)

/-- The report from what is at hand is the one from the stream. -/
theorem rejectionAt_eq (last : ItemSet g n) {k : Nat} (hk : k ≤ stream.rest.length) :
    g.rejectionAt config last (stream.position + k) stream.rest[k]?
        (match stream.rest[k]? with
          | some token => token.span
          | none => stream.endSpan) =
      g.rejection config last (stream.advance k) := by
  rw [rejectionAt, rejection, TokenStream.position_advance hk, TokenStream.current?_advance hk,
    TokenStream.currentSpan_advance hk]

/-- A reading that does not accept is reported from what is at hand where it stopped. -/
theorem settle_rejected {chart : Chart g n} (hle : chart.reached ≤ stream.rest.length)
    (h : chart.accepts start = false) :
    g.settle config stream start (.ok chart) =
      (.error (.rejected (g.rejectionAt config chart.last (stream.position + chart.reached)
        stream.rest[chart.reached]? (match stream.rest[chart.reached]? with
          | some token => token.span
          | none => stream.endSpan))), stream.advance chart.reached) := by
  rw [settle, rejectionAt_eq chart.last hle, h]
  rfl

/-- The loop, at the point where the sets `earlier` are closed and the tokens before have been
read. -/
theorem readTokens_eq {tokens : List (Token T)} {earlier : Array (ItemSet g n)}
    {kernel : ItemSet g n} {count : Nat} (hn : stream.rest.length = n)
    (htokens : stream.rest.drop earlier.size = tokens) (hsize : earlier.size ≤ n)
    (h : config.exceeded? (count + kernel.size) = none) :
    g.readTokens config start stream.position tokens earlier ⟨kernel, count + kernel.size⟩
        (stream.advance earlier.size) =
      g.settle config stream start
        (Chart.readFrom config (tokens.map Token.kind) earlier count kernel) := by
  induction tokens generalizing earlier kernel count with
  | nil =>
    have hend : earlier.size = n := by
      have := List.drop_eq_nil_iff.1 htokens
      omega
    have hnone : stream.rest[earlier.size]? = none := by simp; omega
    rw [readTokens, ItemSet.close_eq_tally hsize h, List.map_nil, Chart.readFrom]
    cases hclose : config.exceeded? (count + (kernel.close earlier).size) with
    | some limit => rw [ItemSet.tally_eq_error hclose]; rfl
    | none =>
      rw [ItemSet.tally_eq_ok hclose]
      dsimp only
      have haccepts : (⟨earlier.push (kernel.close earlier)⟩ : Chart g n).accepts start =
          (kernel.close earlier).hasCompleted start 0 := by
        simp [Chart.accepts, Chart.reached_push, Chart.last_push, hend]
      cases hcompleted : (kernel.close earlier).hasCompleted start 0 with
      | true =>
        rw [settle, Chart.reached_push, haccepts, hcompleted]
        rfl
      | false =>
        rw [settle_rejected (by rw [Chart.reached_push]; omega) (haccepts.trans hcompleted),
          Chart.reached_push, Chart.last_push, hnone]
        rfl
  | cons token tokens ih =>
    obtain ⟨htoken, htokens⟩ := drop_eq_cons htokens
    have hlt : earlier.size < stream.rest.length := (List.getElem?_eq_some_iff.1 htoken).1
    rw [readTokens, ItemSet.close_eq_tally hsize h, List.map_cons, Chart.readFrom]
    cases hclose : config.exceeded? (count + (kernel.close earlier).size) with
    | some limit => rw [ItemSet.tally_eq_error hclose]; rfl
    | none =>
      rw [ItemSet.tally_eq_ok hclose]
      dsimp only
      rw [ItemSet.scan_eq_tally hclose]
      cases hscan : config.exceeded? (count + (kernel.close earlier).size +
          ((kernel.close earlier).scan token.kind).size) with
      | some limit => rw [ItemSet.tally_eq_error hscan]; rfl
      | none =>
        rw [ItemSet.tally_eq_ok hscan]
        dsimp only
        by_cases hempty : ((kernel.close earlier).scan token.kind).size = 0
        · have haccepts : (⟨earlier.push (kernel.close earlier)⟩ : Chart g n).accepts start =
              false := by
            have : earlier.size ≠ n := by omega
            simp [Chart.accepts, Chart.reached_push, this]
          rw [if_pos hempty, if_pos hempty, settle_rejected (by rw [Chart.reached_push]; omega)
            haccepts, Chart.reached_push, Chart.last_push, htoken]
        · rw [if_neg hempty, if_neg hempty, TokenStream.next_advance hlt,
            ← Array.size_push (kernel.close earlier),
            ih (by rw [Array.size_push]; exact htokens) (by rw [Array.size_push]; omega) hscan]

theorem parseStepwiseAs_eq_parseAs (g : Grammar T N) (config : ParserConfig)
    (stream : TokenStream T) (start : N) :
    g.parseStepwiseAs config stream start = g.parseAs config stream start := by
  rw [parseStepwiseAs, parseAs, addAll_start_eq_tally, Chart.read]
  generalize hkernel : (ItemSet.empty : ItemSet g (stream.rest.map Token.kind).length).addAll
    ((g.alternatives start).map (.start 0)) = kernel
  cases h : config.exceeded? (0 + kernel.size) with
  | some limit =>
    have hle := ItemSet.size_le_close #[] kernel
    have hclose : config.exceeded? (0 + (kernel.close #[]).size) = some limit :=
      ParserConfig.exceeded?_mono (Nat.add_le_add_left hle 0) h
    rw [ItemSet.tally_eq_error h, Chart.readFrom_eq_error hclose]
    simp [TokenStream.advance_zero]
  | none =>
    have hloop : g.readTokens config start stream.position stream.rest #[]
        ⟨kernel, 0 + kernel.size⟩ (stream.advance 0) = g.settle config stream start
          (Chart.readFrom config (stream.rest.map Token.kind) #[] 0 kernel) :=
      readTokens_eq (List.length_map _).symm rfl (Nat.zero_le _) h
    rw [TokenStream.advance_zero] at hloop
    rw [ItemSet.tally_eq_ok h]
    dsimp only
    rw [hloop]
    cases Chart.readFrom config (stream.rest.map Token.kind) #[] 0 kernel with
    | error o => rfl
    | ok chart =>
      rw [settle]
      dsimp only
      cases chart.accepts start <;> rfl

/-- The loop gives what the parser gives, and leaves the same stream. -/
theorem parseStepwise_eq_parseFrom (g : Grammar T N) (config : ParserConfig)
    (stream : TokenStream T) (start : N) :
    g.parseStepwise config stream start = g.parseFrom config stream start := by
  rw [parseStepwise, parseFrom]
  cases g.startOf? start with
  | some first => exact parseStepwiseAs_eq_parseAs g config stream first
  | none => rfl

end Grammar

end EarleyForest
