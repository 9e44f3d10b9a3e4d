import EarleyForest.Chart.Tally
import EarleyForest.Parser.Basic

/-!
# Parsing token by token

The parser as a loop that moves on in the stream with each token that it has read, and reports where
it stopped from what it has at hand there: the number of sets before, the token, or the end of the
input. Items are counted one by one. `Grammar.parseFrom` gives the same result and leaves the same
stream (`Grammar.parseStepwise_eq_parseFrom`).
-/

namespace EarleyForest

variable {T N : Type} [DecidableEq T] [DecidableEq N] [SearchKey N]

namespace Grammar

variable {n : Nat}

/-- The report that `found?`, met at `position`, is not what the items of `last` wait for. -/
def rejectionAt (g : Grammar T N) (config : ParserConfig) (last : ItemSet g n) (position : Nat)
    (found? : Option (Token T)) (span : Span) : Rejection T where
  position := position
  found? := found?
  span := span
  expected := if config.collectExpected then last.expected else []

/-- Reads `tokens` behind the closed sets `earlier`, the first of which belongs to the token number
`base` of the stream. -/
def readTokens (g : Grammar T N) (config : ParserConfig) (start : N) (base : Nat) :
    List (Token T) → Array (ItemSet g n) → Tally g n → TokenStream T →
      Except (ParseError T N) (Chart g n) × TokenStream T
  | [], earlier, kernel, stream =>
    match kernel.close config earlier with
    | .error limit => (.error (.chartLimitExceeded limit (base + earlier.size)), stream)
    | .ok t =>
      if t.set.hasCompleted start 0 then (.ok ⟨earlier.push t.set⟩, stream)
      else
        (.error (.rejected
          (g.rejectionAt config t.set (base + earlier.size) none stream.endSpan)), stream)
  | token :: tokens, earlier, kernel, stream =>
    match kernel.close config earlier with
    | .error limit => (.error (.chartLimitExceeded limit (base + earlier.size)), stream)
    | .ok t =>
      match t.scan config token.kind with
      | .error limit => (.error (.chartLimitExceeded limit (base + (earlier.size + 1))), stream)
      | .ok next =>
        if next.set.size = 0 then
          (.error (.rejected
            (g.rejectionAt config t.set (base + earlier.size) (some token) token.span)), stream)
        else g.readTokens config start base tokens (earlier.push t.set) next stream.next.2

/-- Parses what is left of the stream as `start`, which has rules. -/
def parseStepwiseAs (g : Grammar T N) (config : ParserConfig) (stream : TokenStream T) (start : N) :
    Except (ParseError T N) (Forest g) × TokenStream T :=
  let kinds := stream.rest.map Token.kind
  let first : Tally g kinds.length := ⟨.empty, 0⟩
  match first.addAll config ((g.alternatives start).map (.start 0)) with
  | .error limit => (.error (.chartLimitExceeded limit stream.position), stream)
  | .ok kernel =>
    match g.readTokens config start stream.position stream.rest #[] kernel stream with
    | (.ok chart, after) =>
      (.ok (.ofChart stream.tokens stream.position kinds chart start), after)
    | (.error e, after) => (.error e, after)

/-- Parses what is left of the stream as `start`. -/
def parseStepwise (g : Grammar T N) (config : ParserConfig) (stream : TokenStream T) (start : N) :
    Except (ParseError T N) (Forest g) × TokenStream T :=
  match g.startOf? start with
  | some first => g.parseStepwiseAs config stream first
  | none => (.error (.unknownStart start), stream)

end Grammar

end EarleyForest
