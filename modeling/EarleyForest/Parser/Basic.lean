import EarleyForest.Forest.OfChart
import EarleyForest.Lexing.Stream
import EarleyForest.Parser.Error

/-!
# Parsing

Reads what is left of a stream and makes the forest of its derivations.
-/

namespace EarleyForest

variable {T N : Type} [DecidableEq T] [DecidableEq N] [SearchKey N]

namespace Grammar

/-- The report that the stream's next token, or its end, is not what the items of `last` wait
for. -/
def rejection (g : Grammar T N) {n : Nat} (config : ParserConfig) (last : ItemSet g n)
    (stream : TokenStream T) : Rejection T where
  position := stream.position
  found? := stream.current?
  span := stream.currentSpan
  expected := if config.collectExpected then last.expected else []

/-- Parses what is left of the stream as `start`, which has rules. -/
def parseAs (g : Grammar T N) (config : ParserConfig) (stream : TokenStream T) (start : N) :
    Except (ParseError T N) (Forest g) × TokenStream T :=
  let kinds := stream.rest.map Token.kind
  match Chart.read g config start kinds with
  | .error o =>
    (.error (.chartLimitExceeded o.limit (stream.position + o.position)), stream.advance o.read)
  | .ok chart =>
    let after := stream.advance chart.reached
    if chart.accepts start then
      (.ok (.ofChart stream.tokens stream.position kinds chart start), after)
    else (.error (.rejected (g.rejection config chart.last after)), after)

/-- Parses what is left of the stream as `start`. Afterwards the stream is at its end, or at the
token that could not be read. -/
def parseFrom (g : Grammar T N) (config : ParserConfig) (stream : TokenStream T) (start : N) :
    Except (ParseError T N) (Forest g) × TokenStream T :=
  match g.startOf? start with
  | some first => g.parseAs config stream first
  | none => (.error (.unknownStart start), stream)

/-- Parses what is left of the stream as the entry point. -/
def parse (g : Grammar T N) (config : ParserConfig) (stream : TokenStream T) :
    Except (ParseError T N) (Forest g) × TokenStream T :=
  g.parseFrom config stream g.entry

end Grammar

end EarleyForest
