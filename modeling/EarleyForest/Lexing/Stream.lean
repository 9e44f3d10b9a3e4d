import EarleyForest.Lexing.Error
import EarleyForest.Lexing.Token
import EarleyForest.Text.LineIndex

/-!
# Token streams

A `TokenStream` is a sequence of tokens and a position in it, and knows where the input ends. Trivia
(white space, comments) is dropped when a stream is filled, so a reader never meets it.
-/

namespace EarleyForest

/-- Tokens, the number of them already read, and the position behind the last one. -/
structure TokenStream (T : Type) where
  tokens : Array (Token T)
  position : Nat
  endSpan : Span
  position_le : position ≤ tokens.size

namespace TokenStream

variable {T : Type}

/-- A stream without tokens. -/
def empty : TokenStream T := ⟨#[], 0, default, Nat.le_refl 0⟩

instance : Inhabited (TokenStream T) := ⟨empty⟩

/-- The span behind `tokens`: the end of the last one, as many columns further as it has
characters. -/
def spanBehind (tokens : List (Token T)) : Span :=
  match tokens.getLast? with
  | none => default
  | some last =>
    .point last.span.range.stop last.span.line
      (.ofNat (min (last.span.column.toNat + last.text.length) 4294967295))

/-- The stream of those of `tokens` that are not trivia. It ends where the last of them ends. -/
def ofTokens (isTrivia : T → Bool) (tokens : List (Token T)) : TokenStream T :=
  let kept := tokens.filter fun t => !isTrivia t.kind
  ⟨kept.toArray, 0, spanBehind kept, Nat.zero_le _⟩

/-- Fills the stream with what `lex` reads in `text`, less the trivia. It ends where the text ends.
When `lex` fails the stream stays as it was. -/
def tokenize (stream : TokenStream T) (isTrivia : T → Bool)
    (lex : String → Except LexError (List (Token T))) (text : String) :
    Except LexError Unit × TokenStream T :=
  match lex text with
  | .error e => (.error e, stream)
  | .ok tokens =>
    let kept := tokens.filter fun t => !isTrivia t.kind
    (.ok (), ⟨kept.toArray, 0, (LineIndex.ofText text).endSpan, Nat.zero_le _⟩)

/-- The token to be read next. -/
def current? (stream : TokenStream T) : Option (Token T) := stream.tokens[stream.position]?

/-- Whether a token is left. -/
def hasNext (stream : TokenStream T) : Bool := stream.position < stream.tokens.size

/-- The span of the token to be read next, or of the end of the input. -/
def currentSpan (stream : TokenStream T) : Span :=
  match stream.current? with
  | some t => t.span
  | none => stream.endSpan

/-- Reads a token, if one is left. -/
def next (stream : TokenStream T) : Option (Token T) × TokenStream T :=
  if h : stream.position < stream.tokens.size then
    (some stream.tokens[stream.position],
      { stream with position := stream.position + 1, position_le := h })
  else (none, stream)

/-- Goes back to the first token. -/
def reset (stream : TokenStream T) : TokenStream T :=
  { stream with position := 0, position_le := Nat.zero_le _ }

/-- The tokens not read yet. -/
def rest (stream : TokenStream T) : List (Token T) := stream.tokens.toList.drop stream.position

/-- Moves on by `count` tokens, or to the end. -/
def advance (stream : TokenStream T) (count : Nat) : TokenStream T :=
  { stream with
    position := min (stream.position + count) stream.tokens.size
    position_le := Nat.min_le_right _ _ }

end TokenStream

end EarleyForest
