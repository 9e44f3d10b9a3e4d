import EarleyForest.Lexing.Error
import EarleyForest.Lexing.Token
import EarleyForest.Text.Blank
import EarleyForest.Text.LineIndex

/-!
# A lexer for expressions

Reads sums and products of numbers, parentheses, words and the keywords `if`, `then` and `else`.
White space is kept as tokens, so the tokens of a text cover it from end to end. Numbers, words and
white space are read as far as they reach.
-/

namespace EarleyForest

/-- The kinds of tokens in expressions. -/
inductive ExpressionKind where
  | number | plus | star | leftParen | rightParen
  | ifWord | thenWord | elseWord | identifier | blank
deriving DecidableEq, Inhabited

namespace ExpressionKind

instance : Named ExpressionKind where
  name
    | number => "Num"
    | plus => "Plus"
    | star => "Star"
    | leftParen => "LParen"
    | rightParen => "RParen"
    | ifWord => "If"
    | thenWord => "Then"
    | elseWord => "Else"
    | identifier => "Id"
    | blank => "Whitespace"

/-- The kind of a word: a keyword, in small letters only, or an identifier. -/
def ofWord (word : List Char) : ExpressionKind :=
  if word = ['i', 'f'] then ifWord
  else if word = ['t', 'h', 'e', 'n'] then thenWord
  else if word = ['e', 'l', 's', 'e'] then elseWord
  else identifier

end ExpressionKind

namespace Expression

/-- The token that starts with `c` when `cs` follows: its kind and what of `cs` belongs to it.
Digits and letters are those of ASCII. -/
def lead (c : Char) (cs : List Char) : Option (ExpressionKind × List Char) :=
  if c = '+' then some (.plus, [])
  else if c = '*' then some (.star, [])
  else if c = '(' then some (.leftParen, [])
  else if c = ')' then some (.rightParen, [])
  else if c.isDigit then some (.number, cs.takeWhile Char.isDigit)
  else if isBlank c then some (.blank, cs.takeWhile isBlank)
  else if c.isAlpha then
    let more := cs.takeWhile Char.isAlphanum
    some (.ofWord (c :: more), more)
  else none

/-- The tokens of the text that starts at byte `offset`. -/
def lexFrom (index : LineIndex) (offset : Nat) :
    List Char → Except LexError (List (Token ExpressionKind))
  | [] => .ok []
  | c :: cs =>
    match lead c cs with
    | none => .error ⟨.unexpectedChar c, index.span offset (offset + c.utf8Size)⟩
    | some (kind, more) =>
      let stop := offset + byteLength (c :: more)
      match lexFrom index stop (cs.drop more.length) with
      | .error e => .error e
      | .ok tokens => .ok (⟨kind, .ofList (c :: more), index.span offset stop⟩ :: tokens)
termination_by cs => cs.length

/-- The tokens of `text`, or its first character that no token starts with. -/
def lex (text : String) : Except LexError (List (Token ExpressionKind)) :=
  lexFrom (.ofText text) 0 text.toList

end Expression

end EarleyForest
