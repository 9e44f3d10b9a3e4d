import EarleyForest.Text.Name
import EarleyForest.Text.Range

/-!
# Tokens

A token has a kind, which grammars match on, the text it was read from, and its position.
-/

namespace EarleyForest

/-- A piece of the input at a position. -/
structure Token (T : Type) where
  kind : T
  text : String
  span : Span
deriving DecidableEq, Inhabited

namespace Token

variable {T : Type} [Named T]

/-- The token with its kind, such as `'+' (Plus)`. The text stands as it is, without escapes. -/
def render (t : Token T) : String := "'" ++ t.text ++ "' (" ++ name t.kind ++ ")"

/-- The token with its kind and position, such as `'+' (Plus) at 1:3`. -/
def describe (t : Token T) : String := t.render ++ " at " ++ t.span.render

end Token

end EarleyForest
