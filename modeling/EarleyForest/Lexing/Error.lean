import EarleyForest.Text.Range

/-!
# Unreadable input

Why a lexer stops, and where.
-/

namespace EarleyForest

/-- Why a text cannot be cut into tokens. -/
inductive LexFault where
  /-- No token starts with this character. -/
  | unexpectedChar (c : Char)
  /-- A rule of the lexer's own is broken; it words the reason itself. -/
  | invalid (reason : String)
deriving DecidableEq

/-- A fault and the span at which it was met. -/
structure LexError where
  fault : LexFault
  span : Span
deriving DecidableEq

namespace LexFault

/-- The fault in words. -/
def message : LexFault → String
  | unexpectedChar c => "unexpected character '" ++ c.toString ++ "'"
  | invalid reason => reason

/-- A name for the kind of fault that tools can match on. -/
def code : LexFault → String
  | unexpectedChar _ => "lexer::unexpected_char"
  | invalid _ => "lexer::invalid"

end LexFault

namespace LexError

/-- The fault and its position in words. -/
def message (e : LexError) : String := e.fault.message ++ " at " ++ e.span.render

/-- The start and the number of the bytes to point at; a span that stops before it starts has no
bytes. -/
def label (e : LexError) : Nat × Nat := (e.span.range.start.toNat, e.span.range.length?.getD 0)

end LexError

end EarleyForest
