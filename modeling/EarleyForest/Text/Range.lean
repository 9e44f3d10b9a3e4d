import EarleyForest.Saturating

/-!
# Positions in a text

A `TextSize` counts bytes of UTF-8, a `TextRange` is a half-open range of bytes, and a `Span` is a
range with the one-based line and column at which it starts.
-/

namespace EarleyForest

/-- The number of bytes that UTF-8 takes for `cs`. -/
def byteLength : List Char → Nat
  | [] => 0
  | c :: cs => c.utf8Size + byteLength cs

/-- A number of bytes, or an offset in bytes. Offsets past 32 bits all become the largest one. -/
abbrev TextSize := Saturating 4294967295

/-- The bytes from `start` up to, and without, `stop`. -/
structure TextRange where
  start : TextSize
  stop : TextSize
deriving DecidableEq, Inhabited

namespace TextRange

/-- The range of `length` bytes that starts at `start`. -/
def ofLength (start length : TextSize) : TextRange := ⟨start, start + length⟩

/-- The range without bytes at `offset`. -/
def empty (offset : TextSize) : TextRange := ⟨offset, offset⟩

/-- The number of bytes. A range that stops before it starts has none. -/
def length? (r : TextRange) : Option Nat :=
  if r.start ≤ r.stop then some (r.stop.toNat - r.start.toNat) else none

/-- Whether start and stop coincide. -/
def isEmpty (r : TextRange) : Bool := r.start = r.stop

/-- Whether `offset` is one of the bytes of the range. -/
def contains (r : TextRange) (offset : TextSize) : Bool := r.start ≤ offset && offset < r.stop

/-- The range as text, such as `3..7`. -/
def render (r : TextRange) : String := toString r.start.toNat ++ ".." ++ toString r.stop.toNat

end TextRange

/-- A range together with the one-based line and column of its start. Lines and columns are 32-bit
words. -/
structure Span where
  range : TextRange
  line : UInt32
  column : UInt32
deriving DecidableEq, Inhabited

namespace Span

/-- The span without bytes at `offset`. -/
def point (offset : TextSize) (line column : UInt32) : Span := ⟨.empty offset, line, column⟩

/-- The position as text, such as `1:5`. -/
def render (s : Span) : String := toString s.line.toNat ++ ":" ++ toString s.column.toNat

end Span

end EarleyForest
