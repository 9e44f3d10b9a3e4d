import EarleyForest.Text.Range

/-!
# Lines and columns

A `LineIndex` remembers where the lines of a text start and turns byte offsets into lines and
columns. A line ends with a line feed, a carriage return, or a carriage return and a line feed
together. Columns count bytes.
-/

namespace EarleyForest

/-- A zero-based line and column. -/
structure LineCol where
  line : UInt32
  column : UInt32
deriving DecidableEq, Inhabited

/-- The offsets just behind the line terminators of a text that starts at byte `offset`. -/
def lineStarts : Nat → List Char → List Nat
  | _, [] => []
  | offset, '\r' :: '\n' :: cs => (offset + 2) :: lineStarts (offset + 2) cs
  | offset, c :: cs =>
    if c = '\n' ∨ c = '\r' then (offset + 1) :: lineStarts (offset + 1) cs
    else lineStarts (offset + c.utf8Size) cs

/-- Where the lines of a text start, ascending and with `0` first, and how long the text is. -/
structure LineIndex where
  starts : Array TextSize
  textLength : TextSize
deriving DecidableEq, Inhabited

namespace LineIndex

/-- The index of `text`. -/
def ofText (text : String) : LineIndex where
  starts := ((0 :: lineStarts 0 text.toList).map Saturating.ofNat).toArray
  textLength := .ofNat (byteLength text.toList)

/-- The number of lines, one more than there are line terminators. -/
def lineCount (index : LineIndex) : Nat := index.starts.size

/-- The last line between `low` and `high` that starts at or before `offset`, where line `low` is
known to do so. Each round halves the interval. Only lines that start at the largest word can start
at the same place; a binary search may find any of these, and this is the last one. -/
def lastLine (starts : Array TextSize) (offset : TextSize) (low high : Nat) : Nat :=
  if low + 1 < high then
    let middle := (low + high) / 2
    if starts.getD middle 0 ≤ offset then lastLine starts offset middle high
    else lastLine starts offset low middle
  else low
termination_by high - low

/-- The zero-based line and column of `offset`; offsets behind the text count as its end. -/
def lineCol (index : LineIndex) (offset : TextSize) : LineCol :=
  let offset := min offset index.textLength
  let line := lastLine index.starts offset 0 index.starts.size
  { line := .ofNat (min line 4294967295)
    column := .ofNat (offset.toNat - (index.starts.getD line 0).toNat) }

/-- The span of the bytes from `start` up to `stop`. Lines and columns are counted from one by sums
of words, which wrap around behind the largest word, where checked sums would stop. -/
def span (index : LineIndex) (start stop : Nat) : Span :=
  let position := index.lineCol (.ofNat start)
  { range := ⟨.ofNat start, .ofNat stop⟩
    line := position.line + 1
    column := position.column + 1 }

/-- The span without bytes behind the last byte of the text, counted from one by the same sums. -/
def endSpan (index : LineIndex) : Span :=
  let position := index.lineCol index.textLength
  .point index.textLength (position.line + 1) (position.column + 1)

end LineIndex

end EarleyForest
