import EarleyForest.Loops
import EarleyForest.Text.LineIndex

/-!
# Lines found byte by byte

A scan over the bytes of a text finds where its lines start: it takes a byte at a time, and two for
a carriage return with a line feed behind it. A line is looked up with a binary search, which
answers with a place where the offset stands or with the place where it would be put. What is found
is right: `LineIndex.isExact_ofText`.
-/

namespace EarleyForest

/-! ## Terminators -/

/-- Between `before` and `after`, the characters `mark` end a line: a carriage return and a line
feed together, or one of them without the other. -/
inductive IsTerminator : List Char → List Char → List Char → Prop where
  | pair (before after : List Char) : IsTerminator before ['\r', '\n'] after
  | lineFeed {before : List Char} (h : before.getLast? ≠ some '\r') (after : List Char) :
    IsTerminator before ['\n'] after
  | carriageReturn {after : List Char} (before : List Char) (h : after.head? ≠ some '\n') :
    IsTerminator before ['\r'] after

/-- A line terminator of `text` ends at the byte offset `stop`. -/
def EndsLine (text : List Char) (stop : Nat) : Prop :=
  ∃ before mark after, text = before ++ mark ++ after ∧ IsTerminator before mark after ∧
    stop = byteLength (before ++ mark)

/-! ## The scan -/

/-- One round of the scan: the next byte, and the line starts found so far. -/
def scanStep (bytes : Array UInt8) : Nat × Array TextSize →
    (Nat × Array TextSize) ⊕ Array TextSize
  | (i, starts) =>
    match bytes[i]? with
    | none => .inr starts
    | some byte =>
      if byte = 10 then .inl (i + 1, starts.push (.ofNat (i + 1)))
      else if byte = 13 then
        if bytes[i + 1]? = some 10 then .inl (i + 2, starts.push (.ofNat (i + 2)))
        else .inl (i + 1, starts.push (.ofNat (i + 1)))
      else .inl (i + 1, starts)

/-! ## The search -/

/-- A binary search for `x` in the ascending `xs` may give this answer: a place where `x` stands, or
else the place where it would be put. -/
inductive IsAnswer (xs : Array TextSize) (x : TextSize) : Except Nat Nat → Prop where
  | ok {i : Nat} (h : xs[i]? = some x) : IsAnswer xs x (.ok i)
  | error {next : Nat} (hnext : next ≤ xs.size)
    (hbefore : ∀ i y, i < next → xs[i]? = some y → y < x)
    (hbehind : ∀ i y, next ≤ i → xs[i]? = some y → x < y) : IsAnswer xs x (.error next)

/-- The line that an answer points to: where the offset stands, or the one before the place where it
would be put. -/
def lineOfAnswer : Except Nat Nat → Nat
  | .ok line => line
  | .error next => next - 1

end EarleyForest
