import EarleyForest.Chart.ItemSet
import EarleyForest.Parser.Config

/-!
# Recognition

Reads the kinds of an input from left to right. Each step closes the set at a position and scans one
kind, which begins the next set. Reading stops at the end, or at the first kind that no item waits
for, or where the chart outgrows its limit.
-/

namespace EarleyForest

variable {T N : Type} [DecidableEq N] [SearchKey N]

/-- The closed sets at the positions of an input of `n` tokens that were reached. -/
structure Chart (g : Grammar T N) (n : Nat) where
  sets : Array (ItemSet g n)
deriving Inhabited

namespace Chart

variable {g : Grammar T N} {n : Nat}

/-- Whether `i` is in the set at `position`. -/
def contains (chart : Chart g n) (position : Nat) (i : Item) : Bool :=
  chart.sets[position]?.any fun s => i ∈ s

/-- The number of items at all positions. -/
def itemCount (chart : Chart g n) : Nat := chart.sets.toList.foldr (fun s count => s.size + count) 0

/-- The last position reached. -/
def reached (chart : Chart g n) : Nat := chart.sets.size - 1

/-- The set at the last position reached. -/
def last (chart : Chart g n) : ItemSet g n := chart.sets.back?.getD .empty

/-- Whether the whole input was read, and as `A`. -/
def accepts (chart : Chart g n) (A : N) : Bool :=
  chart.reached = n && chart.last.hasCompleted A 0

/-- Where the recognitions of `A` that end at `position` began. -/
def origins (chart : Chart g n) (A : N) (position : Nat) : Std.ExtTreeSet Nat :=
  match chart.sets[position]? with
  | some s => s.origins A
  | none => {}

end Chart

/-- The set at `position` made the chart larger than `limit` when `read` tokens had been read. -/
structure Overflow where
  limit : Nat
  read : Nat
  position : Nat
deriving DecidableEq

namespace Chart

variable [DecidableEq T] {g : Grammar T N} {n : Nat}

/-- Reads `kinds` behind the closed sets `earlier`, which hold `count` items in all. The set at the
position between begins with `kernel`. -/
def readFrom (config : ParserConfig) :
    List T → Array (ItemSet g n) → Nat → ItemSet g n → Except Overflow (Chart g n)
  | kinds, earlier, count, kernel =>
    let s := kernel.close earlier
    match config.exceeded? (count + s.size) with
    | some limit => .error ⟨limit, earlier.size, earlier.size⟩
    | none =>
      match kinds with
      | [] => .ok ⟨earlier.push s⟩
      | kind :: kinds =>
        let next := s.scan kind
        match config.exceeded? (count + s.size + next.size) with
        | some limit => .error ⟨limit, earlier.size, earlier.size + 1⟩
        | none =>
          if next.size = 0 then .ok ⟨earlier.push s⟩
          else readFrom config kinds (earlier.push s) (count + s.size) next

/-- Reads `kinds` as `start`, as far as they can be read. -/
def read (g : Grammar T N) (config : ParserConfig) (start : N) (kinds : List T) :
    Except Overflow (Chart g kinds.length) :=
  readFrom config kinds #[] 0 (ItemSet.empty.addAll ((g.alternatives start).map (.start 0)))

end Chart

end EarleyForest
