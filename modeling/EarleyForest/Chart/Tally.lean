import EarleyForest.Chart.Recognition

/-!
# Counting item by item

A tally counts the items of the chart one by one while a set grows, and gives the chart up at the
first item that is one too many. `Chart.readFrom` looks at the count when a set is complete; that
this makes no difference is `ItemSet.close_eq_tally` and `ItemSet.scan_eq_tally`.
-/

namespace EarleyForest

variable {T N : Type} [DecidableEq N] [SearchKey N]

/-- A set that grows, and the number of items of the chart with those of the set. -/
structure Tally (g : Grammar T N) (n : Nat) where
  set : ItemSet g n
  total : Nat

namespace Tally

variable {g : Grammar T N} {n : Nat}

/-- Adds `i` and counts it, unless it is there already. The error is the limit that does not allow
it. -/
def add (config : ParserConfig) (t : Tally g n) (i : Item) : Except Nat (Tally g n) :=
  if i ∈ t.set then .ok t
  else
    match config.exceeded? (t.total + 1) with
    | some limit => .error limit
    | none => .ok ⟨t.set.add i, t.total + 1⟩

/-- Adds `items` in order. -/
def addAll (config : ParserConfig) (t : Tally g n) (items : List Item) : Except Nat (Tally g n) :=
  items.foldlM (add config) t

/-- Advances the items of the set itself that wait for `A`, from index `k` on, those included that
are added on the way. -/
def advanceOwn (config : ParserConfig) (A : N) (k : Nat) (t : Tally g n) :
    Except Nat (Tally g n) :=
  if h : k < t.set.items.size then
    let i := t.set.items[k]
    do
      let grown ← if i.waitsFor g A then t.add config i.advance else .ok t
      advanceOwn config A (k + 1) grown
  else .ok t
termination_by (Item.all g n).length - k
decreasing_by
  have := t.set.size_le
  omega

/-- Adds what `i` calls for at the position behind the closed sets `earlier`. -/
def extend (config : ParserConfig) (earlier : Array (ItemSet g n)) (t : Tally g n) (i : Item) :
    Except Nat (Tally g n) :=
  match i.next? g with
  | some (.terminal _) => .ok t
  | some (.nonterminal A) => do
    let t ← t.addAll config ((g.alternatives A).map (.start earlier.size))
    if g.isNullable A then t.add config i.advance else .ok t
  | none =>
    match i.lhs? g with
    | none => .ok t
    | some A =>
      match earlier[i.origin]? with
      | some source =>
        t.addAll config ((source.items.toList.filter (·.waitsFor g A)).map .advance)
      | none => t.advanceOwn config A 0

/-- Extends the set by its items from index `k` on, those included that are added on the way. -/
def closeFrom (config : ParserConfig) (earlier : Array (ItemSet g n)) (k : Nat) (t : Tally g n) :
    Except Nat (Tally g n) :=
  if h : k < t.set.items.size then
    let i := t.set.items[k]
    do
      let grown ← t.extend config earlier i
      closeFrom config earlier (k + 1) grown
  else .ok t
termination_by (Item.all g n).length - k
decreasing_by
  have := t.set.size_le
  omega

/-- Closes the set at the position behind the closed sets `earlier`. -/
def close (config : ParserConfig) (earlier : Array (ItemSet g n)) (t : Tally g n) :
    Except Nat (Tally g n) :=
  t.closeFrom config earlier 0

/-- The next set, which begins with the items that have read a token of the given kind. -/
def scan [DecidableEq T] (config : ParserConfig) (t : Tally g n) (kind : T) :
    Except Nat (Tally g n) :=
  addAll config ⟨.empty, t.total⟩
    ((t.set.items.toList.filter (·.waitsForKind g kind)).map .advance)

end Tally

end EarleyForest
