import EarleyForest.Forest.OfChart
import EarleyForest.Loops

/-!
# The worklists of parsing

The loops of the parser one round at a time, over lists that they make longer themselves. Nothing
here keeps a list finite: any item is added that is not there yet, whatever its rule, its dot and
its origin, and any node is made that is asked for. The loops end all the same, with the chart and
the forest of a parse (`Chart.reading_ends`, `Growth.Fits.ends`).
-/

namespace EarleyForest

variable {T N : Type} [DecidableEq N] [SearchKey N]

/-- Adds `i` behind the other items, unless it is there already. -/
def pushNew (items : Array Item) (i : Item) : Array Item :=
  if i ∈ items then items else items.push i

/-! ## Reading -/

/-- A walk over the items at a position, to advance those that wait for `symbol`. -/
structure Completion (N : Type) where
  symbol : N
  position : Nat
  /-- The item to be looked at next. -/
  index : Nat

/-- A set that is being closed. -/
structure Closing (N : Type) where
  items : Array Item
  /-- The item to be gone on with next. -/
  index : Nat
  /-- The walk that an item at the end of its rule has begun. -/
  completion? : Option (Completion N)

namespace Closing

/-- A set that is to be closed. -/
def start (items : Array Item) : Closing N := ⟨items, 0, none⟩

/-- One round at the position behind the sets `earlier`. A walk begun goes on first, through an
earlier set or through the set that grows. The set is closed when it has been gone through. -/
def step (g : Grammar T N) (earlier : Array (Array Item)) (c : Closing N) :
    Closing N ⊕ Array Item :=
  match c.completion? with
  | some walk =>
    match (earlier[walk.position]?.getD c.items)[walk.index]? with
    | none => .inl { c with completion? := none }
    | some parent =>
      .inl { c with
        items := if parent.waitsFor g walk.symbol then pushNew c.items parent.advance else c.items
        completion? := some { walk with index := walk.index + 1 } }
  | none =>
    match c.items[c.index]? with
    | none => .inr c.items
    | some i =>
      match i.next? g with
      | some (.terminal _) => .inl { c with index := c.index + 1 }
      | some (.nonterminal A) =>
        let items := ((g.alternatives A).map (.start earlier.size)).foldl pushNew c.items
        .inl { c with
          items := if g.isNullable A then pushNew items i.advance else items
          index := c.index + 1 }
      | none =>
        .inl { c with
          index := c.index + 1
          completion? := (i.lhs? g).map (⟨·, i.origin, 0⟩) }

end Closing

/-- A reading: the closed sets, the set at work, and the kinds that have not been read. -/
structure Reading (T N : Type) where
  earlier : Array (Array Item)
  closing : Closing N
  kinds : List T

namespace Reading

/-- A reading that is to begin. -/
def start (g : Grammar T N) (start : N) (kinds : List T) : Reading T N :=
  ⟨#[], .start (((g.alternatives start).map (.start 0)).foldl pushNew #[]), kinds⟩

/-- One round of closing, or the next kind. The reading is over at the end of the kinds, or where no
item waits for the next one. -/
def step [DecidableEq T] (g : Grammar T N) (r : Reading T N) : Reading T N ⊕ Array (Array Item) :=
  match r.closing.step g r.earlier with
  | .inl closing => .inl { r with closing := closing }
  | .inr items =>
    match r.kinds with
    | [] => .inr (r.earlier.push items)
    | kind :: kinds =>
      let next := ((items.toList.filter (·.waitsForKind g kind)).map .advance).foldl pushNew #[]
      if next.size = 0 then .inr (r.earlier.push items)
      else .inl ⟨r.earlier.push items, .start next, kinds⟩

end Reading

/-! ## Making the forest -/

namespace Growth

/-- A forest with the node of `start` only, which has to wait for its alternatives. -/
def start (base n : Nat) (start : N) : Growth N :=
  let ((root, _), arena) := ({} : Arena N).nonterminal start base (base + n)
  ⟨arena, [⟨root, start, 0, n⟩]⟩

/-- One round: the next node gets its alternatives. The forest is made when no node is left. -/
def step [DecidableEq T] {g : Grammar T N} {n : Nat} (chart : Chart g n) (kinds : Array T)
    (base : Nat) (growth : Growth N) : Growth N ⊕ Arena N :=
  match growth.pending with
  | [] => .inr growth.arena
  | node :: pending =>
    .inl (expand chart chart.origins kinds base { growth with pending := pending } node)

end Growth

end EarleyForest
