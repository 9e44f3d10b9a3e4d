import EarleyForest.Forest.Error
import Std.Data.TreeSet

/-!
# Prices

The price of a node is what its cheapest derivation costs, how many derivations it has, and which
alternative to take for the cheapest one. Nodes are priced bottom up by a depth-first walk that
starts anew at each node, so that unreachable nodes are priced too.
-/

namespace EarleyForest

variable {T N : Type} [DecidableEq N] [SearchKey N]

/-- What is known of the derivations of a node. -/
structure Price where
  minCost : Cost
  /-- The number of derivations. -/
  count : Nat
  /-- The first alternative that reaches the least cost; none for a token. -/
  best? : Option Nat
deriving DecidableEq, Inhabited

/-- The prices of the nodes of a forest, by index. -/
abbrev PriceTable := Array Price

/-- The least cost, and the index at which it occurs first, of `c` followed by others. -/
def firstLeast (c : Cost) : List Cost → Nat × Cost
  | [] => (0, c)
  | d :: ds =>
    let (i, least) := firstLeast d ds
    if least < c then (i + 1, least) else (0, c)

namespace Forest

variable {g : Grammar T N}

/-- The least cost and the number of the derivations that follow one alternative, from the prices
of its children. -/
def offer (f : Forest g) (table : Array (Option Price)) (a : Alternative) :
    Except (ForestError N) (Cost × Nat) :=
  a.children.foldlM (fun (cost, count) child =>
    match table[child]?.join with
    | some p => .ok (cost + p.minCost, count * p.count)
    | none => .error (.cycle (f.site child))) (g.cost a.rule, 1)

/-- The price of a node from the prices of its children. -/
def priceNode (f : Forest g) (table : Array (Option Price)) (id : NodeId) :
    Except (ForestError N) Price :=
  match f.node? id with
  | some (.terminal _) => .ok ⟨0, 1, none⟩
  | _ => do
    match ← (f.alternatives id).mapM (f.offer table) with
    | [] => .error (.noAlternatives (f.site id))
    | offer :: offers =>
      let (best, least) := firstLeast offer.1 (offers.map Prod.fst)
      let count := (offer :: offers).foldr (fun offer count => offer.2 + count) 0
      return ⟨least, count, some best⟩

/-- Prices the node `id` and all below it, `depth` levels at most. The nodes of `path` lie above it;
meeting one of them again is a cycle, and the last one in the order of the children is reported.
A path without repetition is never longer than there are nodes. -/
def priceFrom (f : Forest g) : Nat → Std.TreeSet NodeId → Array (Option Price) → NodeId →
    Except (ForestError N) (Array (Option Price))
  | 0, _, _, id => .error (.cycle (f.site id))
  | depth + 1, path, table, id =>
    match table[id]?.join with
    | some _ => .ok table
    | none =>
      let path := path.insert id
      match (f.children id).reverse.find? (· ∈ path) with
      | some child => .error (.cycle (f.site child))
      | none => do
        let table ← (f.children id).foldlM (f.priceFrom depth path) table
        let price ← f.priceNode table id
        return table.setIfInBounds id (some price)

/-- The prices of all nodes. -/
def price (f : Forest g) : Except (ForestError N) PriceTable := do
  let table ← (List.range f.size).foldlM (f.priceFrom f.size {}) (Array.replicate f.size none)
  let prices ← table.toList.zipIdx.mapM fun
    | (some price, _) => .ok price
    | (none, id) => .error (.cycle (f.site id))
  return prices.toArray

/-- The price of the root, if there is one. -/
def rootPrice (f : Forest g) (table : PriceTable) : Option Price :=
  f.root?.bind (table[·]?)

/-- The number of derivations of the root; a forest without root has none. -/
def countIn (f : Forest g) (table : PriceTable) : Nat :=
  match f.rootPrice table with
  | some price => price.count
  | none => 0

/-- The number of derivations of the root. -/
def count (f : Forest g) : Except (ForestError N) Nat := f.price.map f.countIn

/-- The cost of the cheapest derivation of the root, if there is a root. -/
def minCost (f : Forest g) : Except (ForestError N) (Option Cost) :=
  f.price.map fun table => (f.rootPrice table).map Price.minCost

end Forest

end EarleyForest
