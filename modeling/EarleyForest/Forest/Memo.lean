import EarleyForest.Forest.Unfold

/-!
# Forests that keep their prices

Prices are worked out once, on first use. Since a forest never changes they can never be out of
date.
-/

namespace EarleyForest

variable {T N : Type} [DecidableEq N] [SearchKey N]

/-- A forest, and its prices once they have been worked out. -/
structure PricedForest (g : Grammar T N) where
  forest : Forest g
  table? : Option PriceTable := none
  price_eq : ∀ table, table? = some table → forest.price = .ok table := by simp

namespace PricedForest

variable {g : Grammar T N}

/-- Whether the prices are known. -/
def isPriced (p : PricedForest g) : Bool := p.table?.isSome

/-- The prices, and the forest with its prices known if there are any. -/
def price (p : PricedForest g) : Except (ForestError N) PriceTable × PricedForest g :=
  match p.table? with
  | some table => (.ok table, p)
  | none =>
    match h : p.forest.price with
    | .ok table =>
      (.ok table, { forest := p.forest, table? := some table, price_eq := by simp [h] })
    | .error e => (.error e, p)

/-- The price of the root, if there is one. -/
def rootPrice (p : PricedForest g) : Except (ForestError N) (Option Price) × PricedForest g :=
  let (table, p) := p.price
  (table.map p.forest.rootPrice, p)

/-- The number of derivations of the root; a forest without root has none. -/
def count (p : PricedForest g) : Except (ForestError N) Nat × PricedForest g :=
  let (table, p) := p.price
  (table.map p.forest.countIn, p)

/-- The cost of the cheapest derivation of the root, if there is a root. -/
def minCost (p : PricedForest g) : Except (ForestError N) (Option Cost) × PricedForest g :=
  let (table, p) := p.price
  (table.map fun table => (p.forest.rootPrice table).map Price.minCost, p)

/-- A derivation of least cost. -/
def cheapest (p : PricedForest g) : Except (ForestError N) (Parse T N) × PricedForest g :=
  match p.forest.root? with
  | none => (.error .noRoot, p)
  | some root =>
    let (table, p) := p.price
    (table.bind fun table => p.forest.cheapestFrom table root, p)

end PricedForest

end EarleyForest
