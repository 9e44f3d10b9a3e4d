import EarleyForest.Forest.Price
import EarleyForest.Tree.Basic

/-!
# Unfolding

Makes a derivation tree from a forest, with one alternative chosen at each occurrence of a node. The
choice may depend on a state that is handed from choice to choice in preorder.
-/

namespace EarleyForest

variable {T N : Type} [DecidableEq N] [SearchKey N] {σ : Type}

/-- What an unfolding carries along: the state of the choices and the sum of the costs so far. -/
structure Progress (σ : Type) where
  state : σ
  weight : Cost

/-- Unfolds nodes one after the other. -/
def unfoldAll {E : Type}
    (unfold : NodeId → Progress σ → Except E (ParseTree T N × Progress σ)) :
    List NodeId → Progress σ → Except E (List (ParseTree T N) × Progress σ)
  | [], progress => .ok ([], progress)
  | id :: ids, progress => do
    let (t, progress) ← unfold id progress
    let (ts, progress) ← unfoldAll unfold ids progress
    return (t :: ts, progress)

namespace Forest

variable {g : Grammar T N}

/-- The derivation of the node `id` that follows, at each node met, the alternative that `choose`
gives for the node, the number of its alternatives and the state. Nodes are met in preorder. Levels
below `depth` are reported as a cycle. -/
def unfold (f : Forest g) (choose : NodeId → Nat → σ → Except (ForestError N) (Nat × σ)) :
    Nat → NodeId → Progress σ → Except (ForestError N) (ParseTree T N × Progress σ)
  | 0, id, _ => .error (.cycle (f.site id))
  | depth + 1, id, progress =>
    match f.node? id with
    | none => .error (.invalidDirections (.unknownNode id))
    | some (.terminal token) =>
      match f.tokens[token]? with
      | some t => .ok (.leaf t, progress)
      | none => .error (.missingToken id token)
    | some (.nonterminal symbol start stop alternatives) => do
      if alternatives.isEmpty then throw (.noAlternatives (f.site id))
      let (k, state) ← choose id alternatives.length progress.state
      match alternatives[k]? with
      | none => throw (.invalidDirections (.missingAlternative id k))
      | some a =>
        let (children, progress) ← unfoldAll (f.unfold choose depth) a.children
          ⟨state, progress.weight + g.cost a.rule⟩
        return (.branch symbol a.rule start stop children, progress)

/-! ## The cheapest derivation -/

/-- The alternative that the price table gives for a node. -/
def chooseBest (f : Forest g) (table : PriceTable) (id : NodeId) (_count : Nat) (state : Unit) :
    Except (ForestError N) (Nat × Unit) :=
  match table[id]?.bind Price.best? with
  | some k => .ok (k, state)
  | none => .error (.noAlternatives (f.site id))

/-- The derivation of `root` by the best alternatives of `table`. -/
def cheapestFrom (f : Forest g) (table : PriceTable) (root : NodeId) :
    Except (ForestError N) (Parse T N) := do
  let (tree, progress) ← f.unfold (f.chooseBest table) (f.size + 1) root ⟨(), 0⟩
  return ⟨tree, progress.weight⟩

/-- A derivation of least cost. Of several the first alternatives are taken. -/
def cheapest (f : Forest g) : Except (ForestError N) (Parse T N) :=
  match f.root? with
  | none => .error .noRoot
  | some root => do f.cheapestFrom (← f.price) root

end Forest

end EarleyForest
