import EarleyForest.Forest.Node
import EarleyForest.Grammar.Basic
import EarleyForest.Lexing.Token

/-!
# Shared forests

A forest holds all derivations of an input at once. Each derivation follows one alternative at every
node that it meets, from the root down. Forests may be made by hand, so nothing about the nodes is
taken for granted: a node may have no alternatives, derive itself, or refer to a missing token.
-/

namespace EarleyForest

variable {T N : Type} [DecidableEq N] [SearchKey N]

/-- All derivations of `tokens` by the rules of `g`. -/
structure Forest (g : Grammar T N) where
  tokens : Array (Token T)
  arena : Arena N
  root? : Option NodeId
  /-- The size of the chart from which the forest was made. -/
  chartItems : Nat

/-- The sizes of a forest and of the chart from which it was made. -/
structure ForestStats where
  tokens : Nat
  chartItems : Nat
  nodes : Nat
  alternatives : Nat
  ambiguityPoints : Nat
deriving DecidableEq

namespace Forest

variable {g : Grammar T N}

/-- The forest without nodes. -/
def empty (g : Grammar T N) : Forest g := ⟨#[], {}, none, 0⟩

/-- The node with index `id`. -/
def node? (f : Forest g) (id : NodeId) : Option (Node N) := f.arena.nodes[id]?

/-- The number of nodes. -/
def size (f : Forest g) : Nat := f.arena.nodes.size

/-- The ways to derive the node `id`. -/
def alternatives (f : Forest g) (id : NodeId) : List Alternative :=
  match f.node? id with
  | some node => node.alternatives
  | none => []

/-- The nodes that ways to derive the node `id` refer to, in order. -/
def children (f : Forest g) (id : NodeId) : List NodeId :=
  (f.alternatives id).flatMap Alternative.children

/-- The node for `symbol` over the tokens from `start` up to `stop`. -/
def find? (f : Forest g) (symbol : N) (start stop : Nat) : Option NodeId :=
  f.arena.find? symbol start stop

/-- The nodes with more than one way to derive them, ascending. -/
def ambiguityPoints (f : Forest g) : List NodeId :=
  (List.range f.size).filter fun id => 1 < (f.alternatives id).length

/-- The sizes of the forest. -/
def stats (f : Forest g) : ForestStats where
  tokens := f.tokens.size
  chartItems := f.chartItems
  nodes := f.size
  alternatives := f.arena.nodes.toList.foldr (fun node count => node.alternatives.length + count) 0
  ambiguityPoints := f.ambiguityPoints.length

end Forest

end EarleyForest
