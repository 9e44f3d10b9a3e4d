import EarleyForest.Forest.Basic
import Mathlib.Algebra.GroupWithZero.Nat

/-!
# Selections

`f.IsSelection id s`: the selection `s` picks one alternative at the node `id` and, anew at every
occurrence of a node, one at each nonterminal below it. A selection says nothing of the tokens, so a
node has the same selections whether or not the tokens below it are there.
-/

namespace EarleyForest

/-- The alternatives picked at a node and at the occurrences of nodes below it. -/
inductive Selection where
  /-- At a token there is nothing to pick. -/
  | leaf
  /-- Alternative `k`, which applies `rule`, and what is picked at its children. -/
  | branch (k : Nat) (rule : RuleId) (below : List Selection)

namespace Selection

mutual

/-- The rules applied, in preorder. -/
def rules : Selection → List RuleId
  | leaf => []
  | branch _ rule below => rule :: rulesAll below

/-- The rules applied by several selections. -/
def rulesAll : List Selection → List RuleId
  | [] => []
  | s :: ss => rules s ++ rulesAll ss

end

end Selection

variable {T N : Type} [DecidableEq N] [SearchKey N]

/-- The sum of the costs of rules. It has no cap. -/
def Grammar.totalCost (g : Grammar T N) (rules : List RuleId) : Nat :=
  (rules.map fun rule => (g.cost rule).toNat).sum

namespace Forest

variable {g : Grammar T N}

mutual

/-- The selection picks alternatives that the node and those below it have. -/
inductive IsSelection (f : Forest g) : NodeId → Selection → Prop where
  | leaf {id : NodeId} {token : Nat} (h : f.node? id = some (.terminal token)) :
    IsSelection f id .leaf
  | branch {id : NodeId} {A : N} {start stop k : Nat} {alternatives : List Alternative}
    {a : Alternative} {ss : List Selection}
    (h : f.node? id = some (.nonterminal A start stop alternatives))
    (ha : alternatives[k]? = some a) (hs : AreSelections f a.children ss) :
    IsSelection f id (.branch k a.rule ss)

/-- Selections of several nodes, one for one. -/
inductive AreSelections (f : Forest g) : List NodeId → List Selection → Prop where
  | nil : AreSelections f [] []
  | cons {id : NodeId} {ids : List NodeId} {s : Selection} {ss : List Selection}
    (h : IsSelection f id s) (hs : AreSelections f ids ss) : AreSelections f (id :: ids) (s :: ss)

end

end Forest

end EarleyForest
