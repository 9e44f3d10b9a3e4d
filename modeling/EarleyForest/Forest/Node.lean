import EarleyForest.Forest.Directions
import EarleyForest.Grammar.Rule
import EarleyForest.SearchKey
import Std.Data.TreeMap

/-!
# Nodes of a forest

A node stands for a token, or for all ways to derive a nonterminal over a range of tokens. Nodes
live in an arena, know each other by index and are shared: there is one node for each token and one
for each nonterminal and range.
-/

namespace EarleyForest

/-- One way to derive a node: a rule and a node for each symbol of its right-hand side. -/
structure Alternative where
  rule : RuleId
  children : List NodeId
deriving DecidableEq, Inhabited

/-- A node of a forest. -/
inductive Node (N : Type) where
  /-- The token at an index. -/
  | terminal (token : Nat)
  /-- All ways to derive `symbol` over the tokens from `start` up to `stop`. -/
  | nonterminal (symbol : N) (start stop : Nat) (alternatives : List Alternative)
deriving DecidableEq

namespace Node

variable {N : Type}

/-- The ways to derive the node; a token has none. -/
def alternatives : Node N → List Alternative
  | terminal _ => []
  | nonterminal _ _ _ alternatives => alternatives

/-- The range of tokens below the node. -/
def span : Node N → Nat × Nat
  | terminal token => (token, token + 1)
  | nonterminal _ start stop _ => (start, stop)

/-- The nonterminal that the node derives. -/
def symbol? : Node N → Option N
  | terminal _ => none
  | nonterminal symbol _ _ _ => some symbol

/-- Whether there is more than one way to derive the node. -/
def isAmbiguous (node : Node N) : Bool := 1 < node.alternatives.length

/-- Adds ways to derive the node. A token stays as it is. -/
def append (node : Node N) (added : List Alternative) : Node N :=
  match node with
  | terminal token => terminal token
  | nonterminal symbol start stop alternatives =>
    nonterminal symbol start stop (alternatives ++ added)

end Node

/-! ## The arena -/

/-- A nonterminal and the range of tokens that it derives. -/
structure NodeKey (N : Type) where
  symbol : N
  start : Nat
  stop : Nat
deriving DecidableEq

variable {N : Type} [SearchKey N]

namespace NodeKey

/-- The order by start, then end, then nonterminal. -/
def compare (a b : NodeKey N) : Ordering :=
  (Ord.compare a.start b.start).then
    ((Ord.compare a.stop b.stop).then (Ord.compare a.symbol b.symbol))

instance : Std.TransCmp (@compare N _) :=
  inferInstanceAs (Std.TransCmp
    (compareLex (compareOn NodeKey.start) (compareLex (compareOn NodeKey.stop)
      (compareOn NodeKey.symbol))))

instance : Std.LawfulEqCmp (@compare N _) where
  eq_of_compare {a b} h := by
    cases a; cases b
    simp [compare, Ordering.then_eq_eq] at h
    simp [h]

end NodeKey

/-- Nodes in the order in which they were made, and where to find them: nonterminals by key, tokens
by index. -/
structure Arena (N : Type) [SearchKey N] where
  nodes : Array (Node N) := #[]
  keys : Std.TreeMap (NodeKey N) NodeId NodeKey.compare := {}
  leaves : Std.TreeMap Nat NodeId := {}
deriving Inhabited

namespace Arena

/-- The node for `symbol` over the tokens from `start` up to `stop`. -/
def find? (arena : Arena N) (symbol : N) (start stop : Nat) : Option NodeId :=
  arena.keys[(⟨symbol, start, stop⟩ : NodeKey N)]?

/-- The node for the token at an index, made on first use. -/
def terminal (arena : Arena N) (token : Nat) : NodeId × Arena N :=
  match arena.leaves[token]? with
  | some id => (id, arena)
  | none =>
    let id := arena.nodes.size
    (id, { arena with
      nodes := arena.nodes.push (.terminal token)
      leaves := arena.leaves.insert token id })

/-- The node for `symbol` over the tokens from `start` up to `stop`, made on first use, and whether
it was made now. -/
def nonterminal (arena : Arena N) (symbol : N) (start stop : Nat) : (NodeId × Bool) × Arena N :=
  match arena.find? symbol start stop with
  | some id => ((id, false), arena)
  | none =>
    let id := arena.nodes.size
    ((id, true), { arena with
      nodes := arena.nodes.push (.nonterminal symbol start stop [])
      keys := arena.keys.insert ⟨symbol, start, stop⟩ id })

/-- Adds ways to derive the node `id`. -/
def pushAlternatives (arena : Arena N) (id : NodeId) (alternatives : List Alternative) : Arena N :=
  { arena with nodes := arena.nodes.modify id (·.append alternatives) }

/-- Adds a way to derive the node `id`. -/
def pushAlternative (arena : Arena N) (id : NodeId) (alternative : Alternative) : Arena N :=
  arena.pushAlternatives id [alternative]

end Arena

end EarleyForest
