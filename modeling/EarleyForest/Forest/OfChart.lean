import EarleyForest.Forest.Basic
import EarleyForest.Forest.Splits

/-!
# The forest of a chart

Builds the forest from the root down. Each node gets an alternative for each rule that was
recognised over its range and each split of that rule. Nodes made on the way wait on a stack for
their own alternatives.
-/

namespace EarleyForest

variable {T N : Type} [DecidableEq N] [SearchKey N]

/-- A node without alternatives yet. Positions count from the first token that was parsed. -/
structure PendingNode (N : Type) where
  id : NodeId
  symbol : N
  start : Nat
  stop : Nat

/-- The nodes made so far, and those that wait for their alternatives, the next one first. -/
structure Growth (N : Type) [SearchKey N] where
  arena : Arena N
  pending : List (PendingNode N)

namespace Growth

/-- The node for `X` from `start` to `stop`. One made now has to wait for its alternatives. Tokens
before the first one parsed are counted by `base`. -/
def child (base : Nat) (growth : Growth N) (X : Symbol T N) (start stop : Nat) :
    NodeId × Growth N :=
  match X with
  | .terminal _ =>
    let (id, arena) := growth.arena.terminal (base + start)
    (id, { growth with arena := arena })
  | .nonterminal A =>
    let ((id, isNew), arena) := growth.arena.nonterminal A (base + start) (base + stop)
    (id, ⟨arena, if isNew then ⟨id, A, start, stop⟩ :: growth.pending else growth.pending⟩)

/-- The nodes for the symbols of `rhs` between the boundaries of `split`, from left to right. -/
def children (base : Nat) (growth : Growth N) :
    List (Symbol T N) → List Nat → List NodeId × Growth N
  | X :: rhs, start :: stop :: split =>
    let (id, growth) := growth.child base X start stop
    let (ids, growth) := growth.children base rhs (stop :: split)
    (id :: ids, growth)
  | _, _ => ([], growth)

/-- The alternatives by `rule`, one for each split, with the nodes for their symbols. -/
def alternatives (base : Nat) (rule : RuleId) (rhs : List (Symbol T N)) (growth : Growth N) :
    List (List Nat) → List Alternative × Growth N
  | [] => ([], growth)
  | split :: splits =>
    let (ids, growth) := growth.children base rhs split
    let (others, growth) := growth.alternatives base rule rhs splits
    (⟨rule, ids⟩ :: others, growth)

/-- Adds an alternative for each split of `rule` to the node `id`. -/
def addSplits (base : Nat) (id : NodeId) (rule : RuleId) (rhs : List (Symbol T N))
    (growth : Growth N) (splits : List (List Nat)) : Growth N :=
  let (alternatives, growth) := growth.alternatives base rule rhs splits
  { growth with arena := growth.arena.pushAlternatives id alternatives }

variable [DecidableEq T] {g : Grammar T N} {n : Nat}

/-- Gives a node its alternatives, rule by rule. -/
def expand (chart : Chart g n) (origins : N → Nat → Std.ExtTreeSet Nat) (kinds : Array T)
    (base : Nat) (growth : Growth N) (node : PendingNode N) : Growth N :=
  (g.alternatives node.symbol).foldl (fun growth rule =>
    match g.rule? rule with
    | none => growth
    | some r =>
      if chart.contains node.stop ⟨rule, r.rhs.length, node.start⟩ then
        growth.addSplits base node.id rule r.rhs
          (chart.splits origins kinds rule r.rhs node.start node.stop)
      else growth) growth

/-- Gives pending nodes their alternatives, `fuel` of them at most. -/
def run (chart : Chart g n) (origins : N → Nat → Std.ExtTreeSet Nat) (kinds : Array T)
    (base : Nat) : Nat → Growth N → Growth N
  | 0, growth => growth
  | fuel + 1, growth =>
    match growth.pending with
    | [] => growth
    | node :: pending =>
      run chart origins kinds base fuel
        (expand chart origins kinds base { growth with pending := pending } node)

end Growth

namespace Chart

variable [DecidableEq T] {g : Grammar T N}

/-- The nodes for the derivations of `start` over all tokens from index `base` on, whose kinds are
`kinds`. The node of `start` comes first. There is a node at most for each left-hand side and range,
which bounds the work. -/
def grow (base : Nat) (kinds : List T) (chart : Chart g kinds.length) (start : N) : Growth N :=
  let n := kinds.length
  let ((root, _), arena) := ({} : Arena N).nonterminal start base (base + n)
  Growth.run chart (lookupOrigins chart.originTable) kinds.toArray base
    (g.rules.size * (n + 1) * (n + 1) + 1) ⟨arena, [⟨root, start, 0, n⟩]⟩

end Chart

/-- The forest of the derivations of `start` over all of `tokens` from index `base` on, whose kinds
are `kinds`. -/
def Forest.ofChart [DecidableEq T] {g : Grammar T N} (tokens : Array (Token T)) (base : Nat)
    (kinds : List T) (chart : Chart g kinds.length) (start : N) : Forest g where
  tokens := tokens
  arena := (chart.grow base kinds start).arena
  root? := some 0
  chartItems := chart.itemCount

end EarleyForest
