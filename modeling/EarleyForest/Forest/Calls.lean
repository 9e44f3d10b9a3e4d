import EarleyForest.Forest.Basic

/-!
# Making a forest by hand

A forest is made by calls of three kinds, in any order: for the node of a token, for the node of a
nonterminal over a range, and to add an alternative to a node that is there.
-/

namespace EarleyForest

variable {T N : Type} [SearchKey N]

namespace Arena

/-- What is asked of an arena. -/
inductive Call (N : Type) where
  /-- The node for the token at an index. -/
  | terminal (token : Nat)
  /-- The node for `symbol` over the tokens from `start` up to `stop`. -/
  | nonterminal (symbol : N) (start stop : Nat)
  /-- One more alternative for the node `id`. -/
  | push (id : NodeId) (alternative : Alternative)
deriving DecidableEq

/-- What a call gives: the node that was asked for and, for a nonterminal, whether it was made
now. -/
inductive Answer where
  | terminal (id : NodeId)
  | nonterminal (id : NodeId) (isNew : Bool)
  | pushed
deriving DecidableEq

/-- The node that a call asks for, as it is when it is made. -/
def Call.node? : Call N → Option (Node N)
  | .terminal token => some (.terminal token)
  | .nonterminal A i j => some (.nonterminal A i j [])
  | .push _ _ => none

/-- The answer that gives the node `id`. -/
def Call.answer (id : NodeId) (isNew : Bool) : Call N → Answer
  | .terminal _ => .terminal id
  | .nonterminal _ _ _ => .nonterminal id isNew
  | .push _ _ => .pushed

/-- The answer to a call, and the arena behind it. -/
def call (arena : Arena N) : Call N → Answer × Arena N
  | .terminal token =>
    let (id, arena) := arena.terminal token
    (.terminal id, arena)
  | .nonterminal A i j =>
    let ((id, isNew), arena) := arena.nonterminal A i j
    (.nonterminal id isNew, arena)
  | .push id a => (.pushed, arena.pushAlternative id a)

/-- The answers to calls, one behind the other, and the arena behind all of them. -/
def run (arena : Arena N) : List (Call N) → List Answer × Arena N
  | [] => ([], arena)
  | c :: calls =>
    let (answer, arena) := arena.call c
    let (answers, arena) := arena.run calls
    (answer :: answers, arena)

/-- An alternative is added only to one of the first `size` nodes. -/
def Call.InRange (size : Nat) : Call N → Prop
  | .terminal _ => True
  | .nonterminal _ _ _ => True
  | .push id _ => id < size

instance (size : Nat) : (c : Call N) → Decidable (c.InRange size)
  | .terminal _ => .isTrue trivial
  | .nonterminal _ _ _ => .isTrue trivial
  | .push id _ => inferInstanceAs (Decidable (id < size))

/-- Alternatives are added only to nodes that are there. -/
def Admits (arena : Arena N) : List (Call N) → Prop
  | [] => True
  | c :: calls => c.InRange arena.nodes.size ∧ (arena.call c).2.Admits calls

instance decidableAdmits (arena : Arena N) :
    (calls : List (Call N)) → Decidable (arena.Admits calls)
  | [] => .isTrue trivial
  | c :: calls =>
    have := decidableAdmits (arena.call c).2 calls
    inferInstanceAs (Decidable (_ ∧ _))

/-- The alternatives that calls add to the node `id`, in order. -/
def addedTo (id : NodeId) (calls : List (Call N)) : List Alternative :=
  calls.filterMap fun
    | .push id' a => if id' = id then some a else none
    | _ => none

end Arena

/-- The forest that is made by calls. -/
def Forest.ofCalls [DecidableEq N] {g : Grammar T N} (tokens : Array (Token T))
    (calls : List (Arena.Call N)) (root? : Option NodeId) (chartItems : Nat) : Forest g where
  tokens := tokens
  arena := (Arena.run {} calls).2
  root? := root?
  chartItems := chartItems

end EarleyForest
