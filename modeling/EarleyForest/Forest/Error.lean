import EarleyForest.Forest.Basic

/-!
# Broken forests and foreign cursors

A forest that breaks its own rules is a fault that no other request can mend. A cursor that does not
describe a derivation of the forest is a mistake of the one who handed it in. Numbers in a cursor
are 64-bit words, and a request that adds to one may find no word for the sum.
-/

namespace EarleyForest

/-- Where in a forest a fault was met. A token has no symbol. -/
structure NodeSite (N : Type) where
  node : NodeId
  symbol? : Option N
  start : Nat
  stop : Nat
deriving DecidableEq

/-- Why a cursor does not describe a derivation. -/
inductive DirectionsFault where
  /-- The derivation leads to a node that does not exist. -/
  | unknownNode (node : NodeId)
  /-- The `given` choices are used up where the ambiguous node is met. -/
  | endsEarly (given : Nat) (node : NodeId)
  /-- Choice number `index` is for the node `named` and the ambiguous node met is another. -/
  | wrongNode (index : Nat) (named met : NodeId)
  /-- The choice at the node is none of its `count` alternatives. Counted from one it is `shown`. -/
  | noSuchAlternative (node : NodeId) (count shown : Nat)
  /-- Of the `given` choices only `used` are on the derivation. -/
  | unusedChoices (given used : Nat)
  /-- The next choice is for the node `found` where a choice at `expected` is due. -/
  | misplacedChoice (expected found : NodeId)
  /-- The node has no alternative with this index. -/
  | missingAlternative (node : NodeId) (index : Nat)
deriving DecidableEq

/-- Why a request to a forest fails. -/
inductive ForestError (N : Type) where
  | noRoot
  /-- A nonterminal node without a way to derive it. -/
  | noAlternatives (site : NodeSite N)
  /-- A node that lies below itself. -/
  | cycle (site : NodeSite N)
  /-- A node for a token behind the end of the input. -/
  | missingToken (node : NodeId) (token : Nat)
  | invalidDirections (fault : DirectionsFault)
deriving DecidableEq

/-- Why a request that hands in a cursor stops: a sum is no 64-bit word, or it fails. -/
inductive Stop (N : Type) where
  | overflow
  | fails (e : ForestError N)
deriving DecidableEq

/-- The number behind `n`, if it is a 64-bit word. -/
def nextWord? (n : Nat) : Option Nat :=
  if n + 1 < 18446744073709551616 then some (n + 1) else none

/-- The choice at the node is none of its `count` alternatives. The report counts alternatives from
one, and stops the request if there is no word for that. -/
def Stop.outOfRange {N : Type} (id : NodeId) (count alternative : Nat) : Stop N :=
  match nextWord? alternative with
  | some shown => .fails (.invalidDirections (.noSuchAlternative id count shown))
  | none => .overflow

/-- The site of the node `id`. -/
def Forest.site {T N : Type} [DecidableEq N] [SearchKey N] {g : Grammar T N} (f : Forest g)
    (id : NodeId) : NodeSite N :=
  match f.node? id with
  | some node => ⟨id, node.symbol?, node.span.1, node.span.2⟩
  | none => ⟨id, none, 0, 0⟩

/-! ## Wording -/

/-- The site in words, such as ``node #3 (`E` over 0..5)``. -/
def NodeSite.render {N : Type} [Named N] (s : NodeSite N) : String :=
  let symbol := match s.symbol? with
    | some A => name A
    | none => "<token>"
  "node " ++ NodeId.render s.node ++ " (`" ++ symbol ++ "` over " ++ toString s.start ++ ".."
    ++ toString s.stop ++ ")"

/-- The fault in words. -/
def DirectionsFault.message : DirectionsFault → String
  | unknownNode node => "node " ++ NodeId.render node ++ " is not in this forest"
  | endsEarly given node =>
    "ends after " ++ toString given ++ " choices, before the ambiguity at " ++ NodeId.render node
  | wrongNode index named met =>
    "choice " ++ toString index ++ " names " ++ NodeId.render named ++ " but the ambiguity is at "
      ++ NodeId.render met
  | noSuchAlternative node count shown =>
    "node " ++ NodeId.render node ++ " has " ++ toString count ++ " alternatives, not "
      ++ toString shown
  | unusedChoices given used =>
    toString given ++ " choices given but the derivation has " ++ toString used
  | misplacedChoice expected found =>
    "expected a choice at " ++ NodeId.render expected ++ ", found one at " ++ NodeId.render found
  | missingAlternative node index =>
    "node " ++ NodeId.render node ++ " has no alternative " ++ toString index

namespace ForestError

variable {N : Type}

/-- The error in words. -/
def message [Named N] : ForestError N → String
  | noRoot => "the forest has no root"
  | noAlternatives site => site.render ++ " has no alternatives"
  | cycle site => site.render ++ " derives itself"
  | missingToken node token =>
    "terminal node " ++ NodeId.render node ++ " refers to token " ++ toString token
      ++ ", past the end of the input"
  | invalidDirections fault =>
    "directions do not describe a parse of this forest: " ++ fault.message

/-- A name for the kind of error that tools can match on. -/
def code : ForestError N → String
  | noRoot => "forest::empty"
  | noAlternatives _ => "forest::no_alternatives"
  | cycle _ => "forest::cycle"
  | missingToken _ _ => "forest::missing_token"
  | invalidDirections _ => "forest::invalid_directions"

/-- Whether the forest is at fault, and not the one who asked. -/
def isInternal : ForestError N → Bool
  | invalidDirections _ => false
  | _ => true

end ForestError

end EarleyForest
