/-!
# Cursors

A cursor describes one derivation of a forest: it records which alternative was taken at each
ambiguous node, in preorder. It is plain data, can be kept or sent away, and need not belong to the
forest it is handed to.
-/

namespace EarleyForest

/-- The index of a node in its forest. -/
abbrev NodeId := Nat

namespace NodeId

/-- The node in messages, such as `#4`. -/
def render (id : NodeId) : String := "#" ++ toString id

end NodeId

/-- The alternative taken at one ambiguous node. -/
structure Choice where
  node : NodeId
  alternative : Nat
deriving DecidableEq, Inhabited

/-- The choice as text, such as `#4:1`. -/
def Choice.render (c : Choice) : String := NodeId.render c.node ++ ":" ++ toString c.alternative

/-- The choices of one derivation, in preorder. -/
structure Directions where
  choices : List Choice
deriving DecidableEq, Inhabited

/-- The choices as text, such as `[#0:1, #4:0]`. -/
def Directions.render (d : Directions) : String :=
  "[" ++ ", ".intercalate (d.choices.map Choice.render) ++ "]"

end EarleyForest
