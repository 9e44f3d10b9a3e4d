import EarleyForest.Grammar.Rule
import EarleyForest.Lexing.Token

/-!
# Derivation trees

One derivation of an input, and the walks over it. The walks keep their own stack, so they reach any
depth.
-/

namespace EarleyForest

/-- A derivation: a token, or a rule applied over a range of tokens with a derivation for each of
its symbols. -/
inductive ParseTree (T N : Type) where
  | leaf (token : Token T)
  | branch (symbol : N) (rule : RuleId) (start stop : Nat) (children : List (ParseTree T N))

namespace ParseTree

variable {T N : Type}

/-- The derivations right below. -/
def children : ParseTree T N → List (ParseTree T N)
  | leaf _ => []
  | branch _ _ _ _ children => children

/-- The token of a leaf. -/
def token? : ParseTree T N → Option (Token T)
  | leaf token => some token
  | branch .. => none

/-- The rule applied at a branch. -/
def rule? : ParseTree T N → Option RuleId
  | leaf _ => none
  | branch _ rule .. => some rule

mutual

/-- The number of nodes of a tree. -/
def nodeCount : ParseTree T N → Nat
  | leaf _ => 1
  | branch _ _ _ _ children => 1 + nodeCountAll children

/-- The number of nodes of several trees. -/
def nodeCountAll : List (ParseTree T N) → Nat
  | [] => 0
  | t :: ts => nodeCount t + nodeCountAll ts

end

theorem nodeCountAll_append (ts us : List (ParseTree T N)) :
    nodeCountAll (ts ++ us) = nodeCountAll ts + nodeCountAll us := by
  induction ts with
  | nil => simp [nodeCountAll]
  | cons t ts ih => simp [nodeCountAll, ih, Nat.add_assoc]

theorem nodeCountAll_children_lt (t : ParseTree T N) : nodeCountAll t.children < t.nodeCount := by
  cases t <;> simp [children, nodeCount, nodeCountAll]

/-! ## Preorder -/

/-- The nodes of the trees on a stack: each node before its children, the children from left to
right. -/
def walk : List (ParseTree T N) → List (ParseTree T N)
  | [] => []
  | t :: stack => t :: walk (t.children ++ stack)
termination_by stack => nodeCountAll stack
decreasing_by
  have := nodeCountAll_children_lt t
  simp only [nodeCountAll_append, nodeCountAll]
  omega

/-- The nodes of the tree in preorder. -/
def preorder (t : ParseTree T N) : List (ParseTree T N) := walk [t]

/-- The tokens at the leaves, from left to right. -/
def tokens (t : ParseTree T N) : List (Token T) := t.preorder.filterMap token?

/-- The rules applied, in preorder. -/
def rules (t : ParseTree T N) : List RuleId := t.preorder.filterMap rule?

/-! ## Text -/

/-- What is left to write: a tree, or the end of a branch. -/
inductive WriteStep (T N : Type) where
  | tree (t : ParseTree T N)
  | close

/-- How much a list of steps has left to write. -/
def workLeft : List (WriteStep T N) → Nat
  | [] => 0
  | .tree t :: steps => 2 * t.nodeCount + workLeft steps
  | .close :: steps => 1 + workLeft steps

/-- Trees to write in front of other steps. -/
def pushTrees (ts : List (ParseTree T N)) (steps : List (WriteStep T N)) : List (WriteStep T N) :=
  ts.foldr (fun t steps => .tree t :: steps) steps

theorem workLeft_pushTrees (ts : List (ParseTree T N)) (steps : List (WriteStep T N)) :
    workLeft (pushTrees ts steps) = 2 * nodeCountAll ts + workLeft steps := by
  induction ts with
  | nil => simp [pushTrees, nodeCountAll]
  | cons t ts ih =>
    simp only [pushTrees, List.foldr_cons, workLeft, nodeCountAll] at ih ⊢
    omega

/-- Writes what is left behind `text`. A blank goes in front of every tree but the first. -/
def writeSteps [Named N] (text : String) (isFirst : Bool) : List (WriteStep T N) → String
  | [] => text
  | .close :: steps => writeSteps (text ++ ")") isFirst steps
  | .tree (.leaf token) :: steps =>
    writeSteps ((if isFirst then text else text ++ " ") ++ token.text) false steps
  | .tree (.branch symbol _ _ _ children) :: steps =>
    writeSteps ((if isFirst then text else text ++ " ") ++ "(" ++ name symbol) false
      (pushTrees children (.close :: steps))
termination_by steps => workLeft steps
decreasing_by
  · simp only [workLeft]; omega
  · simp only [workLeft, nodeCount]; omega
  · simp only [workLeft, workLeft_pushTrees, nodeCount]; omega

/-- The tree as text, such as `(E (E 1) + (E 2))`. -/
def render [Named N] (t : ParseTree T N) : String := writeSteps "" true [.tree t]

end ParseTree

/-- A derivation and the sum of the costs of its rules. -/
structure Parse (T N : Type) where
  tree : ParseTree T N
  weight : Cost

end EarleyForest
