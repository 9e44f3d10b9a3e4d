import EarleyForest.Tree.Basic

/-!
# Recursion over derivation trees

What the walks of a tree are to give, said by recursion over the tree. A recursion says what is made
of a token, and what is made of a branch from what was made of its children, from left to right
(`fold`).
-/

namespace EarleyForest

namespace ParseTree

variable {T N α : Type}

section Fold

variable (onLeaf : Token T → α) (onBranch : N → RuleId → Nat → Nat → List α → α)

mutual

/-- What is made of a tree: `onLeaf` of its token, or `onBranch` of its symbol, its rule, its range
and what is made of its children. -/
def fold : ParseTree T N → α
  | leaf token => onLeaf token
  | branch symbol rule start stop children => onBranch symbol rule start stop (foldAll children)

/-- What is made of several trees, one by one. -/
def foldAll : List (ParseTree T N) → List α
  | [] => []
  | t :: ts => fold t :: foldAll ts

end

end Fold

/-- The tree as text: a token as it stands, and a branch in brackets, with the name of its symbol in
front and a blank before each child. -/
def bracketed [Named N] : ParseTree T N → String :=
  fold Token.text fun symbol _ _ _ texts =>
    "(" ++ name symbol ++ String.join (texts.map (" " ++ ·)) ++ ")"

/-- The tokens of the children, one behind the other. -/
def leaves : ParseTree T N → List (Token T) :=
  fold (fun token => [token]) fun _ _ _ _ tokens => tokens.flatten

/-- The rule of a branch, and behind it the rules of the children. -/
def applied : ParseTree T N → List RuleId :=
  fold (fun _ => []) fun _ rule _ _ rules => rule :: rules.flatten

mutual

/-- The tree, and behind it the nodes of the children. -/
def nodes : ParseTree T N → List (ParseTree T N)
  | leaf token => [leaf token]
  | branch symbol rule start stop children =>
    branch symbol rule start stop children :: nodesAll children

/-- The nodes of several trees, one tree behind the other. -/
def nodesAll : List (ParseTree T N) → List (ParseTree T N)
  | [] => []
  | t :: ts => nodes t ++ nodesAll ts

end

end ParseTree

end EarleyForest
