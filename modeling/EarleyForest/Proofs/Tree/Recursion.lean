import EarleyForest.Proofs.Tree.Walk
import EarleyForest.Tree.Recursion

/-!
# The walks over a tree do what the recursions do

A recursion is the only function that makes of a tree what it says (`eq_fold`), so it is enough to
see what the walks make of a branch. For the text the stack says what is still to be written
(`WriteStep.text`): behind the first tree every pending tree comes with a blank in front, and every
pending end of a branch is a bracket (`writeSteps_eq`). So much is put together in
`ParseTree.walks_eq_recursions`.
-/

namespace EarleyForest

namespace ParseTree

variable {T N α : Type}

/-! ## Recursions -/

section Fold

variable {onLeaf : Token T → α} {onBranch : N → RuleId → Nat → Nat → List α → α}

theorem foldAll_eq_map (ts : List (ParseTree T N)) :
    foldAll onLeaf onBranch ts = ts.map (fold onLeaf onBranch) := by
  induction ts with
  | nil => rfl
  | cons t ts ih => rw [foldAll, ih, List.map_cons]

variable {h : ParseTree T N → α} (hleaf : ∀ token, h (leaf token) = onLeaf token)
  (hbranch : ∀ symbol rule start stop children,
    h (branch symbol rule start stop children) = onBranch symbol rule start stop (children.map h))
include hleaf hbranch

/-- What is made of tokens and of branches determines what is made of trees. -/
theorem eq_fold : ∀ t : ParseTree T N, h t = t.fold onLeaf onBranch
  | leaf token => by rw [hleaf, fold]
  | branch symbol rule start stop children => by
    have hchildren : children.map h = children.map (fold onLeaf onBranch) :=
      List.map_congr_left fun t ht => eq_fold t
    rw [hbranch, hchildren, fold, foldAll_eq_map]

end Fold

mutual

theorem preorder_eq_nodes : ∀ t : ParseTree T N, t.preorder = t.nodes
  | leaf token => by
    rw [preorder_eq, nodes]
    rfl
  | branch symbol rule start stop children => by
    rw [preorder_eq, nodes, ← flatMap_preorder_eq_nodesAll children]
    rfl

theorem flatMap_preorder_eq_nodesAll :
    ∀ ts : List (ParseTree T N), ts.flatMap preorder = nodesAll ts
  | [] => rfl
  | t :: ts => by
    rw [List.flatMap_cons, nodesAll, preorder_eq_nodes t, flatMap_preorder_eq_nodesAll ts]

end

/-! ## Text -/

section Text

variable [Named N]

theorem bracketed_branch (A : N) (rule : RuleId) (i j : Nat) (ts : List (ParseTree T N)) :
    (branch A rule i j ts).bracketed =
      "(" ++ name A ++ String.join (ts.map fun t => " " ++ t.bracketed) ++ ")" := by
  rw [bracketed, fold, foldAll_eq_map, List.map_map]
  rfl

/-- What is written for a step that is not the first one. -/
def WriteStep.text : WriteStep T N → String
  | tree t => " " ++ t.bracketed
  | close => ")"

theorem map_text_pushTrees (ts : List (ParseTree T N)) (steps : List (WriteStep T N)) :
    (pushTrees ts steps).map WriteStep.text =
      (ts.map fun t => " " ++ t.bracketed) ++ steps.map WriteStep.text := by
  induction ts with
  | nil => rfl
  | cons t ts ih =>
    rw [List.map_cons, List.cons_append, ← ih]
    rfl

/-- A branch is written when its children and its end have been written. -/
theorem join_text_pushTrees (A : N) (rule : RuleId) (i j : Nat) (ts : List (ParseTree T N))
    (steps : List (WriteStep T N)) :
    "(" ++ name A ++ String.join ((pushTrees ts (.close :: steps)).map WriteStep.text) =
      (branch A rule i j ts).bracketed ++ String.join (steps.map WriteStep.text) := by
  rw [map_text_pushTrees, String.join_append, bracketed_branch, List.map_cons, String.join_cons]
  simp only [WriteStep.text, String.append_assoc]

/-- Behind the first tree, each step on the stack adds its text, the next one first. -/
theorem writeSteps_eq (text : String) (steps : List (WriteStep T N)) :
    writeSteps text false steps = text ++ String.join (steps.map WriteStep.text) := by
  generalize hfirst : false = isFirst
  fun_induction writeSteps text isFirst steps with
  | case1 text isFirst => simp
  | case2 text isFirst steps ih =>
    rw [ih hfirst, List.map_cons, String.join_cons, WriteStep.text, String.append_assoc]
  | case3 text isFirst token steps ih =>
    subst hfirst
    simp only [Bool.false_eq_true, dite_false, if_false, forall_const] at ih ⊢
    rw [ih, List.map_cons, String.join_cons]
    simp [WriteStep.text, bracketed, fold, String.append_assoc]
  | case4 text isFirst A rule i j ts steps ih =>
    subst hfirst
    have hbranch := join_text_pushTrees A rule i j ts steps
    simp only [Bool.false_eq_true, dite_false, if_false, forall_const] at ih ⊢
    rw [ih, List.map_cons, String.join_cons, WriteStep.text]
    simp only [String.append_assoc] at hbranch ⊢
    rw [hbranch]

/-- No blank is written before the first tree. -/
theorem render_eq_bracketed (t : ParseTree T N) : t.render = t.bracketed := by
  cases t with
  | leaf token =>
    rw [render, writeSteps, writeSteps]
    simp [bracketed, fold]
  | branch A rule i j ts =>
    have hbranch := join_text_pushTrees A rule i j ts []
    rw [render, writeSteps, writeSteps_eq]
    simpa using hbranch

end Text

/-! ## The walks -/

theorem tokens_leaf (token : Token T) : (leaf token : ParseTree T N).tokens = [token] := by
  rw [tokens, filterMap_preorder]
  rfl

theorem tokens_branch (A : N) (rule : RuleId) (i j : Nat) (ts : List (ParseTree T N)) :
    (branch A rule i j ts).tokens = ts.flatMap tokens := by
  rw [tokens, filterMap_preorder]
  rfl

/-- The walks with a stack give what the recursions over the tree give: the text in brackets, the
nodes in preorder, the tokens from left to right, and the rule of each branch before those of its
children. -/
theorem walks_eq_recursions [Named N] (t : ParseTree T N) :
    t.render = t.bracketed ∧ t.preorder = t.nodes ∧ t.tokens = t.leaves ∧ t.rules = t.applied := by
  refine ⟨render_eq_bracketed t, preorder_eq_nodes t, ?_, ?_⟩
  · apply eq_fold
    · exact tokens_leaf
    · intro A rule i j ts
      rw [tokens_branch, List.flatMap_def]
  · apply eq_fold
    · exact rules_leaf
    · intro A rule i j ts
      rw [rules_branch, List.flatMap_def]

end ParseTree

end EarleyForest
