import EarleyForest.Tree.Basic

/-!
# Walks over derivation trees

The walk takes the trees on its stack one after the other (`walk_append`). So what it lists of a
tree is the tree and then what it lists of the children, from left to right (`preorder_eq`), and the
rules of a branch are its own and those of its children (`rules_branch`).
-/

namespace EarleyForest

namespace ParseTree

variable {T N : Type}

theorem walk_append (ts us : List (ParseTree T N)) : walk (ts ++ us) = walk ts ++ walk us := by
  induction ts using walk.induct with
  | case1 => simp [walk]
  | case2 t stack ih =>
    rw [List.cons_append, walk, ← List.append_assoc, ih, walk, List.cons_append]

theorem walk_eq_flatMap (ts : List (ParseTree T N)) : walk ts = ts.flatMap preorder := by
  induction ts with
  | nil => simp [walk]
  | cons t ts ih =>
    rw [← List.singleton_append, walk_append, ih, List.singleton_append, List.flatMap_cons, preorder]

/-- A tree comes before its children. -/
theorem preorder_eq (t : ParseTree T N) : t.preorder = t :: t.children.flatMap preorder := by
  rw [preorder, walk, List.append_nil, walk_eq_flatMap]

/-- What is picked from a tree is picked from the tree itself and then from its children. -/
theorem filterMap_preorder {α : Type} (pick : ParseTree T N → Option α) (t : ParseTree T N) :
    t.preorder.filterMap pick =
      (pick t).toList ++ t.children.flatMap fun child => child.preorder.filterMap pick := by
  rw [preorder_eq, List.filterMap_cons, List.filterMap_flatMap]
  cases pick t <;> simp

theorem rules_leaf (token : Token T) : (leaf token : ParseTree T N).rules = [] := by
  rw [rules, filterMap_preorder]
  rfl

theorem rules_branch (A : N) (rule : RuleId) (start stop : Nat) (ts : List (ParseTree T N)) :
    (branch A rule start stop ts).rules = rule :: ts.flatMap rules := by
  rw [rules, filterMap_preorder]
  rfl

end ParseTree

end EarleyForest
