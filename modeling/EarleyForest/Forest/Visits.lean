import EarleyForest.Forest.Price

/-!
# Prices by a stack of visits

The depth-first walk of `Forest.price` without recursion over the forest: what is still to be done
stands on a stack, and a mark at each node says how far the walk has come with it. A node may stand
on the stack several times before it is entered. The walk ends because each node is entered once:
what is left on the stack for it later is dropped.
-/

namespace EarleyForest

variable {T N : Type} [DecidableEq N] [SearchKey N]

/-- How far the walk has come with a node. -/
inductive Mark where
  | unvisited
  /-- The node has been entered and waits for the prices of its children. -/
  | visiting
  | done
deriving DecidableEq

/-- What is to be done with a node. -/
inductive Visit where
  | enter (id : NodeId)
  /-- The node gets its price. -/
  | exit (id : NodeId)

namespace Mark

variable {marks : Array Mark} {id : NodeId} {mark : Mark}

theorem count_setIfInBounds_le (hmark : mark ≠ unvisited) :
    (marks.setIfInBounds id mark).count unvisited ≤ marks.count unvisited := by
  rw [Array.setIfInBounds_def]
  split
  · rw [Array.count_set, if_neg (c := (mark == unvisited) = true) (by simpa using hmark)]
    exact Nat.sub_le _ _
  · exact Nat.le_refl _

theorem count_setIfInBounds_lt (hmark : mark ≠ unvisited) (h : marks[id]? = some unvisited) :
    (marks.setIfInBounds id mark).count unvisited < marks.count unvisited := by
  obtain ⟨hid, hget⟩ := Array.getElem?_eq_some_iff.1 h
  have hpos : 0 < marks.count unvisited :=
    Array.count_pos_iff.2 (hget ▸ Array.getElem_mem hid)
  rw [Array.setIfInBounds_def, dif_pos hid, Array.count_set, hget,
    if_neg (c := (mark == unvisited) = true) (by simpa using hmark)]
  exact Nat.sub_lt hpos Nat.one_pos

end Mark

namespace Forest

variable {g : Grammar T N}

/-- Pushes visits of those of the `children` that have no price yet. They are gone through
backwards, so that the first one ends up on top; meeting one that is being visited is a cycle. -/
def pushChildren (f : Forest g) (marks : Array Mark) (children : List NodeId)
    (stack : List Visit) : Except (ForestError N) (List Visit) :=
  children.reverse.foldlM (fun stack (child : NodeId) =>
    match marks[child]? with
    | some .done => .ok stack
    | some .visiting => .error (.cycle (f.site child))
    | _ => .ok (.enter child :: stack)) stack

/-- Works off the stack. A node that does not exist has no alternatives. -/
def visit (f : Forest g) (marks : Array Mark) (table : Array (Option Price)) :
    List Visit → Except (ForestError N) (Array Mark × Array (Option Price))
  | [] => .ok (marks, table)
  | .enter id :: stack =>
    match _ : marks[id]? with
    | some .done => f.visit marks table stack
    | some .visiting => .error (.cycle (f.site id))
    | some .unvisited =>
      let marks' := marks.setIfInBounds id .visiting
      match f.pushChildren marks' (f.children id) (.exit id :: stack) with
      | .ok stack => f.visit marks' table stack
      | .error e => .error e
    | none => .error (.noAlternatives (f.site id))
  | .exit id :: stack =>
    match f.priceNode table id with
    | .ok price =>
      f.visit (marks.setIfInBounds id .done) (table.setIfInBounds id (some price)) stack
    | .error e => .error e
termination_by stack => (marks.count .unvisited, stack.length)
decreasing_by
  · exact .right _ (Nat.lt_succ_self _)
  · exact .left _ _ (Mark.count_setIfInBounds_lt (by decide) ‹_›)
  · have hle : (marks.setIfInBounds id .done).count .unvisited ≤ marks.count .unvisited :=
      Mark.count_setIfInBounds_le (by decide)
    rcases Nat.lt_or_eq_of_le hle with hlt | heq
    · exact .left _ _ hlt
    · rw [heq]
      exact .right _ (Nat.lt_succ_self _)

/-- Starts the walk at the node `id`, unless it has been there. -/
def visitFrom (f : Forest g) : Array Mark × Array (Option Price) → NodeId →
    Except (ForestError N) (Array Mark × Array (Option Price))
  | (marks, table), id =>
    match marks[id]? with
    | some .unvisited => f.visit marks table [.enter id]
    | _ => .ok (marks, table)

/-- The prices of all nodes. -/
def priceByVisits (f : Forest g) : Except (ForestError N) PriceTable := do
  let (_, table) ← (List.range f.size).foldlM f.visitFrom
    (Array.replicate f.size .unvisited, Array.replicate f.size none)
  let prices ← table.toList.zipIdx.mapM fun
    | (some price, _) => .ok price
    | (none, id) => .error (.cycle (f.site id))
  return prices.toArray

end Forest

end EarleyForest
