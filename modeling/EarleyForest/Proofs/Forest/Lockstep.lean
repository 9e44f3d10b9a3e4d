import EarleyForest.Proofs.Forest.Agreement

/-!
# Forests that grow in step

Where the tokens begin that were parsed only moves what a forest counts. Two arenas that agree give
the same index to a node that is asked for in both (`Arena.Agrees.terminal`,
`Arena.Agrees.nonterminal`) and agree afterwards. So do forests that grow out of one chart, after
each node that gets its alternatives (`Growth.Agrees.expand`) and after all of them
(`Growth.Agrees.run`).
-/

namespace EarleyForest

variable {T N : Type} {base base' : Nat}

/-- The results are equal, and `R` relates the states that are left. -/
structure SameResult {α σ : Type} (R : σ → σ → Prop) (x x' : α × σ) : Prop where
  fst_eq : x.1 = x'.1
  snd : R x.2 x'.2

/-! ## Nodes that match, index by index -/

theorem rel_getElem?_push {α : Type} {R : α → α → Prop} {as as' : Array α}
    (hsize : as.size = as'.size) (h : ∀ i : Nat, Option.Rel R as[i]? as'[i]?) {a a' : α}
    (ha : R a a') (i : Nat) : Option.Rel R (as.push a)[i]? (as'.push a')[i]? := by
  rw [Array.getElem?_push, Array.getElem?_push, hsize]
  split
  · exact .some ha
  · exact h i

theorem rel_map {α : Type} {R : α → α → Prop} {a? a'? : Option α} {f : α → α}
    (h : Option.Rel R a? a'?) (hf : ∀ a a', R a a' → R (f a) (f a')) :
    Option.Rel R (a?.map f) (a'?.map f) := by
  cases h with
  | none => exact .none
  | some h => exact .some (hf _ _ h)

theorem Node.Matches.append {node node' : Node N} (h : node.Matches base base' Eq node')
    (added : List Alternative) :
    (node.append added).Matches base base' Eq (node'.append added) := by
  cases h with
  | terminal k => exact .terminal k
  | nonterminal A i j h => exact .nonterminal A i j (congrArg (· ++ added) h)

variable [SearchKey N]

/-! ## Arenas that agree -/

/-- The arenas hold the same nodes under the same indices and find them. What the first counts from
`base` the second counts from `base'`. -/
structure Arena.Agrees (base base' : Nat) (arena arena' : Arena N) : Prop where
  size_eq : arena.nodes.size = arena'.nodes.size
  node : ∀ id : NodeId,
    Option.Rel (Node.Matches base base' Eq) arena.nodes[id]? arena'.nodes[id]?
  find?_eq : ∀ A i j,
    arena.find? A (base + i) (base + j) = arena'.find? A (base' + i) (base' + j)
  leaves_eq : ∀ k : Nat, arena.leaves[base + k]? = arena'.leaves[base' + k]?

namespace Arena.Agrees

variable {arena arena' : Arena N}

theorem empty : Agrees base base' ({} : Arena N) {} where
  size_eq := rfl
  node _ := .none
  find?_eq _ _ _ := by simp [find?]
  leaves_eq _ := by simp

variable (h : arena.Agrees base base' arena')
include h

/-- The token has the same node in both, be it there already or made now. -/
theorem terminal (k : Nat) : SameResult (Agrees base base')
    (arena.terminal (base + k)) (arena'.terminal (base' + k)) := by
  -- the tables of leaves give the same answer, so both arenas make a node or neither does
  have hleaf := h.leaves_eq k
  cases hid : arena'.leaves[base' + k]? with
  | some id =>
    simp only [Arena.terminal, hleaf, hid]
    exact ⟨rfl, h⟩
  | none =>
    simp only [Arena.terminal, hleaf, hid]
    refine ⟨h.size_eq, ?_, ?_, h.find?_eq, fun k' => ?_⟩
    · simp only [Array.size_push, h.size_eq]
    · exact rel_getElem?_push h.size_eq h.node (.terminal k)
    · simp only [Std.TreeMap.getElem?_insert, Std.LawfulEqCmp.compare_eq_iff_eq,
        Nat.add_left_cancel_iff, h.size_eq, h.leaves_eq]

/-- The nonterminal has the same node over the range in both, be it there already or made now. -/
theorem nonterminal (A : N) (i j : Nat) : SameResult (Agrees base base')
    (arena.nonterminal A (base + i) (base + j)) (arena'.nonterminal A (base' + i) (base' + j)) := by
  have hfind := h.find?_eq A i j
  cases hid : arena'.find? A (base' + i) (base' + j) with
  | some id =>
    simp only [Arena.nonterminal, hfind, hid]
    exact ⟨rfl, h⟩
  | none =>
    simp only [Arena.nonterminal, hfind, hid]
    refine ⟨by rw [h.size_eq], ?_, ?_, fun A' i' j' => ?_, h.leaves_eq⟩
    · simp only [Array.size_push, h.size_eq]
    · exact rel_getElem?_push h.size_eq h.node (.nonterminal A i j rfl)
    · have hold := h.find?_eq A' i' j'
      -- counting from elsewhere makes no keys equal that were not
      have hkey (base : Nat) : NodeKey.compare ⟨A, base + i, base + j⟩ ⟨A', base + i', base + j'⟩ =
          .eq ↔ A = A' ∧ i = i' ∧ j = j' := by
        simp
      unfold find? at hold ⊢
      simp only [Std.TreeMap.getElem?_insert, (hkey base).trans (hkey base').symm, h.size_eq, hold]

theorem pushAlternatives (id : NodeId) (added : List Alternative) :
    (arena.pushAlternatives id added).Agrees base base' (arena'.pushAlternatives id added) where
  size_eq := by rw [size_pushAlternatives, size_pushAlternatives, h.size_eq]
  node id' := by
    rw [getElem?_pushAlternatives, getElem?_pushAlternatives]
    split
    · exact rel_map (h.node id') fun _ _ hmatch => hmatch.append added
    · exact h.node id'
  find?_eq := h.find?_eq
  leaves_eq := h.leaves_eq

end Arena.Agrees

/-! ## Growth in step -/

namespace Growth

/-- The forests have agreeing nodes so far, and the same nodes wait for their alternatives. -/
structure Agrees (base base' : Nat) (growth growth' : Growth N) : Prop where
  arena : growth.arena.Agrees base base' growth'.arena
  pending_eq : growth.pending = growth'.pending

namespace Agrees

variable {growth growth' : Growth N} (h : growth.Agrees base base' growth')
include h

theorem child (X : Symbol T N) (i j : Nat) : SameResult (Agrees base base')
    (growth.child base X i j) (growth'.child base' X i j) := by
  cases X with
  | terminal kind =>
    obtain ⟨hid, harena⟩ := h.arena.terminal i
    exact ⟨hid, harena, h.pending_eq⟩
  | nonterminal A =>
    obtain ⟨hid, harena⟩ := h.arena.nonterminal A i j
    simp only [Growth.child, hid, h.pending_eq]
    exact ⟨rfl, harena, rfl⟩

theorem children (rhs : List (Symbol T N)) (split : List Nat) : SameResult (Agrees base base')
    (growth.children base rhs split) (growth'.children base' rhs split) := by
  induction rhs generalizing growth growth' split with
  | nil => exact ⟨rfl, h⟩
  | cons X rhs ih =>
    match split with
    | [] | [_] => exact ⟨rfl, h⟩
    | start :: stop :: split =>
      obtain ⟨hid, hchild⟩ := h.child X start stop
      obtain ⟨hids, hchildren⟩ := ih hchild (stop :: split)
      exact ⟨congrArg₂ List.cons hid hids, hchildren⟩

theorem alternatives (rule : RuleId) (rhs : List (Symbol T N)) (splits : List (List Nat)) :
    SameResult (Agrees base base') (growth.alternatives base rule rhs splits)
      (growth'.alternatives base' rule rhs splits) := by
  induction splits generalizing growth growth' with
  | nil => exact ⟨rfl, h⟩
  | cons split splits ih =>
    obtain ⟨hids, hchildren⟩ := h.children rhs split
    obtain ⟨hothers, hrest⟩ := ih hchildren
    exact ⟨congrArg₂ (fun ids as => Alternative.mk rule ids :: as) hids hothers, hrest⟩

theorem addSplits (id : NodeId) (rule : RuleId) (rhs : List (Symbol T N))
    (splits : List (List Nat)) :
    (growth.addSplits base id rule rhs splits).Agrees base base'
      (growth'.addSplits base' id rule rhs splits) := by
  obtain ⟨has, hrest⟩ := h.alternatives rule rhs splits
  simp only [Growth.addSplits, has]
  exact ⟨hrest.arena.pushAlternatives id _, hrest.pending_eq⟩

variable [DecidableEq T] [DecidableEq N] {g : Grammar T N} {n : Nat}

/-- The alternatives of a node are the same in both forests. -/
theorem expand (chart : Chart g n) (origins : N → Nat → Std.ExtTreeSet Nat) (kinds : Array T)
    (node : PendingNode N) :
    (growth.expand chart origins kinds base node).Agrees base base'
      (growth'.expand chart origins kinds base' node) := by
  unfold Growth.expand
  refine List.foldl_rel h fun rule _ growth growth' h => ?_
  split
  · exact h
  · split
    · exact h.addSplits node.id rule _ _
    · exact h

/-- The forests agree when the nodes that waited in both have their alternatives. -/
theorem run (chart : Chart g n) (origins : N → Nat → Std.ExtTreeSet Nat) (kinds : Array T)
    (fuel : Nat) :
    (run chart origins kinds base fuel growth).Agrees base base'
      (run chart origins kinds base' fuel growth') := by
  induction fuel generalizing growth growth' with
  | zero => exact h
  | succ fuel ih =>
    have hpending := h.pending_eq
    unfold Growth.run
    cases hp : growth.pending with
    | nil =>
      rw [hp] at hpending
      simpa only [← hpending] using h
    | cons node pending =>
      rw [hp] at hpending
      simp only [← hpending]
      have hrest : Agrees base base' ⟨growth.arena, pending⟩ ⟨growth'.arena, pending⟩ :=
        ⟨h.arena, rfl⟩
      exact ih (hrest.expand chart origins kinds node)

end Agrees

end Growth

/-- The forests of one chart agree, wherever its tokens begin. -/
theorem Forest.agrees_ofChart [DecidableEq T] [DecidableEq N] {g : Grammar T N} {kinds : List T}
    (chart : Chart g kinds.length) (start : N) {tokens tokens' : Array (Token T)}
    (hkinds : ∀ k : Nat,
      tokens[base + k]?.map Token.kind = tokens'[base' + k]?.map Token.kind) :
    (ofChart tokens base kinds chart start).Agrees (ofChart tokens' base' kinds chart start)
      base base' := by
  have hgrow : (chart.grow base kinds start).Agrees base base' (chart.grow base' kinds start) := by
    have hempty : ({} : Arena N).Agrees base base' {} := .empty
    obtain ⟨hroot, harena⟩ := hempty.nonterminal start 0 kinds.length
    unfold Chart.grow
    apply Growth.Agrees.run
    exact ⟨harena, congrArg (fun root => [PendingNode.mk root.1 start 0 kinds.length]) hroot⟩
  exact ⟨hgrow.arena.size_eq, hgrow.arena.node, rfl, rfl, hkinds⟩

end EarleyForest
