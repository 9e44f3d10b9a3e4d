import EarleyForest.Proofs.Forest.Arena

/-!
# Growth without regard to the input

What asking for nodes does to a forest that grows, whatever the nodes are asked for. A node that was
not there comes behind all others and, unless it stands for a token, has to wait
(`Growth.child_cases`). The nodes that were there stay as they are, and there are as many keys more
as there are waiting nodes more (`Growth.Grows`). All new nodes are among those that were asked for
(`mem_children_of_size_le`), so each becomes the child of a node that is older than itself.
-/

namespace EarleyForest

variable {T N : Type} [SearchKey N]

namespace Growth

variable {growth growth' growth'' : Growth N} {base i j : Nat} {X : Symbol T N} {id : NodeId}

/-- The node that is made for `X` from `i` to `j`. -/
def newNode (base : Nat) : Symbol T N → Nat → Nat → Node N
  | .terminal _, i, _ => .terminal (base + i)
  | .nonterminal A, i, j => .nonterminal A (base + i) (base + j) []

/-- What has to wait when the node `id` is made for `X` from `i` to `j`. -/
def newPending (id : NodeId) : Symbol T N → Nat → Nat → List (PendingNode N)
  | .terminal _, _, _ => []
  | .nonterminal A, i, j => [⟨id, A, i, j⟩]

/-- The node that is asked for is there, and nothing changes, or it is made behind all others. -/
theorem child_cases (h : growth.arena.IsIndexed) (base : Nat) (X : Symbol T N) (i j : Nat) :
    (∃ old, growth.arena.nodes[(growth.child base X i j).1]? =
          some ((newNode base X i j).append old)) ∧ (growth.child base X i j).2 = growth ∨
      (growth.child base X i j).1 = growth.arena.nodes.size ∧
        (growth.child base X i j).2.arena.IsIndexed ∧
        (growth.child base X i j).2.arena.nodes =
          growth.arena.nodes.push (newNode base X i j) ∧
        (growth.child base X i j).2.pending =
          newPending growth.arena.nodes.size X i j ++ growth.pending ∧
        (growth.child base X i j).2.arena.keys.size =
          growth.arena.keys.size + (newPending growth.arena.nodes.size X i j).length := by
  cases X with
  | terminal kind =>
    rcases Arena.terminal_cases h (base + i) with ⟨hn, hsame⟩ | ⟨hid, hidx, hnodes, hkeys⟩
    · exact .inl ⟨⟨[], hn⟩, by simp only [child, hsame]⟩
    · exact .inr ⟨hid, hidx, hnodes, rfl, congrArg _ hkeys⟩
  | nonterminal A =>
    rcases Arena.nonterminal_cases h A (base + i) (base + j) with
      ⟨id, alternatives, heq, hn⟩ | ⟨hid, hidx, hnodes, hkeys⟩
    · refine .inl ⟨⟨alternatives, ?_⟩, by simp [child, heq]⟩
      simpa [child, heq, newNode, Node.append] using hn
    · refine .inr ⟨?_, hidx, hnodes, ?_, hkeys⟩
      · simp [child, hid]
      · simp [child, hid, newPending]

theorem exists_child (h : growth.arena.IsIndexed) (base : Nat) (X : Symbol T N) (i j : Nat) :
    ∃ old, (growth.child base X i j).2.arena.nodes[(growth.child base X i j).1]? =
      some ((newNode base X i j).append old) := by
  rcases child_cases h base X i j with ⟨hold, hsame⟩ | ⟨hid, -, hnodes, -⟩
  · rwa [hsame]
  · exact ⟨[], by rw [hnodes, hid, Array.getElem?_push_size, Node.append_nil]⟩

/-! ## What stays -/

/-- The nodes stay as they are, and as many keys come in as nodes have to wait. -/
structure Grows (growth growth' : Growth N) : Prop where
  indexed : growth'.arena.IsIndexed
  nodes : ∀ (id : NodeId) (node : Node N), growth.arena.nodes[id]? = some node →
    growth'.arena.nodes[id]? = some node
  balance : growth'.arena.keys.size + growth.pending.length =
    growth.arena.keys.size + growth'.pending.length

theorem Grows.refl (h : growth.arena.IsIndexed) : Grows growth growth := ⟨h, fun _ _ hn => hn, rfl⟩

theorem Grows.trans (h : Grows growth growth') (h' : Grows growth' growth'') :
    Grows growth growth'' where
  indexed := h'.indexed
  nodes id node hn := h'.nodes id node (h.nodes id node hn)
  balance := by
    have := h.balance
    have := h'.balance
    omega

theorem Grows.keeps (h : Grows growth growth') : Keeps growth.arena.nodes growth'.arena.nodes :=
  fun id node hn => ⟨[], by rw [h.nodes id node hn, node.append_nil]⟩

theorem grows_child (h : growth.arena.IsIndexed) (base : Nat) (X : Symbol T N) (i j : Nat) :
    Grows growth (growth.child base X i j).2 := by
  rcases child_cases h base X i j with ⟨-, hsame⟩ | ⟨-, hidx, hnodes, hpending, hkeys⟩
  · rw [hsame]
    exact .refl h
  · refine ⟨hidx, fun id node hn => ?_, ?_⟩
    · rw [hnodes]
      exact Arena.getElem?_push_eq_some_iff.2 (.inl hn)
    · rw [hkeys, hpending, List.length_append]
      omega

theorem grows_children (h : growth.arena.IsIndexed) (base : Nat) (rhs : List (Symbol T N))
    (split : List Nat) : Grows growth (growth.children base rhs split).2 := by
  induction rhs generalizing growth split with
  | nil => exact .refl h
  | cons X rhs ih =>
    match split with
    | [] | [_] => exact .refl h
    | start :: stop :: split =>
      have hchild := grows_child h base X start stop
      exact hchild.trans (ih hchild.indexed _)

theorem grows_alternatives (h : growth.arena.IsIndexed) (base : Nat) (rule : RuleId)
    (rhs : List (Symbol T N)) (splits : List (List Nat)) :
    Grows growth (growth.alternatives base rule rhs splits).2 := by
  induction splits generalizing growth with
  | nil => exact .refl h
  | cons split splits ih =>
    have hchildren := grows_children h base rhs split
    exact hchildren.trans (ih hchildren.indexed)

/-! ## What is new -/

theorem eq_child_of_size_le (h : growth.arena.IsIndexed) (hid : growth.arena.nodes.size ≤ id)
    (hlt : id < (growth.child base X i j).2.arena.nodes.size) :
    id = (growth.child base X i j).1 := by
  rcases child_cases h base X i j with ⟨-, hsame⟩ | ⟨hnew, -, hnodes, -⟩
  · rw [hsame] at hlt
    exact absurd hlt (Nat.not_lt_of_le hid)
  · rw [hnodes, Array.size_push] at hlt
    exact (Nat.le_antisymm (Nat.le_of_lt_succ hlt) hid).trans hnew.symm

theorem mem_children_of_size_le (h : growth.arena.IsIndexed) {rhs : List (Symbol T N)}
    {split : List Nat} (hid : growth.arena.nodes.size ≤ id)
    (hlt : id < (growth.children base rhs split).2.arena.nodes.size) :
    id ∈ (growth.children base rhs split).1 := by
  induction rhs generalizing growth split with
  | nil => exact absurd hlt (Nat.not_lt_of_le hid)
  | cons X rhs ih =>
    match split with
    | [] | [_] => exact absurd hlt (Nat.not_lt_of_le hid)
    | start :: stop :: split =>
      have hchild := grows_child h base X start stop
      rcases Nat.lt_or_ge id (growth.child base X start stop).2.arena.nodes.size with hlt' | hge
      · exact List.mem_cons.2 (.inl (eq_child_of_size_le h hid hlt'))
      · exact List.mem_cons.2 (.inr (ih hchild.indexed hge hlt))

theorem mem_alternatives_of_size_le (h : growth.arena.IsIndexed) {rule : RuleId}
    {rhs : List (Symbol T N)} {splits : List (List Nat)} (hid : growth.arena.nodes.size ≤ id)
    (hlt : id < (growth.alternatives base rule rhs splits).2.arena.nodes.size) :
    ∃ a ∈ (growth.alternatives base rule rhs splits).1, id ∈ a.children := by
  induction splits generalizing growth with
  | nil => exact absurd hlt (Nat.not_lt_of_le hid)
  | cons split splits ih =>
    have hchildren := grows_children h base rhs split
    rcases Nat.lt_or_ge id (growth.children base rhs split).2.arena.nodes.size with hlt' | hge
    · exact ⟨_, List.mem_cons_self, mem_children_of_size_le h hid hlt'⟩
    · obtain ⟨a, ha, hmem⟩ := ih hchildren.indexed hge hlt
      exact ⟨a, List.mem_cons_of_mem _ ha, hmem⟩

/-! ## Nodes below a node -/

/-- Every node but the first is the child of one that is older. -/
def IsRooted (nodes : Array (Node N)) : Prop :=
  ∀ id, 0 < id → id < nodes.size →
    ∃ parent < id, ∃ node, nodes[parent]? = some node ∧ ∃ a ∈ node.alternatives, id ∈ a.children

/-- What becomes of a forest that grows below the node `x`: the nodes stay, as many keys come in as
nodes have to wait, and new nodes are children of older ones. -/
structure GrowsBelow (x : NodeId) (growth growth' : Growth N) : Prop where
  indexed : growth'.arena.IsIndexed
  keeps : Keeps growth.arena.nodes growth'.arena.nodes
  balance : growth'.arena.keys.size + growth.pending.length =
    growth.arena.keys.size + growth'.pending.length
  rooted : ∀ {A : N} {i j : Nat} {alternatives : List Alternative},
    growth.arena.nodes[x]? = some (.nonterminal A i j alternatives) →
      IsRooted growth.arena.nodes → IsRooted growth'.arena.nodes

theorem GrowsBelow.refl {x : NodeId} (h : growth.arena.IsIndexed) : GrowsBelow x growth growth :=
  ⟨h, .refl _, rfl, fun _ hr => hr⟩

theorem GrowsBelow.trans {x : NodeId} (h : GrowsBelow x growth growth')
    (h' : GrowsBelow x growth' growth'') : GrowsBelow x growth growth'' where
  indexed := h'.indexed
  keeps := h.keeps.trans h'.keeps
  balance := by
    have := h.balance
    have := h'.balance
    omega
  rooted hx hr := by
    obtain ⟨_, hx'⟩ := h.keeps.nonterminal hx
    exact h'.rooted hx' (h.rooted hx hr)

theorem growsBelow_addSplits (h : growth.arena.IsIndexed) (base : Nat) (x : NodeId) (rule : RuleId)
    (rhs : List (Symbol T N)) (splits : List (List Nat)) :
    GrowsBelow x growth (growth.addSplits base x rule rhs splits) := by
  have hgrows := grows_alternatives h base rule rhs splits
  have hpush := Arena.keeps_pushAlternatives (growth.alternatives base rule rhs splits).2.arena x
    (growth.alternatives base rule rhs splits).1
  refine ⟨hgrows.indexed.pushAlternatives x _, hgrows.keeps.trans hpush, hgrows.balance,
    fun {A i j alternatives} hx hr id hpos hlt => ?_⟩
  rcases Nat.lt_or_ge id growth.arena.nodes.size with hold | hnew
  · obtain ⟨parent, hp, node, hn, a, ha, hmem⟩ := hr id hpos hold
    obtain ⟨added, hn'⟩ := (hgrows.keeps.trans hpush) _ _ hn
    exact ⟨parent, hp, _, hn', a, Node.mem_alternatives_append ha, hmem⟩
  · have hlt' : id < (growth.alternatives base rule rhs splits).2.arena.nodes.size :=
      Nat.lt_of_lt_of_eq hlt (Arena.size_pushAlternatives ..)
    obtain ⟨a, ha, hmem⟩ := mem_alternatives_of_size_le h hnew hlt'
    have hx' : (growth.addSplits base x rule rhs splits).arena.nodes[x]? = some (.nonterminal A i j
        (alternatives ++ (growth.alternatives base rule rhs splits).1)) := by
      show (Arena.pushAlternatives _ _ _).nodes[x]? = _
      rw [Arena.getElem?_pushAlternatives, if_pos rfl, hgrows.nodes _ _ hx, Option.map_some,
        Node.append]
    have hxlt := (Array.getElem?_eq_some_iff.1 hx).1
    exact ⟨x, Nat.lt_of_lt_of_le hxlt hnew, _, hx', a, List.mem_append_right _ ha, hmem⟩

end Growth

end EarleyForest
