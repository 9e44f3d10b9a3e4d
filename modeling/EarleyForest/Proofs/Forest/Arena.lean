import EarleyForest.Forest.OfChart

/-!
# Arenas

The tables of an arena find exactly its nodes (`Arena.IsIndexed`), so that each is made once. Asking
for a node gives the one that is there or puts a new one behind all others (`Growth.child_cases`);
nodes never change otherwise than by getting alternatives (`Keeps`). With nodes made in this way a
right-hand side can be laid over a range of tokens (`Tiles`). Nodes of two arenas match when they
stand for the same symbol over ranges of which one is the other moved along (`Node.Matches`).
-/

namespace EarleyForest

variable {T N : Type}

namespace Node

variable {node : Node N} {added more : List Alternative}

theorem append_nil (node : Node N) : node.append [] = node := by
  cases node <;> simp [append]

theorem append_append : (node.append added).append more = node.append (added ++ more) := by
  cases node <;> simp [append]

theorem mem_alternatives_append {a : Alternative} (h : a ∈ node.alternatives) :
    a ∈ (node.append added).alternatives := by
  cases node with
  | terminal => cases h
  | nonterminal => exact List.mem_append_left added h

theorem append_eq_terminal_iff {token : Nat} :
    node.append added = terminal token ↔ node = terminal token := by
  cases node <;> simp [append]

theorem append_eq_nonterminal_iff {A : N} {i j : Nat} {alternatives : List Alternative} :
    node.append added = nonterminal A i j alternatives ↔
      ∃ old, node = nonterminal A i j old ∧ alternatives = old ++ added := by
  cases node with
  | terminal => simp [append]
  | nonterminal =>
    simp only [append, nonterminal.injEq]
    grind

end Node

/-! ## Nodes that match -/

/-- The nodes stand for the same symbol. What the first counts from `base` the second counts from
`base'`. Their alternatives are related by `R`. -/
inductive Node.Matches (base base' : Nat) (R : List Alternative → List Alternative → Prop) :
    Node N → Node N → Prop where
  | terminal (k : Nat) : Matches base base' R (.terminal (base + k)) (.terminal (base' + k))
  | nonterminal (A : N) (i j : Nat) {as as' : List Alternative} (h : R as as') :
    Matches base base' R (.nonterminal A (base + i) (base + j) as)
      (.nonterminal A (base' + i) (base' + j) as')

theorem Node.Matches.alternatives {base base' : Nat}
    {R : List Alternative → List Alternative → Prop} {node node' : Node N}
    (h : node.Matches base base' R node') (hnil : R [] []) :
    R node.alternatives node'.alternatives := by
  cases h with
  | terminal => exact hnil
  | nonterminal A i j h => exact h

/-! ## Nodes that stay -/

/-- All nodes are still there, perhaps with more alternatives. -/
def Keeps (nodes nodes' : Array (Node N)) : Prop :=
  ∀ (id : NodeId) (node : Node N), nodes[id]? = some node →
    ∃ added, nodes'[id]? = some (node.append added)

namespace Keeps

variable {nodes nodes' nodes'' : Array (Node N)} {id : NodeId}

theorem refl (nodes : Array (Node N)) : Keeps nodes nodes :=
  fun _ node h => ⟨[], by rw [h, node.append_nil]⟩

theorem trans (h : Keeps nodes nodes') (h' : Keeps nodes' nodes'') : Keeps nodes nodes'' := by
  intro id node hn
  obtain ⟨added, hn⟩ := h id node hn
  obtain ⟨more, hn⟩ := h' id _ hn
  exact ⟨added ++ more, by rw [hn, Node.append_append]⟩

theorem size_le (h : Keeps nodes nodes') : nodes.size ≤ nodes'.size := by
  refine Nat.le_of_not_lt fun hlt => ?_
  obtain ⟨_, hn⟩ := h _ _ (Array.getElem?_eq_getElem hlt)
  rw [Array.getElem?_eq_none (Nat.le_refl _)] at hn
  cases hn

theorem terminal {token : Nat} (h : Keeps nodes nodes')
    (hn : nodes[id]? = some (.terminal token)) : nodes'[id]? = some (.terminal token) := by
  obtain ⟨_, hn⟩ := h id _ hn
  exact hn

theorem nonterminal {A : N} {i j : Nat} {alternatives : List Alternative} (h : Keeps nodes nodes')
    (hn : nodes[id]? = some (.nonterminal A i j alternatives)) :
    ∃ added, nodes'[id]? = some (.nonterminal A i j (alternatives ++ added)) := by
  obtain ⟨added, hn⟩ := h id _ hn
  exact ⟨added, hn⟩

end Keeps

/-! ## Ranges laid out with nodes -/

/-- The nodes `ids` stand for the symbols one for one. Their ranges lead from `i` to `k` without a
gap; `bounds` are the boundaries. -/
inductive Tiles (nodes : Array (Node N)) (tokens : Array (Token T)) :
    List (Symbol T N) → List NodeId → List Nat → Nat → Nat → Prop where
  | nil (i : Nat) : Tiles nodes tokens [] [] [i] i i
  | terminal {Xs : List (Symbol T N)} {id : NodeId} {ids : List NodeId} {bounds : List Nat}
    {t : Token T} {i k : Nat} (h : nodes[id]? = some (.terminal i)) (ht : tokens[i]? = some t)
    (hs : Tiles nodes tokens Xs ids bounds (i + 1) k) :
    Tiles nodes tokens (.terminal t.kind :: Xs) (id :: ids) (i :: bounds) i k
  | nonterminal {A : N} {Xs : List (Symbol T N)} {id : NodeId} {ids : List NodeId}
    {bounds : List Nat} {alternatives : List Alternative} {i j k : Nat}
    (h : nodes[id]? = some (.nonterminal A i j alternatives)) (hij : i ≤ j)
    (hs : Tiles nodes tokens Xs ids bounds j k) :
    Tiles nodes tokens (.nonterminal A :: Xs) (id :: ids) (i :: bounds) i k

theorem Tiles.mono {nodes nodes' : Array (Node N)} {tokens : Array (Token T)}
    {Xs : List (Symbol T N)} {ids : List NodeId} {bounds : List Nat} {i k : Nat}
    (h : Tiles nodes tokens Xs ids bounds i k) (hk : Keeps nodes nodes') :
    Tiles nodes' tokens Xs ids bounds i k := by
  induction h with
  | nil i => exact .nil i
  | terminal h ht _ ih => exact .terminal (hk.terminal h) ht ih
  | nonterminal h hij _ ih =>
    obtain ⟨_, h⟩ := hk.nonterminal h
    exact .nonterminal h hij ih

/-! ## Tables that find the nodes -/

variable [SearchKey N]

theorem NodeKey.compare_eq_iff {a b : NodeKey N} : a.compare b = .eq ↔ a = b :=
  Std.LawfulEqCmp.compare_eq_iff_eq

/-- The tables of the arena find its nodes and nothing else. -/
structure Arena.IsIndexed (arena : Arena N) : Prop where
  find?_iff : ∀ {A : N} {i j : Nat} {id : NodeId}, arena.find? A i j = some id ↔
    ∃ alternatives, arena.nodes[id]? = some (.nonterminal A i j alternatives)
  leaves_iff : ∀ {token : Nat} {id : NodeId}, arena.leaves[token]? = some id ↔
    arena.nodes[id]? = some (.terminal token)

namespace Arena

theorem isIndexed_empty : ({} : Arena N).IsIndexed := ⟨by simp [find?], by simp⟩

variable {arena : Arena N} {id : NodeId} {A : N} {i j token : Nat}

omit [SearchKey N] in
theorem getElem?_push_eq_some_iff {nodes : Array (Node N)} {new node : Node N} :
    (nodes.push new)[id]? = some node ↔
      nodes[id]? = some node ∨ id = nodes.size ∧ new = node := by
  rw [Array.getElem?_push]
  split
  · subst id
    simp
  · simp [*]

/-- Asking for the node of a token gives the one that is there or makes one. -/
theorem terminal_cases (h : arena.IsIndexed) (token : Nat) :
    arena.nodes[(arena.terminal token).1]? = some (.terminal token) ∧
        (arena.terminal token).2 = arena ∨
      (arena.terminal token).1 = arena.nodes.size ∧ (arena.terminal token).2.IsIndexed ∧
        (arena.terminal token).2.nodes = arena.nodes.push (.terminal token) ∧
        (arena.terminal token).2.keys = arena.keys := by
  unfold terminal
  split
  · rename_i id hid
    exact .inl ⟨h.leaves_iff.1 hid, rfl⟩
  · rename_i hnone
    refine .inr ⟨rfl, ⟨fun {A i j id} => ?_, fun {token' id} => ?_⟩, rfl, rfl⟩
    · simp only [getElem?_push_eq_some_iff]
      exact h.find?_iff.trans (by simp)
    · simp only [getElem?_push_eq_some_iff, Std.TreeMap.getElem?_insert,
        Std.LawfulEqCmp.compare_eq_iff_eq, Node.terminal.injEq, ← h.leaves_iff]
      split
      · subst token'
        simp [hnone, eq_comm]
      · simp [*]

/-- Asking for the node of a nonterminal over a range gives the one that is there or makes one. -/
theorem nonterminal_cases (h : arena.IsIndexed) (A : N) (i j : Nat) :
    (∃ id alternatives, arena.nonterminal A i j = ((id, false), arena) ∧
        arena.nodes[id]? = some (.nonterminal A i j alternatives)) ∨
      (arena.nonterminal A i j).1 = (arena.nodes.size, true) ∧
        (arena.nonterminal A i j).2.IsIndexed ∧
        (arena.nonterminal A i j).2.nodes = arena.nodes.push (.nonterminal A i j []) ∧
        (arena.nonterminal A i j).2.keys.size = arena.keys.size + 1 := by
  unfold nonterminal
  split
  · rename_i id hid
    obtain ⟨alternatives, hn⟩ := h.find?_iff.1 hid
    exact .inl ⟨id, alternatives, rfl, hn⟩
  · rename_i hnone
    refine .inr ⟨rfl, ⟨fun {A' i' j' id} => ?_, fun {token id} => ?_⟩, rfl, ?_⟩
    · have hfind : arena.find? A' i' j' = some id ↔ _ := h.find?_iff
      unfold find? at hnone hfind ⊢
      simp only [getElem?_push_eq_some_iff, Std.TreeMap.getElem?_insert,
        Node.nonterminal.injEq]
      split
      · rename_i hkey
        cases NodeKey.compare_eq_iff.1 hkey
        rw [hnone] at hfind
        simp only [reduceCtorEq, false_iff, not_exists] at hfind
        simp [hfind, eq_comm]
      · rename_i hkey
        rw [hfind]
        refine exists_congr fun alternatives => (or_iff_left ?_).symm
        intro hx
        obtain ⟨-, rfl, rfl, rfl, -⟩ := hx
        exact hkey (NodeKey.compare_eq_iff.2 rfl)
    · simp only [getElem?_push_eq_some_iff]
      exact h.leaves_iff.trans (by simp)
    · have hmem : arena.keys.contains ⟨A, i, j⟩ = false := by
        rw [Std.TreeMap.contains_eq_isSome_getElem?, show arena.keys[_]? = none from hnone]
        rfl
      simp [Std.TreeMap.size_insert, hmem]

theorem getElem?_pushAlternatives {added : List Alternative} {id' : NodeId} :
    (arena.pushAlternatives id added).nodes[id']? =
      if id = id' then arena.nodes[id']?.map (·.append added) else arena.nodes[id']? :=
  Array.getElem?_modify

theorem keeps_pushAlternatives (arena : Arena N) (id : NodeId) (added : List Alternative) :
    Keeps arena.nodes (arena.pushAlternatives id added).nodes := by
  intro id' node hn
  rw [getElem?_pushAlternatives]
  split
  · exact ⟨added, by rw [hn, Option.map_some]⟩
  · exact ⟨[], by rw [hn, node.append_nil]⟩

theorem size_pushAlternatives (arena : Arena N) (id : NodeId) (added : List Alternative) :
    (arena.pushAlternatives id added).nodes.size = arena.nodes.size :=
  Array.size_modify

theorem pushAlternatives_nil (arena : Arena N) (id : NodeId) :
    arena.pushAlternatives id [] = arena := by
  have hnodes : (arena.pushAlternatives id []).nodes = arena.nodes := by
    refine Array.ext_getElem? fun id' => ?_
    rw [getElem?_pushAlternatives]
    simp [Node.append_nil]
  exact congrArg (Arena.mk · arena.keys arena.leaves) hnodes

/-- Alternatives leave the tables as they are. -/
theorem IsIndexed.pushAlternatives (h : arena.IsIndexed) (id : NodeId)
    (added : List Alternative) : (arena.pushAlternatives id added).IsIndexed where
  find?_iff {A i j id'} := by
    refine (show _ ↔ arena.find? A i j = some id' from Iff.rfl).trans (h.find?_iff.trans ?_)
    rw [getElem?_pushAlternatives]
    split
    · cases arena.nodes[id']? with
      | none => simp
      | some node =>
        simp only [Option.map_some, Option.some.injEq, Node.append_eq_nonterminal_iff]
        constructor
        · intro hx
          obtain ⟨old, rfl⟩ := hx
          exact ⟨_, old, rfl, rfl⟩
        · intro hx
          obtain ⟨_, old, rfl, -⟩ := hx
          exact ⟨old, rfl⟩
    · rfl
  leaves_iff {token id'} := by
    refine (show _ ↔ arena.leaves[token]? = some id' from Iff.rfl).trans (h.leaves_iff.trans ?_)
    rw [getElem?_pushAlternatives]
    split
    · simp [Node.append_eq_terminal_iff]
    · rfl

/-- There are not more keys than left-hand sides and ranges. -/
theorem IsIndexed.keys_size_le [DecidableEq N] (h : arena.IsIndexed) {g : Grammar T N}
    (base n : Nat) (hn : ∀ {id : NodeId} {A : N} {s t : Nat} {alternatives : List Alternative},
      arena.nodes[id]? = some (.nonterminal A s t alternatives) →
        (∃ r ∈ g.rules, r.lhs = A) ∧ ∃ i j, s = base + i ∧ t = base + j ∧ i ≤ n ∧ j ≤ n) :
    arena.keys.size ≤ g.rules.size * (n + 1) * (n + 1) := by
  let ranges := List.range (n + 1)
  let all : List (NodeKey N) := g.rules.toList.flatMap fun r => ranges.flatMap fun i =>
    ranges.map fun j => ⟨r.lhs, base + i, base + j⟩
  have hall : all.length = g.rules.size * (n + 1) * (n + 1) := by
    simp [all, ranges, List.length_flatMap, List.map_const', Nat.mul_assoc]
  have hnodup : arena.keys.keys.Nodup :=
    Std.TreeMap.distinct_keys.imp fun h heq => h (NodeKey.compare_eq_iff.2 heq)
  rw [← hall, ← Std.TreeMap.length_keys]
  refine hnodup.length_le_of_subset fun key hkey => ?_
  obtain ⟨A, s, t⟩ := key
  obtain ⟨id, hid⟩ : ∃ id, arena.find? A s t = some id := by
    rw [Std.TreeMap.mem_keys] at hkey
    exact ⟨_, Std.TreeMap.getElem?_eq_some_getElem hkey⟩
  obtain ⟨alternatives, hnode⟩ := h.find?_iff.1 hid
  obtain ⟨⟨r, hr, rfl⟩, i, j, rfl, rfl, hi, hj⟩ := hn hnode
  exact List.mem_flatMap.2 ⟨r, Array.mem_toList_iff.2 hr, List.mem_flatMap.2
    ⟨i, List.mem_range.2 (Nat.lt_succ_of_le hi),
      List.mem_map.2 ⟨j, List.mem_range.2 (Nat.lt_succ_of_le hj), rfl⟩⟩⟩

end Arena

end EarleyForest
