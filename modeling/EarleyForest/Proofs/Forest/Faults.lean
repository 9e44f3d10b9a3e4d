import EarleyForest.Proofs.Forest.Pricing

/-!
# What is at fault when a forest cannot be priced

While the prices are worked out, the path of the walk holds each node once, so it never gets longer
than there are nodes and the walk has levels enough (`IsWalking.exists_depth`). If it fails, it has
met a node of the path, which then lies below itself, or a nonterminal without alternatives whose
turn it was (`isFault_of_price`). Sound forests have neither, so they have prices
(`Sound.exists_price`).
-/

namespace EarleyForest

variable {T N : Type} [DecidableEq N] [SearchKey N] {g : Grammar T N} {f : Forest g}

theorem mem_insert_iff {path : Std.TreeSet NodeId} {id above : NodeId} :
    above ∈ path.insert id ↔ above = id ∨ above ∈ path := by
  rw [Std.TreeSet.mem_insert, Std.LawfulEqCmp.compare_eq_iff_eq, eq_comm]

/-- Nodes below `n` that do not include all of them are less than `n` many. -/
theorem size_lt_of_not_mem {path : Std.TreeSet NodeId} {n id : Nat}
    (hpath : ∀ above ∈ path, above < n) (hid : id < n) (hnot : id ∉ path) : path.size < n := by
  have hnodup : (path.insert id).toList.Nodup :=
    Std.TreeSet.distinct_toList.imp fun h heq => h (Std.LawfulEqCmp.compare_eq_iff_eq.2 heq)
  have hsub : (path.insert id).toList ⊆ List.range n := by
    intro above habove
    rw [Std.TreeSet.mem_toList, mem_insert_iff] at habove
    rw [List.mem_range]
    rcases habove with rfl | habove
    · exact hid
    · exact hpath above habove
  have hle := hnodup.length_le_of_subset hsub
  rwa [Std.TreeSet.length_toList, Std.TreeSet.size_insert, if_neg (by simpa using hnot),
    List.length_range] at hle

namespace Forest

/-- An error that names what makes it impossible to price a forest. -/
inductive IsFault (f : Forest g) : ForestError N → Prop where
  /-- A nonterminal without a way to derive it. -/
  | noAlternatives {id : NodeId} {A : N} {i j : Nat}
    (hn : f.node? id = some (.nonterminal A i j [])) :
    IsFault f (.noAlternatives ⟨id, some A, i, j⟩)
  /-- A node that one of its children leads back to. -/
  | cycle {id child : NodeId} {A : N} {i j : Nat} {as : List Alternative}
    (hn : f.node? id = some (.nonterminal A i j as)) (hc : child ∈ f.children id)
    (h : f.Reaches child id) : IsFault f (.cycle ⟨id, some A, i, j⟩)

variable {depth : Nat} {path : Std.TreeSet NodeId} {table table' : Array (Option Price)}
  {id child : NodeId} {e : ForestError N}

theorem IsFault.of_reaches (hc : child ∈ f.children id) (h : f.Reaches child id) :
    f.IsFault (.cycle (f.site id)) := by
  cases hn : f.node? id with
  | none => simp [children, alternatives, hn] at hc
  | some node =>
    cases node with
    | terminal => simp [children, alternatives, hn, Node.alternatives] at hc
    | nonterminal A i j as =>
      rw [site, hn]
      exact .cycle hn hc h

/-! ## The path of the walk -/

/-- The walk may go `depth` levels further down from `path`. The nodes on it have no price yet. -/
structure IsWalking (f : Forest g) (depth : Nat) (path : Std.TreeSet NodeId)
    (table : Array (Option Price)) : Prop where
  partly : f.IsPartlyPriced table
  lt_size : ∀ above ∈ path, above < f.size
  unpriced : ∀ above ∈ path, table[above]?.join = none
  size_le : f.size ≤ path.size + depth

/-- The walk has come from `path` to the node `id`, which is not on it. -/
structure IsNext (f : Forest g) (path : Std.TreeSet NodeId) (id : NodeId) : Prop where
  lt_size : id < f.size
  not_mem : id ∉ path
  reaches : ∀ above ∈ path, f.Reaches above id

theorem isWalking_replicate (f : Forest g) :
    f.IsWalking f.size {} (Array.replicate f.size none) :=
  ⟨f.isPartlyPriced_replicate, fun _ h => absurd h Std.TreeSet.not_mem_emptyc,
    fun _ h => absurd h Std.TreeSet.not_mem_emptyc, Nat.le_add_left _ _⟩

theorem isNext_empty (hid : id < f.size) : f.IsNext {} id :=
  ⟨hid, Std.TreeSet.not_mem_emptyc, fun _ h => absurd h Std.TreeSet.not_mem_emptyc⟩

/-- The walk has a level left for each node that it comes to. -/
theorem IsWalking.exists_depth (hw : f.IsWalking depth path table) (hid : f.IsNext path id) :
    ∃ d, depth = d + 1 := by
  have hlt := size_lt_of_not_mem hw.lt_size hid.lt_size hid.not_mem
  exact Nat.exists_eq_succ_of_ne_zero (by have := hw.size_le; omega)

theorem IsWalking.insert (hw : f.IsWalking (depth + 1) path table) (hid : f.IsNext path id)
    (hnone : table[id]?.join = none) : f.IsWalking depth (path.insert id) table where
  partly := hw.partly
  lt_size above h := by
    rcases mem_insert_iff.1 h with rfl | h
    · exact hid.lt_size
    · exact hw.lt_size above h
  unpriced above h := by
    rcases mem_insert_iff.1 h with rfl | h
    · exact hnone
    · exact hw.unpriced above h
  size_le := by
    have := hw.size_le
    rw [Std.TreeSet.size_insert, if_neg (by simpa using hid.not_mem)]
    omega

theorem IsNext.reaches_of_mem_insert (hid : f.IsNext path id) {above : NodeId}
    (h : above ∈ path.insert id) : f.Reaches above id := by
  rcases mem_insert_iff.1 h with rfl | h
  · exact .refl _
  · exact hid.reaches above h

theorem priceFrom_of_priced {p : Price} (hp : table[id]?.join = some p) :
    f.priceFrom (depth + 1) path table id = .ok table := by
  rw [priceFrom, hp]

/-- What the walk does with a node: nothing if it has a price, and it fails if a child is on the
path. Otherwise it goes down to the children, and the node gets a price after them. -/
theorem priceFrom_succ_cases (f : Forest g) (depth : Nat) (path : Std.TreeSet NodeId)
    (table : Array (Option Price)) (id : NodeId) :
    (∃ p, table[id]?.join = some p ∧ f.priceFrom (depth + 1) path table id = .ok table) ∨
      table[id]?.join = none ∧
        ((∃ child ∈ f.children id, child ∈ path.insert id ∧
            (f.children id).reverse.find? (fun child => child ∈ path.insert id) = some child ∧
            f.priceFrom (depth + 1) path table id = .error (.cycle (f.site child))) ∨
          (∀ child ∈ f.children id, child ∉ path.insert id) ∧
            f.priceFrom (depth + 1) path table id =
              (f.children id).foldlM (f.priceFrom depth (path.insert id)) table >>= fun table =>
                f.priceNode table id >>= fun price =>
                  .ok (table.setIfInBounds id (some price))) := by
  cases hp : table[id]?.join with
  | some p => exact .inl ⟨p, rfl, priceFrom_of_priced hp⟩
  | none =>
    refine .inr ⟨rfl, ?_⟩
    rw [priceFrom, hp]
    cases hfind : (f.children id).reverse.find? (fun child => child ∈ path.insert id) with
    | some child =>
      have hmem := List.mem_reverse.1 (List.mem_of_find?_eq_some hfind)
      exact .inl ⟨child, hmem, by simpa using List.find?_some hfind, rfl,
        by dsimp only; rw [hfind]⟩
    | none =>
      refine .inr ⟨fun child hc => ?_, by dsimp only; rw [hfind]; rfl⟩
      simpa using List.find?_eq_none.1 hfind child (List.mem_reverse.2 hc)

/-! ## A walk that succeeds and one that fails -/

section

variable (hchild : ∀ id, ∀ child ∈ f.children id, child < f.size)
include hchild

theorem IsNext.of_child (hid : f.IsNext path id) (hc : child ∈ f.children id)
    (hnot : child ∉ path.insert id) : f.IsNext (path.insert id) child :=
  ⟨hchild id child hc, hnot, fun _ h => (hid.reaches_of_mem_insert h).trans (.of_child hc)⟩

/-- The walk below a node leaves the nodes above without price. -/
theorem IsWalking.of_priceFrom (hw : f.IsWalking depth path table) (hid : f.IsNext path id)
    (h : f.priceFrom depth path table id = .ok table') : f.IsWalking depth path table' := by
  induction depth generalizing path table table' id with
  | zero => cases h
  | succ depth ih =>
    obtain ⟨p, -, heq⟩ | ⟨hnone, ⟨child, -, -, -, heq⟩ | ⟨hnot, heq⟩⟩ :=
      f.priceFrom_succ_cases depth path table id
    · obtain rfl := Except.ok.inj (heq.symm.trans h)
      exact hw
    · cases heq.symm.trans h
    · obtain ⟨below, hbelow, h⟩ := bind_eq_ok_iff.1 (heq.symm.trans h)
      obtain ⟨p, hp, h⟩ := bind_eq_ok_iff.1 h
      obtain rfl := Except.ok.inj h
      have hbelow : f.IsWalking depth (path.insert id) below :=
        foldlM_invariant (I := fun _ t => f.IsWalking depth (path.insert id) t) hbelow
          (hw.insert hid hnone) fun _ child _ _ hc ht hstep =>
            ih ht (hid.of_child hchild hc (hnot child hc)) hstep
      refine ⟨(hbelow.partly.set hp).1, hw.lt_size, fun above habove => ?_, hw.size_le⟩
      rw [Array.getElem?_setIfInBounds, if_neg fun heq : id = above => hid.not_mem (heq ▸ habove)]
      exact hbelow.unpriced above (mem_insert_iff.2 (.inr habove))

/-- The walk below the children of a node gives each of them a price. -/
theorem IsWalking.of_foldlM {children : List NodeId} (hw : f.IsWalking depth path table)
    (hnext : ∀ child ∈ children, f.IsNext path child)
    (h : children.foldlM (f.priceFrom depth path) table = .ok table') :
    f.IsWalking depth path table' ∧ ∀ child ∈ children, ∃ p, table'[child]?.join = some p := by
  refine foldlM_invariant (I := fun done t => f.IsWalking depth path t ∧
    ∀ child ∈ done, ∃ p, t[child]?.join = some p) h ⟨hw, by simp⟩
    fun done child t t' hc ⟨ht, hdone⟩ hstep => ⟨ht.of_priceFrom hchild (hnext child hc) hstep, ?_⟩
  intro child' hmem
  rcases List.mem_append.1 hmem with hmem | hmem
  · obtain ⟨p, hp⟩ := hdone child' hmem
    exact ⟨p, (priceFrom_keeps hstep ht.partly).2 _ _ hp⟩
  · rw [List.mem_singleton.1 hmem]
    exact exists_price_of_priceFrom hstep ht.partly (hnext child hc).lt_size

omit hchild in
/-- A node whose children have prices can only fail to have alternatives. -/
theorem isFault_of_priceNode (hid : id < f.size)
    (hc : ∀ child ∈ f.children id, ∃ p, table[child]?.join = some p)
    (h : f.priceNode table id = .error e) : f.IsFault e := by
  obtain ⟨node, hn⟩ := exists_node hid
  cases node with
  | terminal => cases (priceNode_terminal hn).symm.trans h
  | nonterminal A i j as =>
    obtain ⟨offers, hoffers⟩ : ∃ offers, (f.alternatives id).mapM (f.offer table) = .ok offers :=
      exists_mapM fun a ha => exists_offer fun child hmem =>
        hc child (mem_children_iff.2 ⟨a, ha, hmem⟩)
    cases offers with
    | nil =>
      rw [priceNode, hn, hoffers] at h
      cases h
      rw [alternatives_eq hn, mapM_eq_ok_iff, List.forall₂_nil_right_iff] at hoffers
      rw [site, hn]
      exact .noAlternatives (hoffers ▸ hn)
    | cons offer offers =>
      cases ((priceNode_eq_ok_iff (by simp [hn])).2 ⟨offer, offers, hoffers, rfl⟩).symm.trans h

/-- A walk that fails has met a node that lies below itself, or one without alternatives. -/
theorem isFault_of_priceFrom (hw : f.IsWalking depth path table) (hid : f.IsNext path id)
    (h : f.priceFrom depth path table id = .error e) : f.IsFault e := by
  induction depth generalizing path table id with
  | zero =>
    obtain ⟨d, hd⟩ := hw.exists_depth hid
    cases hd
  | succ depth ih =>
    obtain ⟨p, -, heq⟩ | ⟨hnone, ⟨child, hc, hpath, -, heq⟩ | ⟨hnot, heq⟩⟩ :=
      f.priceFrom_succ_cases depth path table id
    · cases heq.symm.trans h
    · -- the path leads from the child to the node, and one step further back to the child
      cases heq.symm.trans h
      cases hid.reaches_of_mem_insert hpath with
      | refl => exact .of_reaches hc (.refl _)
      | step hc' hreach => exact .of_reaches hc' (hreach.trans (.of_child hc))
    · have hw' := hw.insert hid hnone
      have hnext : ∀ child ∈ f.children id, f.IsNext (path.insert id) child := fun child hc =>
        hid.of_child hchild hc (hnot child hc)
      rcases bind_eq_error_iff.1 (heq.symm.trans h) with h | ⟨below, hbelow, h⟩
      · obtain ⟨-, child, hc, t, ht, h⟩ := foldlM_fails
          (I := fun _ t => f.IsWalking depth (path.insert id) t) h hw'
          fun _ child _ _ hc ht hstep => ht.of_priceFrom hchild (hnext child hc) hstep
        exact ih ht (hnext child hc) h
      · rcases bind_eq_error_iff.1 h with h | ⟨p, -, h⟩
        · exact isFault_of_priceNode hid.lt_size (hw'.of_foldlM hchild hnext hbelow).2 h
        · cases h

/-- An error that is reported when a forest is priced names what is wrong with it. -/
theorem isFault_of_price (h : f.price = .error e) : f.IsFault e := by
  have hnext : ∀ id ∈ List.range f.size, f.IsNext {} id :=
    fun id hid => isNext_empty (List.mem_range.1 hid)
  rcases bind_eq_error_iff.1 h with h | ⟨table, htable, h⟩
  · obtain ⟨-, id, hid, t, ht, h⟩ := foldlM_fails (I := fun _ t => f.IsWalking f.size {} t) h
      f.isWalking_replicate fun _ id _ _ hid ht hstep => ht.of_priceFrom hchild (hnext id hid) hstep
    exact isFault_of_priceFrom hchild ht (hnext id hid) h
  · -- no node is left without price
    obtain ⟨hw, hpriced⟩ := f.isWalking_replicate.of_foldlM hchild hnext htable
    obtain ⟨prices, hprices⟩ : ∃ prices : List Price, table.toList = prices.map some := by
      refine exists_eq_map_some fun entry hentry => ?_
      obtain ⟨id, hid, rfl⟩ := List.mem_iff_getElem.1 hentry
      rw [Array.length_toList] at hid
      obtain ⟨p, hp⟩ := hpriced id (List.mem_range.2 (hw.partly.size_eq ▸ hid))
      rw [Array.getElem?_eq_getElem hid, Option.join_some] at hp
      exact ⟨p, by rw [Array.getElem_toList, hp]⟩
    rcases bind_eq_error_iff.1 h with h | ⟨_, -, h⟩
    · cases (zipIdx_mapM_eq_ok_iff.2 hprices).symm.trans h
    · cases h

/-- A forest without cycles and without empty nonterminals has prices. -/
theorem exists_price_of_acyclic (hacyclic : f.Acyclic)
    (hne : ∀ id A i j, f.node? id ≠ some (.nonterminal A i j [])) :
    ∃ prices, f.price = .ok prices := by
  cases h : f.price with
  | ok prices => exact ⟨prices, rfl⟩
  | error e =>
    cases isFault_of_price hchild h with
    | noAlternatives hn => exact absurd hn (hne _ _ _ _)
    | cycle hn hc hreach => exact absurd hreach (hacyclic _ _ hc)

end

theorem Sound.exists_price (hf : f.Sound) : ∃ prices, f.price = .ok prices :=
  exists_price_of_acyclic hf.child_lt hf.acyclic fun _ _ _ _ hn => hf.alternatives_ne_nil hn rfl

end Forest

end EarleyForest
