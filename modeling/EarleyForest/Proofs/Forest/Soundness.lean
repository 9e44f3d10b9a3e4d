import EarleyForest.Proofs.Forest.Faults

/-!
# Forests that can be priced

A node gets its price from those of its children: the numbers that its alternatives offer are added
up, and the first least of the costs is taken (`exists_offers_of_price`). So in a forest that can be
priced going down from a node comes to an end (`wellFounded_children_of_price`), and no nonterminal
is without alternatives. If no token is missing either, the forest is sound (`sound_of_price`).
-/

namespace EarleyForest

/-! ## The first least cost -/

/-- `least` is the least of the costs, and `k` is the first place where it stands. -/
structure IsFirstLeast (costs : List Cost) (k : Nat) (least : Cost) : Prop where
  getElem?_eq : costs[k]? = some least
  le : ∀ c ∈ costs, least ≤ c
  le_index : ∀ {j : Nat}, costs[j]? = some least → k ≤ j

theorem isFirstLeast_firstLeast (c : Cost) (cs : List Cost) :
    IsFirstLeast (c :: cs) (firstLeast c cs).1 (firstLeast c cs).2 := by
  induction cs generalizing c with
  | nil => exact ⟨rfl, by simp [firstLeast], fun _ => Nat.zero_le _⟩
  | cons d ds ih =>
    have h := ih d
    simp only [firstLeast]
    split
    · rename_i hlt
      refine ⟨h.getElem?_eq, List.forall_mem_cons.2 ⟨le_of_lt hlt, h.le⟩, fun {j} hj => ?_⟩
      cases j with
      | zero => exact absurd (Option.some.inj hj) (ne_of_gt hlt)
      | succ j => exact Nat.succ_le_succ (h.le_index hj)
    · rename_i hle
      have hc : c ≤ (firstLeast d ds).2 := not_lt.1 hle
      exact ⟨rfl, List.forall_mem_cons.2 ⟨le_refl c, fun e he => le_trans hc (h.le e he)⟩,
        fun _ => Nat.zero_le _⟩

theorem IsFirstLeast.unique {costs : List Cost} {k k' : Nat} {least least' : Cost}
    (h : IsFirstLeast costs k least) (h' : IsFirstLeast costs k' least') :
    k = k' ∧ least = least' := by
  obtain rfl : least = least' := le_antisymm (h.le _ (List.mem_of_getElem? h'.getElem?_eq))
    (h'.le _ (List.mem_of_getElem? h.getElem?_eq))
  exact ⟨Nat.le_antisymm (h.le_index h'.getElem?_eq) (h'.le_index h.getElem?_eq), rfl⟩

/-! ## What prices come from -/

variable {T N : Type} [DecidableEq N] [SearchKey N] {g : Grammar T N} {f : Forest g}

namespace Forest

variable {table : Array (Option Price)} {id child : NodeId} {A : N} {i j : Nat}
  {as : List Alternative} {p : Price} {prices : PriceTable}

/-- The children of a node that can be priced have prices. -/
theorem exists_price_of_priceNode (hp : f.priceNode table id = .ok p)
    (hc : child ∈ f.children id) : ∃ q, table[child]?.join = some q := by
  have hn : ∀ token, f.node? id ≠ some (.terminal token) := by
    intro token hn
    rw [children, alternatives_eq hn] at hc
    cases hc
  obtain ⟨offer, offers, hoffers, -⟩ := (priceNode_eq_ok_iff hn).1 hp
  obtain ⟨a, ha, hmem⟩ := mem_children_iff.1 hc
  obtain ⟨o, -, ho⟩ := exists_of_mem_left (mapM_eq_ok_iff.1 hoffers) ha
  obtain ⟨ps, hps, -⟩ := offer_eq ho
  obtain ⟨q, -, hq⟩ := exists_of_mem_left hps hmem
  exact ⟨q, hq⟩

theorem exists_node_of_price (h : f.price = .ok prices) (hp : prices[id]? = some p) :
    ∃ node, f.node? id = some node :=
  exists_node ((priceNode_of_price h).1 ▸ (Array.getElem?_eq_some_iff.1 hp).1)

theorem exists_price_of_lt (h : f.price = .ok prices) (hid : id < f.size) :
    ∃ p, prices[id]? = some p :=
  ⟨_, Array.getElem?_eq_getElem ((priceNode_of_price h).1 ▸ hid)⟩

theorem price_of_terminal (h : f.price = .ok prices) {token : Nat}
    (hn : f.node? id = some (.terminal token)) (hp : prices[id]? = some p) : p = ⟨0, 1, none⟩ :=
  (Except.ok.inj ((priceNode_terminal hn).symm.trans ((priceNode_of_price h).2 hp))).symm

/-- The price of a nonterminal adds up the numbers that its alternatives offer, and takes the first
least of the costs. -/
theorem exists_offers_of_price (h : f.price = .ok prices)
    (hn : f.node? id = some (.nonterminal A i j as)) (hp : prices[id]? = some p) :
    ∃ offers : List (Cost × Nat), p.count = (offers.map Prod.snd).sum ∧
      (∃ k, p.best? = some k ∧ IsFirstLeast (offers.map Prod.fst) k p.minCost) ∧
      List.Forall₂ (fun a o => ∃ ps : List Price,
        List.Forall₂ (fun child q => child ∈ f.children id ∧ prices[child]? = some q) a.children ps ∧
          o = (g.cost a.rule + (ps.map Price.minCost).sum, (ps.map Price.count).prod)) as offers := by
  obtain ⟨offer, offers, hoffers, rfl⟩ :=
    (priceNode_eq_ok_iff (by simp [hn])).1 ((priceNode_of_price h).2 hp)
  rw [mapM_eq_ok_iff, alternatives_eq hn, Node.alternatives] at hoffers
  refine ⟨offer :: offers, ?_, ⟨_, rfl, isFirstLeast_firstLeast _ _⟩, ?_⟩
  · simp only [priceOf, List.sum, List.foldr_map]
  · have hmem : ∀ a ∈ as, a ∈ f.alternatives id := fun a ha => by rwa [alternatives_eq hn]
    refine ((List.forall₂_and_left _ _).2 ⟨hmem, hoffers⟩).imp ?_
    intro a o h
    obtain ⟨ha, ho⟩ := h
    obtain ⟨ps, hps, ho⟩ := offer_eq ho
    have hchildren : ∀ child ∈ a.children, child ∈ f.children id :=
      fun child hc => mem_children_iff.2 ⟨a, ha, hc⟩
    refine ⟨ps, ((List.forall₂_and_left _ _).2 ⟨hchildren, hps⟩).imp ?_, ho⟩
    intro child q h
    obtain ⟨hc, hq⟩ := h
    rw [join_getElem?_map_some] at hq
    exact ⟨hc, hq⟩

/-- The best alternative of a node costs as much as the node. -/
theorem exists_best_of_price (h : f.price = .ok prices)
    (hn : f.node? id = some (.nonterminal A i j as)) (hp : prices[id]? = some p) :
    ∃ k a ps, p.best? = some k ∧ as[k]? = some a ∧
      List.Forall₂ (fun child q => child ∈ f.children id ∧ prices[child]? = some q) a.children ps ∧
      p.minCost = g.cost a.rule + (ps.map Price.minCost).sum := by
  obtain ⟨offers, -, ⟨k, hk, hfirst⟩, hoffers⟩ := exists_offers_of_price h hn hp
  have hcost := hfirst.getElem?_eq
  rw [List.getElem?_map, Option.map_eq_some_iff] at hcost
  obtain ⟨o, ho, hcost⟩ := hcost
  obtain ⟨hlt, rfl⟩ := List.getElem?_eq_some_iff.1 ho
  have hlt' : k < as.length := hoffers.length_eq ▸ hlt
  obtain ⟨ps, hps, heq⟩ := hoffers.get hlt' hlt
  refine ⟨k, as[k], ps, hk, List.getElem?_eq_getElem hlt', hps, ?_⟩
  rw [← hcost]
  exact congrArg Prod.fst heq

/-! ## Going down -/

/-- Going down from a node comes to an end. -/
theorem wellFounded_children_of_price (h : f.price = .ok prices) :
    WellFounded fun child id => child ∈ f.children id := by
  -- a node with a price has had priced children only, all the way down
  have hpriced : ∀ id p, (prices.map some)[id]?.join = some p →
      Acc (fun child id => child ∈ f.children id) id := by
    refine price_invariant (I := fun t => ∀ id p, t[id]?.join = some p →
      Acc (fun child id => child ∈ f.children id) id) (fun {table id p} ht hp id' p' hp' => ?_) h
      fun id p hp => ?_
    · rw [Array.getElem?_setIfInBounds] at hp'
      split at hp'
      · subst id'
        refine ⟨_, fun child hc => ?_⟩
        obtain ⟨q, hq⟩ := exists_price_of_priceNode hp hc
        exact ht child q hq
      · exact ht id' p' hp'
    · rw [Array.getElem?_replicate] at hp
      split at hp <;> cases hp
  refine ⟨fun id => ?_⟩
  cases hn : f.node? id with
  | none => exact ⟨_, fun child hc => by simp [children, alternatives, hn] at hc⟩
  | some node =>
    obtain ⟨p, hp⟩ := exists_price_of_lt h (lt_size hn)
    exact hpriced id p (by rw [join_getElem?_map_some, hp])

theorem alternatives_ne_nil_of_price (h : f.price = .ok prices)
    (hn : f.node? id = some (.nonterminal A i j as)) : as ≠ [] := by
  obtain ⟨p, hp⟩ := exists_price_of_lt h (lt_size hn)
  obtain ⟨k, a, -, -, ha, -⟩ := exists_best_of_price h hn hp
  exact List.ne_nil_of_mem (List.mem_of_getElem? ha)

/-- A forest that can be priced and misses no token is sound. -/
theorem sound_of_price (hf : f.InRange) (htokens : f.HasTokens) (h : f.price = .ok prices) :
    f.Sound where
  acyclic := acyclic_of_wellFounded (wellFounded_children_of_price h)
  child_lt := hf.child_lt
  alternatives_ne_nil := alternatives_ne_nil_of_price h
  token_lt := htokens _ _
  root_lt := hf.root_lt

end Forest

/-! ## A node that occurs twice -/

/-- A forest made by hand from the rules of `pairs`: the two children of its root are one node, which
has two alternatives. -/
def twins : Forest pairs :=
  let ((s, _), arena) := Arena.nonterminal {} 'S' 0 1
  let ((a, _), arena) := arena.nonterminal 'A' 0 1
  let (token, arena) := arena.terminal 0
  let arena := arena.pushAlternative s ⟨.ofNat 0, [a, a]⟩
  let arena := arena.pushAlternatives a [⟨.ofNat 1, [token]⟩, ⟨.ofNat 2, []⟩]
  { tokens := #[⟨'a', "a", default⟩], arena, root? := some s, chartItems := 0 }

/-- The prices of `twins`. -/
def twinPrices : PriceTable := #[⟨.ofNat 1, 4, some 0⟩, ⟨0, 2, some 1⟩, ⟨0, 1, none⟩]

namespace Forest

theorem price_twins : twins.price = .ok twinPrices := by
  decide +kernel

theorem root_twins : twins.root? = some 0 := by
  decide +kernel

theorem inRange_twins : twins.InRange := by
  decide +kernel

theorem hasTokens_twins : twins.HasTokens := by
  decide +kernel

end Forest

end EarleyForest
