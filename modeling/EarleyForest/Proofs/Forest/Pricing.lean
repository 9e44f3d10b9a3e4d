import EarleyForest.Forest.Price
import EarleyForest.Proofs.Forest.Acyclicity
import EarleyForest.Proofs.Outcomes
import EarleyForest.Proofs.Saturating

/-!
# Prices

While the prices of a forest are worked out, every entry of the table is what the entries below it
give (`Forest.IsPartlyPriced`), and entries stay once they are there (`priceFrom_keeps`). So in the
end the price of each node is what the prices of its children give (`priceNode_of_price`). A forest
is sound (`Forest.Sound`) if it has no cycle, no empty nonterminal and no missing token.
-/

namespace EarleyForest

variable {T N : Type} [DecidableEq N] [SearchKey N] {g : Grammar T N} {f : Forest g}

namespace Forest

/-- A forest that has a derivation below every node. -/
structure Sound (f : Forest g) : Prop where
  acyclic : f.Acyclic
  child_lt : ∀ id, ∀ child ∈ f.children id, child < f.size
  alternatives_ne_nil : ∀ {id : NodeId} {A : N} {i j : Nat} {as : List Alternative},
    f.node? id = some (.nonterminal A i j as) → as ≠ []
  token_lt : ∀ {id : NodeId} {token : Nat}, f.node? id = some (.terminal token) →
    token < f.tokens.size
  root_lt : ∀ root ∈ f.root?, root < f.size

theorem IsExact.sound {start : N} {w : List T} {base : Nat} (h : f.IsExact start w base) :
    f.Sound := by
  refine ⟨h.acyclic, fun _ _ hc => h.child_lt hc, h.alternatives_ne_nil,
    fun hn => (h.token hn).2, fun root hroot => ?_⟩
  obtain ⟨hroot', _, hn⟩ := h.root
  cases hroot'.symm.trans hroot
  exact lt_size hn

/-- A node stands for a token that is there, or has alternatives. -/
theorem Sound.node_cases (hf : f.Sound) {id : NodeId} (hid : id < f.size) :
    (∃ token t, f.node? id = some (.terminal token) ∧ f.tokens[token]? = some t) ∨
      ∃ A i j as, f.node? id = some (.nonterminal A i j as) ∧ as ≠ [] := by
  obtain ⟨node, hn⟩ := exists_node hid
  cases node with
  | terminal token =>
    exact .inl ⟨token, _, hn, Array.getElem?_eq_getElem (hf.token_lt hn)⟩
  | nonterminal A i j as => exact .inr ⟨A, i, j, as, hn, hf.alternatives_ne_nil hn⟩

theorem Sound.endsWithin (hf : f.Sound) {id : NodeId} (hid : id < f.size) :
    f.EndsWithin f.size id :=
  (hf.acyclic.acyclicFrom id).endsWithin hf.child_lt hid

/-! ## Tables of prices -/

variable {table table' table'' : Array (Option Price)} {id : NodeId} {p : Price}

/-- The prices of the first table are also in the second. -/
def Extends (table table' : Array (Option Price)) : Prop :=
  ∀ (id : NodeId) (p : Price), table[id]?.join = some p → table'[id]?.join = some p

theorem Extends.trans (h : Extends table table') (h' : Extends table' table'') :
    Extends table table'' :=
  fun id p hp => h' id p (h id p hp)

theorem offer_mono {a : Alternative} {o : Cost × Nat} (h : Extends table table')
    (ho : f.offer table a = .ok o) : f.offer table' a = .ok o := by
  refine foldlM_mono (fun b child b' hb => ?_) ho
  obtain ⟨cost, count⟩ := b
  dsimp only at hb ⊢
  cases hp : table[child]?.join with
  | none => rw [hp] at hb; cases hb
  | some p => rwa [h child p hp, ← hp]

/-- An offer adds up the costs of the children and multiplies their numbers of derivations. -/
theorem offer_eq {a : Alternative} {o : Cost × Nat} (ho : f.offer table a = .ok o) :
    ∃ ps, List.Forall₂ (fun child p => table[child]?.join = some p) a.children ps ∧
      o = (g.cost a.rule + (ps.map Price.minCost).sum, (ps.map Price.count).prod) := by
  refine foldlM_invariant (I := fun done o => ∃ ps,
    List.Forall₂ (fun child p => table[child]?.join = some p) done ps ∧
      o = (g.cost a.rule + (ps.map Price.minCost).sum, (ps.map Price.count).prod)) ho
    ⟨[], .nil, by simp⟩ ?_
  rintro done child _ o' - ⟨ps, hps, rfl⟩ hstep
  dsimp only at hstep
  split at hstep
  · rename_i p hp
    obtain rfl := Except.ok.inj hstep
    refine ⟨ps ++ [p], List.rel_append hps (.cons hp .nil), ?_⟩
    simp [add_assoc]
  · cases hstep

theorem exists_offer {a : Alternative}
    (ha : ∀ child ∈ a.children, ∃ p, table[child]?.join = some p) :
    ∃ o, f.offer table a = .ok o := by
  unfold offer
  refine (foldlM_succeeds (I := fun _ _ => True) trivial fun _ child o hmem _ => ?_).imp
    fun _ h => h.1
  obtain ⟨p, hp⟩ := ha child hmem
  exact ⟨_, by rw [hp], trivial⟩

/-- What the offers of its alternatives make the price of a node. -/
def priceOf (offer : Cost × Nat) (offers : List (Cost × Nat)) : Price :=
  ⟨(firstLeast offer.1 (offers.map Prod.fst)).2,
    (offer :: offers).foldr (fun offer count => offer.2 + count) 0,
    some (firstLeast offer.1 (offers.map Prod.fst)).1⟩

theorem priceNode_terminal {token : Nat} (hn : f.node? id = some (.terminal token)) :
    f.priceNode table id = .ok ⟨0, 1, none⟩ := by
  simp only [priceNode, hn]

theorem priceNode_eq_ok_iff (hn : ∀ token, f.node? id ≠ some (.terminal token)) :
    f.priceNode table id = .ok p ↔ ∃ offer offers,
      (f.alternatives id).mapM (f.offer table) = .ok (offer :: offers) ∧
        p = priceOf offer offers := by
  unfold priceNode
  split
  · rename_i token h
    exact absurd h (hn token)
  · rw [bind_eq_ok_iff]
    constructor
    · intro hx
      obtain ⟨offers, hoffers, h⟩ := hx
      cases offers with
      | nil => cases h
      | cons offer offers => exact ⟨offer, offers, hoffers, (Except.ok.inj h).symm⟩
    · intro hx
      obtain ⟨offer, offers, hoffers, rfl⟩ := hx
      exact ⟨_, hoffers, rfl⟩

theorem priceNode_mono (h : Extends table table') (hp : f.priceNode table id = .ok p) :
    f.priceNode table' id = .ok p := by
  by_cases hn : ∃ token, f.node? id = some (.terminal token)
  · obtain ⟨token, hn⟩ := hn
    rw [priceNode_terminal hn] at hp ⊢
    exact hp
  · rw [priceNode_eq_ok_iff fun token h => hn ⟨token, h⟩] at hp ⊢
    obtain ⟨offer, offers, hoffers, rfl⟩ := hp
    refine ⟨offer, offers, mapM_eq_ok_iff.2 ?_, rfl⟩
    exact (mapM_eq_ok_iff.1 hoffers).imp fun _ _ ho => offer_mono h ho

/-- Every price in the table is what the prices below it give. -/
structure IsPartlyPriced (f : Forest g) (table : Array (Option Price)) : Prop where
  size_eq : table.size = f.size
  price_eq : ∀ {id : NodeId} {p : Price}, table[id]?.join = some p →
    f.priceNode table id = .ok p

/-- A node gets its price from those below it. -/
theorem IsPartlyPriced.set (h : f.IsPartlyPriced table) (hp : f.priceNode table id = .ok p) :
    f.IsPartlyPriced (table.setIfInBounds id (some p)) ∧
      Extends table (table.setIfInBounds id (some p)) := by
  have hext : Extends table (table.setIfInBounds id (some p)) := by
    intro id' p' hp'
    rw [Array.getElem?_setIfInBounds]
    split
    · subst id'
      obtain rfl : p = p' := Except.ok.inj (hp.symm.trans (h.price_eq hp'))
      split
      · rfl
      · rename_i hsize
        rw [Array.getElem?_eq_none (Nat.le_of_not_lt hsize)] at hp'
        cases hp'
    · exact hp'
  refine ⟨⟨by rw [Array.size_setIfInBounds, h.size_eq], fun {id' p'} hp' => ?_⟩, hext⟩
  rw [Array.getElem?_setIfInBounds] at hp'
  refine priceNode_mono hext ?_
  split at hp'
  · subst id'
    split at hp'
    · cases hp'
      exact hp
    · cases hp'
  · exact h.price_eq hp'

theorem isPartlyPriced_replicate (f : Forest g) :
    f.IsPartlyPriced (Array.replicate f.size none) := by
  refine ⟨Array.size_replicate, fun {id p} hp => ?_⟩
  rw [Array.getElem?_replicate] at hp
  split at hp <;> cases hp

theorem exists_eq_map_some {α : Type} {entries : List (Option α)}
    (h : ∀ entry ∈ entries, ∃ a, entry = some a) : ∃ as : List α, entries = as.map some := by
  induction entries with
  | nil => exact ⟨[], rfl⟩
  | cons entry entries ih =>
    obtain ⟨a, rfl⟩ := h entry List.mem_cons_self
    obtain ⟨as, rfl⟩ := ih fun entry hentry => h entry (List.mem_cons_of_mem _ hentry)
    exact ⟨a :: as, rfl⟩

/-- The prices of a forest are those of all nodes. -/
theorem zipIdx_mapM_eq_ok_iff {entries : List (Option Price)} {k : Nat} {prices : List Price} :
    (entries.zipIdx k).mapM (fun
      | (some price, _) => .ok price
      | (none, id) => .error (.cycle (f.site id)) :
        Option Price × Nat → Except (ForestError N) Price) = .ok prices ↔
      entries = prices.map some := by
  induction entries generalizing k prices with
  | nil =>
    rw [mapM_eq_ok_iff, List.zipIdx_nil, List.forall₂_nil_left_iff]
    cases prices <;> simp
  | cons entry entries ih =>
    rw [mapM_eq_ok_iff, List.zipIdx_cons, List.forall₂_cons_left_iff]
    simp only [← mapM_eq_ok_iff, ih]
    cases entry with
    | none => cases prices <;> simp
    | some p =>
      constructor
      · intro hx
        obtain ⟨p', rest, hp, rfl, rfl⟩ := hx
        rw [Except.ok.inj hp]
        rfl
      · intro h
        cases prices with
        | nil => cases h
        | cons p' prices =>
          obtain ⟨hp, hrest⟩ := List.cons_eq_cons.1 h
          exact ⟨p', prices, by rw [Option.some.inj hp], hrest, rfl⟩

/-! ## The walk -/

section

variable {I : Array (Option Price) → Prop} (hset : ∀ {table id p}, I table →
  f.priceNode table id = .ok p → I (table.setIfInBounds id (some p)))
include hset

/-- What is kept when a node gets its price is kept by the walk below a node. -/
theorem priceFrom_invariant {depth : Nat} {path : Std.TreeSet NodeId}
    (h : f.priceFrom depth path table id = .ok table') (ht : I table) : I table' := by
  induction depth generalizing path table table' id with
  | zero => cases h
  | succ depth ih =>
    unfold priceFrom at h
    split at h
    · cases h
      exact ht
    · dsimp only at h
      split at h
      · cases h
      · obtain ⟨below, hbelow, h⟩ := bind_eq_ok_iff.1 h
        obtain ⟨p, hp, h⟩ := bind_eq_ok_iff.1 h
        obtain rfl := Except.ok.inj h
        refine hset ?_ hp
        exact foldlM_invariant (I := fun _ => I) hbelow ht fun _ _ _ _ _ ht hstep => ih hstep ht

/-- What is kept when a node gets its price holds of the prices of all nodes. -/
theorem price_invariant {prices : PriceTable} (h : f.price = .ok prices)
    (ht : I (Array.replicate f.size none)) : I (prices.map some) := by
  unfold price at h
  obtain ⟨table, htable, h⟩ := bind_eq_ok_iff.1 h
  obtain ⟨list, hlist, h⟩ := bind_eq_ok_iff.1 h
  obtain rfl := Except.ok.inj h
  rw [List.map_toArray, ← zipIdx_mapM_eq_ok_iff.1 hlist, Array.toArray_toList]
  exact foldlM_invariant (I := fun _ => I) htable ht fun _ _ _ _ _ ht hstep =>
    priceFrom_invariant hset hstep ht

end

/-- Prices stay, and each is what those below it give. -/
theorem priceFrom_keeps {depth : Nat} {path : Std.TreeSet NodeId}
    (h : f.priceFrom depth path table id = .ok table') (ht : f.IsPartlyPriced table) :
    f.IsPartlyPriced table' ∧ Extends table table' :=
  priceFrom_invariant (I := fun t => f.IsPartlyPriced t ∧ Extends table t)
    (fun ⟨ht, hext⟩ hp => ⟨(ht.set hp).1, hext.trans (ht.set hp).2⟩) h
    ⟨ht, fun _ _ hp => hp⟩

/-- The walk below a node gives it a price. -/
theorem exists_price_of_priceFrom {depth : Nat} {path : Std.TreeSet NodeId}
    (h : f.priceFrom depth path table id = .ok table') (ht : f.IsPartlyPriced table)
    (hid : id < f.size) : ∃ p, table'[id]?.join = some p := by
  cases depth with
  | zero => cases h
  | succ depth =>
    unfold priceFrom at h
    split at h
    · rename_i p hp
      cases h
      exact ⟨p, hp⟩
    · dsimp only at h
      split at h
      · cases h
      · obtain ⟨below, hbelow, h⟩ := bind_eq_ok_iff.1 h
        obtain ⟨p, hp, h⟩ := bind_eq_ok_iff.1 h
        obtain rfl := Except.ok.inj h
        have hpartly : f.IsPartlyPriced below :=
          foldlM_invariant (I := fun _ => f.IsPartlyPriced) hbelow ht
            fun _ _ _ _ _ ht hstep => (priceFrom_keeps hstep ht).1
        refine ⟨p, ?_⟩
        rw [Array.getElem?_setIfInBounds, if_pos rfl, if_pos (hpartly.size_eq ▸ hid)]
        rfl

theorem join_getElem?_map_some {prices : PriceTable} :
    (prices.map some)[id]?.join = prices[id]? := by
  rw [Array.getElem?_map]
  cases prices[id]? <;> rfl

/-- In a table of prices each is what those of the children give. -/
theorem priceNode_of_price {prices : PriceTable} (h : f.price = .ok prices) :
    prices.size = f.size ∧ ∀ {id : NodeId} {p : Price}, prices[id]? = some p →
      f.priceNode (prices.map some) id = .ok p := by
  have hpartly : f.IsPartlyPriced (prices.map some) :=
    price_invariant (fun ht hp => (ht.set hp).1) h f.isPartlyPriced_replicate
  refine ⟨by rw [← hpartly.size_eq, Array.size_map], fun {id p} hp => hpartly.price_eq ?_⟩
  rw [join_getElem?_map_some, hp]

end Forest

end EarleyForest
