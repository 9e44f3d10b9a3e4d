import EarleyForest.Forest.Selection
import EarleyForest.Proofs.Forest.Soundness
import Mathlib.Data.Set.Card

/-!
# Prices count and minimise over selections

The price of a node counts its selections (`encard_selections`), and its cost is the least that one
of them has, with the first alternative that reaches it (`isLeast_weight`, `isLeast_best`). All three
go down the forest from a node to its children, which comes to an end in a forest that can be priced.
Together they say what a table of prices tells (`isPriceOf_of_price`).
-/

namespace EarleyForest

/-! ## Weights -/

variable {T N : Type} [DecidableEq N] [SearchKey N] {g : Grammar T N} {f : Forest g}

/-- The cost of the rules that a selection applies, as a parse weighs them. -/
def Selection.weight (g : Grammar T N) (s : Selection) : Cost := .ofNat (g.totalCost s.rules)

/-- The rules that are applied below one rule add up what each part of them costs. -/
theorem Grammar.ofNat_totalCost {α : Type} (g : Grammar T N) (rule : RuleId)
    (rules : α → List RuleId) (xs : List α) :
    Saturating.ofNat (g.totalCost (rule :: xs.flatMap rules)) =
      g.cost rule + (xs.map fun x => .ofNat (g.totalCost (rules x))).sum := by
  have hsum : g.totalCost (xs.flatMap rules) = (xs.map fun x => g.totalCost (rules x)).sum := by
    induction xs with
    | nil => rfl
    | cons x xs ih =>
      rw [List.map_cons, List.sum_cons, ← ih]
      simp [totalCost]
  have hcons : g.totalCost (rule :: xs.flatMap rules) =
      (g.cost rule).toNat + g.totalCost (xs.flatMap rules) := by
    simp [totalCost]
  rw [hcons, Saturating.ofNat_add, Saturating.ofNat_toNat, hsum, Saturating.ofNat_sum, List.map_map]
  rfl

theorem Selection.rulesAll_eq_flatMap (ss : List Selection) : rulesAll ss = ss.flatMap rules := by
  induction ss with
  | nil => rfl
  | cons s ss ih => rw [rulesAll, ih, List.flatMap_cons]

theorem Selection.weight_leaf : leaf.weight g = 0 := rfl

theorem Selection.weight_branch (k : Nat) (rule : RuleId) (ss : List Selection) :
    (branch k rule ss).weight g = g.cost rule + (ss.map (weight g)).sum := by
  rw [weight, rules, rulesAll_eq_flatMap, g.ofNat_totalCost]
  rfl

namespace Forest

variable {id : NodeId} {A : N} {i j : Nat} {as : List Alternative} {s : Selection}
  {prices : PriceTable} {p : Price}

/-! ## The selections of a node -/

theorem areSelections_iff {ids : List NodeId} {ss : List Selection} :
    f.AreSelections ids ss ↔ List.Forall₂ f.IsSelection ids ss := by
  constructor
  · intro h
    induction ids generalizing ss with
    | nil => cases h; exact .nil
    | cons id ids ih => cases h with | cons h hs => exact .cons h (ih hs)
  · intro h
    induction h with
    | nil => exact .nil
    | cons h _ ih => exact .cons h ih

theorem isSelection_terminal_iff {token : Nat} (hn : f.node? id = some (.terminal token)) :
    f.IsSelection id s ↔ s = .leaf := by
  constructor
  · intro h
    cases h with
    | leaf => rfl
    | branch h => cases hn.symm.trans h
  · rintro rfl
    exact .leaf hn

theorem isSelection_nonterminal_iff (hn : f.node? id = some (.nonterminal A i j as)) :
    f.IsSelection id s ↔ ∃ k a ss, as[k]? = some a ∧ s = .branch k a.rule ss ∧
      List.Forall₂ f.IsSelection a.children ss := by
  constructor
  · intro h
    cases h with
    | leaf h => cases hn.symm.trans h
    | branch h ha hs =>
      cases hn.symm.trans h
      exact ⟨_, _, _, ha, rfl, areSelections_iff.1 hs⟩
  · rintro ⟨k, a, ss, ha, rfl, hs⟩
    exact .branch hn ha (areSelections_iff.2 hs)

/-! ## The number of selections -/

/-- Several nodes have as many selections as the product over them. -/
theorem encard_forall₂ {α β : Type} {R : α → β → Prop} {xs : List α} {ns : List Nat}
    (h : List.Forall₂ (fun x (n : Nat) => {y | R x y}.encard = n) xs ns) :
    {ys | List.Forall₂ R xs ys}.encard = ns.prod := by
  induction h with
  | nil => simp
  | @cons x n xs ns hx _ ih =>
    have hcons : {ys | List.Forall₂ R (x :: xs) ys} =
        (fun y : β × List β => y.1 :: y.2) '' ({y | R x y} ×ˢ {ys | List.Forall₂ R xs ys}) := by
      ext ys
      simp only [Set.mem_ofPred_eq, List.forall₂_cons_left_iff, Set.mem_image, Set.mem_prod,
        Prod.exists]
      grind
    have hinj : Function.Injective fun y : β × List β => y.1 :: y.2 := by
      rintro ⟨y, ys⟩ ⟨z, zs⟩ heq
      obtain ⟨rfl, rfl⟩ := List.cons_eq_cons.1 heq
      rfl
    rw [hcons, hinj.encard_image, Set.encard_prod, hx, ih, List.prod_cons, Nat.cast_mul]

/-- The selections that pick one of the alternatives `as`, numbered from `n` on. -/
def selectionsFrom (f : Forest g) (n : Nat) (as : List Alternative) : Set Selection :=
  {s | ∃ k a ss, as[k]? = some a ∧ s = .branch (n + k) a.rule ss ∧
    List.Forall₂ f.IsSelection a.children ss}

theorem selectionsFrom_cons (n : Nat) (a : Alternative) (as : List Alternative) :
    f.selectionsFrom n (a :: as) =
      Selection.branch n a.rule '' {ss | List.Forall₂ f.IsSelection a.children ss} ∪
        f.selectionsFrom (n + 1) as := by
  ext s
  simp only [selectionsFrom, Set.mem_ofPred_eq, Set.mem_union, Set.mem_image]
  constructor
  · rintro ⟨k, b, ss, hb, rfl, hs⟩
    cases k with
    | zero =>
      obtain rfl := Option.some.inj hb
      exact .inl ⟨ss, hs, rfl⟩
    | succ k => exact .inr ⟨k, b, ss, hb, by rw [Nat.succ_add_eq_add_succ], hs⟩
  · rintro (⟨ss, hs, rfl⟩ | ⟨k, b, ss, hb, rfl, hs⟩)
    · exact ⟨0, a, ss, rfl, rfl, hs⟩
    · exact ⟨k + 1, b, ss, hb, by rw [Nat.succ_add_eq_add_succ], hs⟩

/-- The selections of the alternatives add up. -/
theorem encard_selectionsFrom {ns : List Nat}
    (h : List.Forall₂ (fun a (n : Nat) =>
      {ss | List.Forall₂ f.IsSelection a.children ss}.encard = n) as ns)
    (n : Nat) : (f.selectionsFrom n as).encard = ns.sum := by
  induction h generalizing n with
  | nil => simp [selectionsFrom]
  | @cons a m as ns ha _ ih =>
    have hinj : Function.Injective (Selection.branch n a.rule) := by
      intro ss ss' heq
      cases heq
      rfl
    have hdisjoint : Disjoint
        (Selection.branch n a.rule '' {ss | List.Forall₂ f.IsSelection a.children ss})
        (f.selectionsFrom (n + 1) as) := by
      refine Set.disjoint_left.2 ?_
      rintro _ ⟨ss, -, rfl⟩ ⟨k, b, ss', -, heq, -⟩
      injection heq
      omega
    rw [selectionsFrom_cons, Set.encard_union_eq hdisjoint, hinj.encard_image, ha, ih, List.sum_cons,
      Nat.cast_add]

/-- A node has as many selections as its price counts. -/
theorem encard_selections (h : f.price = .ok prices) (hp : prices[id]? = some p) :
    {s | f.IsSelection id s}.encard = p.count := by
  induction id using (wellFounded_children_of_price h).induction generalizing p with
  | h id ih =>
    obtain ⟨node, hn⟩ := exists_node_of_price h hp
    cases node with
    | terminal token =>
      simp [isSelection_terminal_iff hn, price_of_terminal h hn hp]
    | nonterminal A i j as =>
      obtain ⟨offers, hcount, -, hoffers⟩ := exists_offers_of_price h hn hp
      have hset : {s | f.IsSelection id s} = f.selectionsFrom 0 as := by
        ext s
        simp only [Set.mem_ofPred_eq, isSelection_nonterminal_iff hn, selectionsFrom, Nat.zero_add]
      rw [hset, hcount]
      refine encard_selectionsFrom (List.forall₂_map_right_iff.2 (hoffers.imp ?_)) 0
      rintro a o ⟨ps, hps, rfl⟩
      exact encard_forall₂ (List.forall₂_map_right_iff.2 (hps.imp fun child q ⟨hc, hq⟩ =>
        ih child hc hq))

/-! ## The least weight -/

/-- Least weights of several nodes add up to the least that selections of all of them weigh. -/
theorem isLeast_sum {α β M : Type} [AddCommMonoid M] [PartialOrder M] [IsOrderedAddMonoid M]
    {R : α → β → Prop} {w : β → M} {xs : List α} {ms : List M}
    (h : List.Forall₂ (fun x m => IsLeast (w '' {y | R x y}) m) xs ms) :
    IsLeast ((fun ys => (ys.map w).sum) '' {ys | List.Forall₂ R xs ys}) ms.sum := by
  induction h with
  | nil => simp
  | cons hx _ ih =>
    obtain ⟨⟨y, hy, rfl⟩, hle⟩ := hx
    obtain ⟨⟨ys, hys, hsum⟩, hles⟩ := ih
    refine ⟨⟨y :: ys, .cons hy hys, by simp [← hsum]⟩, ?_⟩
    rintro _ ⟨_, hzs, rfl⟩
    cases hzs with
    | cons hz hzs =>
      simp only [List.map_cons, List.sum_cons]
      exact add_le_add (hle ⟨_, hz, rfl⟩) (hles ⟨_, hzs, rfl⟩)

/-- `costs` are the least weights of the alternatives of the node `id`, one for one. -/
structure AreLeastCosts (f : Forest g) (id : NodeId) (costs : List Cost) : Prop where
  attained : ∀ {k : Nat} {c : Cost}, costs[k]? = some c → ∃ rule below,
    f.IsSelection id (.branch k rule below) ∧ (Selection.branch k rule below).weight g = c
  exists_le : ∀ {k : Nat} {rule : RuleId} {below : List Selection},
    f.IsSelection id (.branch k rule below) →
      ∃ c, costs[k]? = some c ∧ c ≤ (Selection.branch k rule below).weight g

/-- An alternative costs at least its rule and the least weights of its children. -/
theorem areLeastCosts_of_forall₂ (hn : f.node? id = some (.nonterminal A i j as))
    {costs : List Cost} (h : List.Forall₂ (fun a c => ∃ m, c = g.cost a.rule + m ∧
      IsLeast ((fun ss => (ss.map (Selection.weight g)).sum) ''
        {ss | List.Forall₂ f.IsSelection a.children ss}) m) as costs) :
    f.AreLeastCosts id costs := by
  rw [List.forall₂_iff_get] at h
  obtain ⟨hlength, h⟩ := h
  constructor
  · intro k c hc
    obtain ⟨hk, rfl⟩ := List.getElem?_eq_some_iff.1 hc
    obtain ⟨m, hm, ⟨ss, hss, rfl⟩, -⟩ := h k (hlength ▸ hk) hk
    refine ⟨_, ss, (isSelection_nonterminal_iff hn).2
      ⟨k, _, ss, List.getElem?_eq_getElem (hlength ▸ hk), rfl, hss⟩, ?_⟩
    rw [Selection.weight_branch]
    exact hm.symm
  · intro k rule below hs
    obtain ⟨_, a, _, ha, heq, hss⟩ := (isSelection_nonterminal_iff hn).1 hs
    cases heq
    obtain ⟨hk, rfl⟩ := List.getElem?_eq_some_iff.1 ha
    obtain ⟨m, hm, -, hle⟩ := h k hk (hlength ▸ hk)
    refine ⟨_, List.getElem?_eq_getElem (hlength ▸ hk), ?_⟩
    rw [Selection.weight_branch]
    exact hm.trans_le (add_le_add_right (hle ⟨below, hss, rfl⟩) _)

/-- The price of a nonterminal is the first least of what its alternatives cost at least. -/
theorem exists_leastCosts (h : f.price = .ok prices)
    (hn : f.node? id = some (.nonterminal A i j as)) (hp : prices[id]? = some p)
    (ih : ∀ child ∈ f.children id, ∀ q, prices[child]? = some q →
      IsLeast (Selection.weight g '' {s | f.IsSelection child s}) q.minCost) :
    ∃ costs k, p.best? = some k ∧ IsFirstLeast costs k p.minCost ∧ f.AreLeastCosts id costs := by
  obtain ⟨offers, -, ⟨k, hbest, hfirst⟩, hoffers⟩ := exists_offers_of_price h hn hp
  refine ⟨_, k, hbest, hfirst,
    areLeastCosts_of_forall₂ hn (List.forall₂_map_right_iff.2 (hoffers.imp ?_))⟩
  rintro a o ⟨ps, hps, rfl⟩
  exact ⟨_, rfl, isLeast_sum (List.forall₂_map_right_iff.2 (hps.imp fun child q ⟨hc, hq⟩ =>
    ih child hc q hq))⟩

/-- The cost of a node is the least weight of its selections. -/
theorem isLeast_weight (h : f.price = .ok prices) (hp : prices[id]? = some p) :
    IsLeast (Selection.weight g '' {s | f.IsSelection id s}) p.minCost := by
  induction id using (wellFounded_children_of_price h).induction generalizing p with
  | h id ih =>
    obtain ⟨node, hn⟩ := exists_node_of_price h hp
    cases node with
    | terminal token =>
      rw [price_of_terminal h hn hp]
      simp [isSelection_terminal_iff hn, Selection.weight_leaf]
    | nonterminal A i j as =>
      obtain ⟨costs, k, -, hfirst, hcosts⟩ :=
        exists_leastCosts h hn hp fun child hc q hq => ih child hc hq
      obtain ⟨rule, below, hs, hweight⟩ := hcosts.attained hfirst.getElem?_eq
      refine ⟨⟨_, hs, hweight⟩, ?_⟩
      rintro _ ⟨s, hs, rfl⟩
      obtain ⟨k', a, ss, -, rfl, -⟩ := (isSelection_nonterminal_iff hn).1 hs
      obtain ⟨c, hc, hle⟩ := hcosts.exists_le hs
      exact (hfirst.le c (List.mem_of_getElem? hc)).trans hle

/-- The best alternative is the first one by which a selection weighs that little. -/
theorem isLeast_best (h : f.price = .ok prices) (hp : prices[id]? = some p) {k : Nat}
    (hk : p.best? = some k) :
    IsLeast {k | ∃ rule below, f.IsSelection id (.branch k rule below) ∧
      (Selection.branch k rule below).weight g = p.minCost} k := by
  obtain ⟨node, hn⟩ := exists_node_of_price h hp
  cases node with
  | terminal token => simp [price_of_terminal h hn hp] at hk
  | nonterminal A i j as =>
    obtain ⟨costs, k', hbest, hfirst, hcosts⟩ :=
      exists_leastCosts h hn hp fun child _ q hq => isLeast_weight h hq
    obtain rfl := Option.some.inj (hk.symm.trans hbest)
    refine ⟨hcosts.attained hfirst.getElem?_eq, ?_⟩
    rintro j ⟨rule, below, hs, hweight⟩
    obtain ⟨c, hc, hle⟩ := hcosts.exists_le hs
    have hleast : c = p.minCost :=
      le_antisymm (hweight ▸ hle) (hfirst.le c (List.mem_of_getElem? hc))
    exact hfirst.le_index (hleast ▸ hc)

/-! ## What prices tell -/

/-- The price `p` tells how many selections the node `id` has, what the least of them weighs, and by
which alternative that is first reached. -/
structure IsPriceOf (f : Forest g) (id : NodeId) (p : Price) : Prop where
  encard_eq : {s | f.IsSelection id s}.encard = p.count
  one_le_count : 1 ≤ p.count
  isLeast_minCost : IsLeast (Selection.weight g '' {s | f.IsSelection id s}) p.minCost
  minCost_of_terminal : ∀ token, f.node? id = some (.terminal token) → p.minCost = 0
  best?_eq_none_iff : p.best? = none ↔ ∃ token, f.node? id = some (.terminal token)
  isLeast_best : ∀ k, p.best? = some k → IsLeast {k | ∃ rule below,
    f.IsSelection id (.branch k rule below) ∧
      (Selection.branch k rule below).weight g = p.minCost} k

/-- Prices tell of every node what its selections are, be it reached from the root or not. -/
theorem isPriceOf_of_price (f : Forest g) (prices : PriceTable) (h : f.price = .ok prices) :
    prices.size = f.size ∧ ∀ id < f.size, ∃ p, prices[id]? = some p ∧ f.IsPriceOf id p := by
  refine ⟨(priceNode_of_price h).1, fun id hid => ?_⟩
  obtain ⟨p, hp⟩ := exists_price_of_lt h hid
  have hleast := isLeast_weight h hp
  refine ⟨p, hp, encard_selections h hp, ?_, hleast, fun token hn => ?_, ?_,
    fun k hk => isLeast_best h hp hk⟩
  · -- a selection that weighs the least is one
    obtain ⟨s, hs, -⟩ := hleast.1
    have hpos := Set.one_le_encard_iff_nonempty.2 ⟨s, hs⟩
    rw [encard_selections h hp] at hpos
    exact_mod_cast hpos
  · rw [price_of_terminal h hn hp]
  · obtain ⟨node, hn⟩ := exists_node hid
    cases node with
    | terminal token => simp [price_of_terminal h hn hp, hn]
    | nonterminal A i j as =>
      obtain ⟨offers, -, ⟨k, hk, -⟩, -⟩ := exists_offers_of_price h hn hp
      simp [hk, hn]

theorem isPriceOf_of_price_twins : twins.price = .ok twinPrices ∧
    {s | twins.IsSelection 0 s}.encard = 4 ∧
      IsLeast (Selection.weight pairs '' {s | twins.IsSelection 0 s}) (.ofNat 1) := by
  obtain ⟨-, hprices⟩ := isPriceOf_of_price twins twinPrices price_twins
  obtain ⟨p, hp, hroot⟩ := hprices 0 (by decide +kernel)
  obtain rfl : ⟨.ofNat 1, 4, some 0⟩ = p := Option.some.inj hp
  exact ⟨price_twins, hroot.encard_eq, hroot.isLeast_minCost⟩

end Forest

end EarleyForest
