import EarleyForest.Proofs.Forest.Derivations
import EarleyForest.Proofs.Forest.Soundness
import Mathlib.Data.List.Sort

/-!
# Forests of a part of the input

What derives a part of the input does not depend on what stands around it, so the ways to derive a
nonterminal there are those in the whole input, moved along (`AreWays.eq_map`). Hence nodes of exact
forests that match have alternatives that match (`IsExact.matches_alternatives`). Prices come from
the alternatives and the prices below only, so such nodes have the same price
(`price_eq_of_isSimulation`).
-/

namespace EarleyForest

variable {T N : Type}

/-! ## Splits of a part -/

theorem segment_segment {w : List T} {s t i j : Nat} (h : s + j ≤ t) :
    segment (segment w s t) i j = segment w (s + i) (s + j) := by
  simp only [segment, List.take_drop, List.drop_drop, List.take_take, Nat.min_eq_left h]

/-- The splits of a range in a part of the input are those of the range itself, moved along. -/
theorem isSplit_segment_iff {rules : List (Rule T N)} {w : List T} {Xs : List (Symbol T N)}
    {split : List Nat} {s t i j : Nat} (h : s + j ≤ t) :
    IsSplit rules w Xs split (s + i) (s + j) ↔
      ∃ split', split = split'.map (s + ·) ∧ IsSplit rules (segment w s t) Xs split' i j := by
  constructor
  · intro hs
    induction Xs generalizing split i with
    | nil =>
      generalize hi : s + i = i', hj : s + j = j' at hs
      cases hs
      obtain rfl : i = j := by omega
      exact ⟨[i], by simp [hi], .nil i⟩
    | cons X Xs ih =>
      generalize hi : s + i = i' at hs
      cases hs with
      | @cons _ _ split _ m _ hm hX hs =>
        obtain ⟨m, rfl⟩ := Nat.exists_eq_add_of_le (show s ≤ m by omega)
        have hmj := hs.le
        obtain ⟨split', rfl, hs'⟩ := ih hs
        refine ⟨i :: split', by simp [hi], .cons (by omega) ?_ hs'⟩
        rwa [segment_segment (by omega), hi]
  · rintro ⟨split', rfl, hs⟩
    induction hs with
    | nil i => exact .nil _
    | cons hij hX hs ih =>
      have hle := hs.le
      rw [segment_segment (by omega)] at hX
      exact .cons (Nat.add_le_add_left hij s) hX (ih h)

variable [DecidableEq N] [SearchKey N] {g : Grammar T N}

theorem not_wayLt_of_wayLt {p q : RuleId × List Nat}
    (h : p.1 < q.1 ∨ p.1 = q.1 ∧ List.Lex (· < ·) p.2 q.2) :
    ¬ (q.1 < p.1 ∨ q.1 = p.1 ∧ List.Lex (· < ·) q.2 p.2) := by
  rcases h with h | ⟨heq, h⟩
  · rintro (h' | ⟨heq, -⟩)
    · exact lt_asymm h h'
    · exact absurd h (heq ▸ lt_irrefl _)
  · rintro (h' | ⟨-, h'⟩)
    · exact absurd h' (heq ▸ lt_irrefl _)
    · exact lt_asymm (a := p.2) h h'

/-- The ways to derive a nonterminal in a part of the input are those in the whole, moved along. -/
theorem AreWays.eq_map {w : List T} {A : N} {s t i j : Nat} {ways ways' : List (RuleId × List Nat)}
    (h : AreWays g w A (s + i) (s + j) ways) (h' : AreWays g (segment w s t) A i j ways')
    (hj : s + j ≤ t) : ways = ways'.map fun way => (way.1, way.2.map (s + ·)) := by
  let lt (p q : RuleId × List Nat) : Prop :=
    p.1 < q.1 ∨ p.1 = q.1 ∧ List.Lex (· < ·) p.2 q.2
  have : Std.Irrefl lt := ⟨fun p hp => not_wayLt_of_wayLt hp hp⟩
  have : Std.Antisymm lt := ⟨fun p q hpq hqp => absurd hqp (not_wayLt_of_wayLt hpq)⟩
  have hascending : (ways'.map fun way => (way.1, way.2.map (s + ·))).Pairwise lt :=
    List.pairwise_map.2 (h'.ascending.imp fun hlt =>
      hlt.imp_right fun ⟨heq, hsplit⟩ => ⟨heq, Forest.lex_map_add s hsplit⟩)
  refine List.Pairwise.eq_of_mem_iff (r := lt) h.ascending hascending fun ⟨rule, split⟩ => ?_
  rw [h.mem_iff, List.mem_map]
  constructor
  · rintro ⟨r, hr, hA, hs⟩
    obtain ⟨split', rfl, hs'⟩ := (isSplit_segment_iff hj).1 hs
    exact ⟨(rule, split'), h'.mem_iff.2 ⟨r, hr, hA, hs'⟩, rfl⟩
  · rintro ⟨⟨rule', split'⟩, hway, heq⟩
    cases heq
    obtain ⟨r, hr, hA, hs⟩ := h'.mem_iff.1 hway
    exact ⟨r, hr, hA, (isSplit_segment_iff hj).2 ⟨split', rfl, hs⟩⟩

/-! ## Nodes that match -/

/-- The alternatives apply the same rule, and their children are related one for one. -/
structure Alternative.Matches (R : NodeId → NodeId → Prop) (a a' : Alternative) : Prop where
  rule_eq : a.rule = a'.rule
  children : List.Forall₂ R a.children a'.children

namespace Forest

variable {f f' : Forest g}

/-- The nodes stand for the same symbol, whatever their alternatives. -/
def StandAlike (f f' : Forest g) (base base' : Nat) (id id' : NodeId) : Prop :=
  ∃ node node', f.node? id = some node ∧ f'.node? id' = some node' ∧
    node.Matches base base' (fun _ _ => True) node'

/-- Children along the same boundaries stand for the same symbols. -/
theorem standAlike_of_tiles {base base' i i' k k' : Nat} {Xs Xs' : List (Symbol T N)}
    {ids ids' : List NodeId} {bounds bounds' split : List Nat}
    (h : Tiles f.arena.nodes f.tokens Xs ids bounds i k)
    (h' : Tiles f'.arena.nodes f'.tokens Xs' ids' bounds' i' k') (hXs : Xs = Xs')
    (hbounds : bounds = split.map (base + ·)) (hbounds' : bounds' = split.map (base' + ·)) :
    List.Forall₂ (f.StandAlike f' base base') ids ids' := by
  induction h generalizing Xs' ids' bounds' i' split with
  | nil =>
    cases h' with
    | nil => exact .nil
    | terminal => cases hXs
    | nonterminal => cases hXs
  | terminal hn _ _ ih =>
    obtain _ | ⟨s, split⟩ := split
    · cases hbounds
    obtain ⟨rfl, hrest⟩ := List.cons_eq_cons.1 hbounds
    cases h' with
    | nil => cases hXs
    | nonterminal => cases hXs
    | terminal hn' _ hs' =>
      obtain ⟨-, hXs⟩ := List.cons_eq_cons.1 hXs
      obtain ⟨rfl, hrest'⟩ := List.cons_eq_cons.1 hbounds'
      exact .cons ⟨_, _, hn, hn', .terminal s⟩ (ih hs' hXs hrest hrest')
  | nonterminal hn _ hs ih =>
    obtain _ | ⟨s, split⟩ := split
    · cases hbounds
    obtain ⟨rfl, hrest⟩ := List.cons_eq_cons.1 hbounds
    cases h' with
    | nil => cases hXs
    | terminal => cases hXs
    | nonterminal hn' _ hs' =>
      obtain ⟨hA, hXs'⟩ := List.cons_eq_cons.1 hXs
      cases hA
      obtain ⟨rfl, hrest'⟩ := List.cons_eq_cons.1 hbounds'
      have hchildren := ih hs' hXs' hrest hrest'
      -- both children end at the boundary that comes next
      obtain ⟨_, rfl⟩ := hs.exists_eq_cons
      obtain ⟨_, rfl⟩ := hs'.exists_eq_cons
      obtain _ | ⟨m, split⟩ := split
      · cases hrest
      obtain ⟨rfl, -⟩ := List.cons_eq_cons.1 hrest
      obtain ⟨rfl, -⟩ := List.cons_eq_cons.1 hrest'
      exact .cons ⟨_, _, hn, hn', .nonterminal _ s m trivial⟩ hchildren

/-- Nodes that match have alternatives that match, one for one, when the second forest is that of a
part of what the first one is of. -/
theorem IsExact.matches_alternatives {start start' : N} {w : List T} {base base' s t : Nat}
    (h : f.IsExact start w base) (h' : f'.IsExact start' (segment w s t) base')
    (hst : s ≤ t) (ht : t ≤ w.length) {id id' : NodeId}
    (hid : f.StandAlike f' (base + s) base' id id') :
    ∃ node node', f.node? id = some node ∧ f'.node? id' = some node' ∧
      node.Matches (base + s) base'
        (List.Forall₂ (Alternative.Matches (f.StandAlike f' (base + s) base'))) node' := by
  obtain ⟨_, _, hn, hn', ⟨k⟩ | ⟨A, i, j, -⟩⟩ := hid
  · exact ⟨_, _, hn, hn', .terminal k⟩
  rename_i as as'
  refine ⟨_, _, hn, hn', .nonterminal A i j ?_⟩
  obtain ⟨i₁, j₁, ways, hi, hj, -, hways, hall⟩ := h.node hn
  obtain ⟨i₂, j₂, ways', hi', hj', hlive, hways', hall'⟩ := h'.node hn'
  obtain ⟨rfl, rfl⟩ : i₁ = s + i ∧ j₁ = s + j := by omega
  obtain ⟨rfl, rfl⟩ : i₂ = i ∧ j₂ = j := by omega
  have hjt : s + j₂ ≤ t := by
    have := hlive.le_length
    rw [length_segment ht] at this
    omega
  have hsame : List.Forall₂ (fun way way' : RuleId × List Nat => way = (way'.1, way'.2.map (s + ·)))
      ways ways' := by
    rw [hways.eq_map hways' hjt, List.forall₂_map_left_iff]
    exact List.forall₂_same.2 fun _ _ => rfl
  refine forall₂_of_related hsame hall hall' fun way way' a a' heq ha ha' => ?_
  subst heq
  obtain ⟨hrule, r, hr, htiles⟩ := ha
  obtain ⟨hrule', r', hr', htiles'⟩ := ha'
  cases hr.symm.trans hr'
  have hbounds : (way'.2.map (s + ·)).map (base + ·) = way'.2.map (base + s + ·) := by
    simp [Nat.add_assoc]
  exact ⟨hrule.trans hrule'.symm, standAlike_of_tiles htiles htiles' rfl hbounds rfl⟩

/-! ## Prices of nodes that match -/

/-- Nodes that are related by `R` match, with alternatives whose children are related again. -/
def IsSimulation (f f' : Forest g) (base base' : Nat) (R : NodeId → NodeId → Prop) : Prop :=
  ∀ id id', R id id' → ∃ node node', f.node? id = some node ∧ f'.node? id' = some node' ∧
    node.Matches base base' (List.Forall₂ (Alternative.Matches R)) node'

/-- Nodes that are related have the same price, since prices come from below. -/
theorem price_eq_of_isSimulation {base base' : Nat} {R : NodeId → NodeId → Prop}
    (hR : f.IsSimulation f' base base' R) {prices prices' : PriceTable}
    (h : f.price = .ok prices) (h' : f'.price = .ok prices') {id id' : NodeId} (hid : R id id') :
    ∃ p, prices[id]? = some p ∧ prices'[id']? = some p := by
  induction id using (wellFounded_children_of_price h).induction generalizing id' with
  | _ id ih =>
    obtain ⟨_, _, hn, hn', hmatch⟩ := hR id id' hid
    obtain ⟨p, hp⟩ := exists_price_of_lt h (lt_size hn)
    obtain ⟨p', hp'⟩ := exists_price_of_lt h' (lt_size hn')
    suffices p = p' from ⟨p, hp, this ▸ hp'⟩
    cases hmatch with
    | terminal => rw [price_of_terminal h hn hp, price_of_terminal h' hn' hp']
    | nonterminal A i j has =>
      obtain ⟨offers, hcount, ⟨k, hk, hfirst⟩, hoffers⟩ := exists_offers_of_price h hn hp
      obtain ⟨offers', hcount', ⟨k', hk', hfirst'⟩, hoffers'⟩ := exists_offers_of_price h' hn' hp'
      have hsame : List.Forall₂ Eq offers offers' := by
        refine forall₂_of_related has hoffers hoffers' fun a a' o o' ha ho ho' => ?_
        obtain ⟨ps, hps, rfl⟩ := ho
        obtain ⟨ps', hps', rfl⟩ := ho'
        have hps_eq : List.Forall₂ Eq ps ps' := by
          refine forall₂_of_related ha.children hps hps' fun c c' q q' hc hq hq' => ?_
          obtain ⟨_, hsome, hsome'⟩ := ih c hq.1 hc
          cases hsome.symm.trans hq.2
          exact Option.some.inj (hsome'.symm.trans hq'.2)
        rw [List.forall₂_eq_eq_eq] at hps_eq
        rw [ha.rule_eq, hps_eq]
      rw [List.forall₂_eq_eq_eq] at hsame
      subst hsame
      obtain ⟨rfl, hleast⟩ := hfirst.unique hfirst'
      cases p
      cases p'
      simp_all

end Forest

end EarleyForest
