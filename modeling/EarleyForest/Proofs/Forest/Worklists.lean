import EarleyForest.Parser.Worklists
import EarleyForest.Proofs.Chart.Worklists
import EarleyForest.Proofs.Forest.Calls
import EarleyForest.Proofs.Forest.Construction
import EarleyForest.Proofs.Grammar.Building

/-!
# The worklist of a forest ends

Whatever a chart with items in their places makes of a grammar, and whether or not its numbers name
the rules that they should, nodes are asked for within the input and for nonterminals that have
rules (`Growth.Fits`). There are not many such nodes and each is made once, so the worklist runs
empty (`Growth.Fits.ends`). Of tokens there are not more nodes than tokens
(`Arena.IsIndexed.countP_token_le`).
-/

namespace EarleyForest

variable {T N : Type}

/-! ## The nodes of tokens -/

/-- The token that the node stands for. -/
def Node.token? : Node N → Option Nat
  | .terminal token => some token
  | .nonterminal _ _ _ _ => none

theorem Node.eq_terminal_of_token? {node : Node N} {token : Nat} (h : node.token? = some token) :
    node = .terminal token := by
  cases node with
  | terminal => cases h; rfl
  | nonterminal => cases h

section

variable [SearchKey N] {arena : Arena N}

theorem Arena.IsIndexed.nodup_nodes (h : arena.IsIndexed) : arena.nodes.toList.Nodup := by
  rw [List.nodup_iff_getElem?_ne_getElem?]
  intro id id' hlt hlt' heq
  rw [Array.getElem?_toList, Array.getElem?_toList] at heq
  have hid : id < arena.nodes.size := Nat.lt_trans hlt hlt'
  have hn : arena.nodes[id]? = some (arena.nodes[id].append []) := by
    rw [Node.append_nil, Array.getElem?_eq_getElem hid]
  exact absurd (h.id_unique hn (heq ▸ hn)) hlt.ne

/-- There are not more nodes of tokens than tokens. -/
theorem Arena.IsIndexed.countP_token_le (h : arena.IsIndexed) {base n : Nat}
    (hn : ∀ {id token : Nat}, arena.nodes[id]? = some (.terminal token) →
      base ≤ token ∧ token < base + n) :
    arena.nodes.toList.countP (·.symbol?.isNone) ≤ n := by
  have hcount : arena.nodes.toList.countP (·.symbol?.isNone) =
      (arena.nodes.toList.filterMap Node.token?).length := by
    rw [List.length_filterMap_eq_countP]
    congr
    funext node
    cases node <;> rfl
  have hnodup : (arena.nodes.toList.filterMap Node.token?).Nodup :=
    h.nodup_nodes.filterMap fun node node' token hn hn' =>
      (Node.eq_terminal_of_token? hn).trans (Node.eq_terminal_of_token? hn').symm
  have hlen : (List.range' base n).length = n := List.length_range'
  rw [hcount, ← hlen]
  refine hnodup.length_le_of_subset fun token htoken => ?_
  obtain ⟨node, hnode, htoken⟩ := List.mem_filterMap.1 htoken
  obtain rfl := Node.eq_terminal_of_token? htoken
  obtain ⟨id, hid⟩ := List.mem_iff_getElem?.1 hnode
  rw [Array.getElem?_toList] at hid
  exact List.mem_range'_1.2 (hn hid)

end

/-! ## Nodes within the input -/

variable [DecidableEq N] [SearchKey N] {g : Grammar T N} {base n i j : Nat}

/-- The symbol can be asked for from `i` to `j` in an input of `n` tokens. -/
def Symbol.Fits (g : Grammar T N) (n : Nat) : Symbol T N → Nat → Nat → Prop
  | .terminal _, i, j => i < j ∧ j ≤ n
  | .nonterminal A, i, j => g.hasRules A = true ∧ i ≤ j ∧ j ≤ n

/-- The symbols can be asked for one by one, between the boundaries of `split`. -/
def FitAlong (g : Grammar T N) (n : Nat) : List (Symbol T N) → List Nat → Prop
  | X :: rhs, i :: j :: split => X.Fits g n i j ∧ FitAlong g n rhs (j :: split)
  | _, _ => True

/-- The node stands for one of the `n` tokens from `base` on, or for a nonterminal over some of
them. -/
def Node.Fits (g : Grammar T N) (base n : Nat) : Node N → Prop
  | .terminal token => base ≤ token ∧ token < base + n
  | .nonterminal A s t _ => g.hasRules A = true ∧ base ≤ s ∧ s ≤ t ∧ t ≤ base + n

theorem Node.fits_append_iff {node : Node N} {added : List Alternative} :
    (node.append added).Fits g base n ↔ node.Fits g base n := by
  cases node <;> rfl

theorem Symbol.Fits.le {X : Symbol T N} (h : X.Fits g n i j) : i ≤ j := by
  cases X with
  | terminal => exact h.1.le
  | nonterminal => exact h.2.1

theorem Symbol.Fits.newNode {X : Symbol T N} (h : X.Fits g n i j) :
    (Growth.newNode base X i j).Fits g base n := by
  cases X with
  | terminal =>
    obtain ⟨hij, hj⟩ := h
    exact ⟨by omega, by omega⟩
  | nonterminal A =>
    obtain ⟨hA, hij, hj⟩ := h
    exact ⟨hA, by omega, by omega, by omega⟩

theorem Grammar.hasRules_of_mem_rhs {r : Rule T N} {A : N} (hr : r ∈ g.rules)
    (hA : .nonterminal A ∈ r.rhs) : g.hasRules A = true :=
  findUndefined_eq_none_iff.1 g.findUndefined_eq r (Array.mem_toList_iff.2 hr) A hA

/-! ## Splits within the input -/

namespace Chart

variable [DecidableEq T] {chart : Chart g n} {kinds : Array T} {rule : RuleId} {r : Rule T N}
  {origin dot stop start : Nat} {X : Symbol T N}

theorem fits_of_mem_boundaries (hchart : IsPlaced chart.sets) (hr : r ∈ g.rules) (hX : X ∈ r.rhs)
    (hstop : stop ≤ n)
    (h : start ∈ chart.boundaries chart.origins kinds rule origin dot stop X) :
    X.Fits g n start stop := by
  cases X with
  | terminal kind =>
    simp only [boundaries] at h
    split at h
    · rename_i hlt
      simp only [Bool.and_eq_true, decide_eq_true_eq] at hlt
      obtain rfl := List.mem_singleton.1 (List.mem_filter.1 h).1
      exact ⟨by omega, hstop⟩
    · cases h
  | nonterminal A =>
    have horigin : start ∈ chart.origins A stop := by
      simp only [boundaries] at h
      split at h
      · have hfits := (List.mem_filter.1 h).2
        simp only [Bool.and_eq_true, decide_eq_true_eq] at hfits
        exact hfits.1
      · exact Std.ExtTreeSet.mem_toList.1 (List.mem_filter.1 h).1
    refine ⟨Grammar.hasRules_of_mem_rhs hr hX, ?_, hstop⟩
    unfold origins at horigin
    split at horigin
    · rename_i s hs
      obtain ⟨i, hi, -, rfl⟩ := ItemSet.mem_origins.1 horigin
      obtain ⟨-, -, -, ho⟩ := Item.isProper_iff.1 (hchart stop i ⟨s, hs, hi⟩)
      exact ho
    · simp at horigin

theorem fitAlong_of_mem_splitsFrom (hchart : IsPlaced chart.sets) (hr : r ∈ g.rules)
    (hstop : stop ≤ n) {behind split : List Nat}
    (hbehind : FitAlong g n (r.rhs.drop dot) (stop :: behind))
    (h : split ∈ chart.splitsFrom chart.origins kinds rule origin r.rhs dot stop behind) :
    FitAlong g n r.rhs split := by
  induction dot generalizing stop behind with
  | zero =>
    unfold splitsFrom at h
    split at h
    · obtain rfl := List.mem_singleton.1 h
      exact hbehind
    · cases h
  | succ dot ih =>
    unfold splitsFrom at h
    split at h
    · cases h
    · rename_i X hX
      obtain ⟨hdot, rfl⟩ := List.getElem?_eq_some_iff.1 hX
      obtain ⟨start, hstart, h⟩ := List.mem_flatMap.1 h
      have hfits := fits_of_mem_boundaries hchart hr (List.getElem_mem hdot) hstop hstart
      refine ih (Nat.le_trans hfits.le hstop) ?_ h
      rw [List.drop_eq_getElem_cons hdot]
      exact ⟨hfits, hbehind⟩

theorem fitAlong_of_mem_splits (hchart : IsPlaced chart.sets) (hr : r ∈ g.rules)
    (hstop : stop ≤ n) {split : List Nat}
    (h : split ∈ chart.splits chart.origins kinds rule r.rhs origin stop) :
    FitAlong g n r.rhs split := by
  refine fitAlong_of_mem_splitsFrom hchart hr hstop ?_ (List.mem_mergeSort.1 h)
  rw [List.drop_length]
  trivial

end Chart

/-! ## A forest that grows -/

namespace Growth

variable {growth : Growth N}

/-- All nodes lie within the input, those that wait too. -/
structure Fits (g : Grammar T N) (base n : Nat) (growth : Growth N) : Prop where
  indexed : growth.arena.IsIndexed
  node : ∀ {id : NodeId} {node : Node N}, growth.arena.nodes[id]? = some node → node.Fits g base n
  pending : ∀ node ∈ growth.pending, node.stop ≤ n

theorem fits_empty : Fits g base n ⟨{}, []⟩ :=
  ⟨Arena.isIndexed_empty, by simp, by simp⟩

namespace Fits

variable (h : growth.Fits g base n)
include h

theorem child {X : Symbol T N} (hX : X.Fits g n i j) :
    (growth.child base X i j).2.Fits g base n := by
  rcases child_cases h.indexed base X i j with ⟨-, hsame⟩ | ⟨-, hidx, hnodes, hpending, -⟩
  · rwa [hsame]
  refine ⟨hidx, fun hn => ?_, fun node hnode => ?_⟩
  · rw [hnodes, Arena.getElem?_push_eq_some_iff] at hn
    rcases hn with hn | ⟨-, rfl⟩
    · exact h.node hn
    · exact hX.newNode
  · rw [hpending] at hnode
    rcases List.mem_append.1 hnode with hnode | hnode
    · cases X with
      | terminal => cases hnode
      | nonterminal A =>
        obtain rfl := List.mem_singleton.1 hnode
        exact hX.2.2
    · exact h.pending node hnode

theorem children {rhs : List (Symbol T N)} {split : List Nat} (hs : FitAlong g n rhs split) :
    (growth.children base rhs split).2.Fits g base n := by
  induction rhs generalizing growth split with
  | nil => exact h
  | cons X rhs ih =>
    match split with
    | [] | [_] => exact h
    | start :: stop :: split => exact ih (h.child hs.1) hs.2

theorem alternatives {rule : RuleId} {rhs : List (Symbol T N)} {splits : List (List Nat)}
    (hs : ∀ split ∈ splits, FitAlong g n rhs split) :
    (growth.alternatives base rule rhs splits).2.Fits g base n := by
  induction splits generalizing growth with
  | nil => exact h
  | cons split splits ih =>
    rw [List.forall_mem_cons] at hs
    exact ih (h.children hs.1) hs.2

theorem addSplits {id : NodeId} {rule : RuleId} {rhs : List (Symbol T N)}
    {splits : List (List Nat)} (hs : ∀ split ∈ splits, FitAlong g n rhs split) :
    (growth.addSplits base id rule rhs splits).Fits g base n := by
  have halternatives : (growth.alternatives base rule rhs splits).2.Fits g base n :=
    h.alternatives hs
  refine ⟨halternatives.indexed.pushAlternatives id _, fun {id' node} hn => ?_,
    halternatives.pending⟩
  replace hn : (Arena.pushAlternatives _ id _).nodes[id']? = some node := hn
  rw [Arena.getElem?_pushAlternatives] at hn
  split at hn
  · obtain ⟨old, hold, rfl⟩ := Option.map_eq_some_iff.1 hn
    exact Node.fits_append_iff.2 (halternatives.node hold)
  · exact halternatives.node hn

end Fits

variable [DecidableEq T] {w : List T} {chart : Chart g w.length} {node : PendingNode N}

theorem Fits.expandBy (h : growth.Fits g base w.length) (hchart : IsPlaced chart.sets)
    (hstop : node.stop ≤ w.length) (rule : RuleId) :
    (growth.expandBy chart base node rule).Fits g base w.length := by
  unfold Growth.expandBy
  split
  · exact h
  rename_i r hr
  split
  · exact h.addSplits fun split hs =>
      Chart.fitAlong_of_mem_splits hchart (Array.mem_of_getElem? hr) hstop hs
  · exact h

theorem Fits.foldl_expandBy (h : growth.Fits g base w.length) (hchart : IsPlaced chart.sets)
    (hstop : node.stop ≤ w.length) (rules : List RuleId) :
    (rules.foldl (Growth.expandBy chart base node) growth).Fits g base w.length := by
  induction rules generalizing growth with
  | nil => exact h
  | cons rule rules ih => exact ih (h.expandBy hchart hstop rule)

omit [DecidableEq T] in
theorem Fits.keys_size_le (h : growth.Fits g base n) :
    growth.arena.keys.size ≤ g.rules.size * (n + 1) * (n + 1) := by
  refine h.indexed.keys_size_le base n fun {id A s t alternatives} hn => ?_
  obtain ⟨hA, hs, hst, ht⟩ := h.node hn
  exact ⟨Grammar.hasRules_iff.1 hA, s - base, t - base, by omega, by omega, by omega, by omega⟩

/-- The worklist runs empty before the fuel does. -/
theorem Fits.ends (fuel : Nat) (h : growth.Fits g base w.length) (hchart : IsPlaced chart.sets)
    (hfuel : growth.arena.keys.size + fuel =
      growth.pending.length + g.rules.size * (w.length + 1) * (w.length + 1) + 1) :
    ∃ growth', run chart (Chart.lookupOrigins chart.originTable) w.toArray base fuel growth =
        growth' ∧ Ends (step chart w.toArray base) growth growth'.arena ∧
      growth'.Fits g base w.length := by
  induction fuel generalizing growth with
  | zero =>
    have := h.keys_size_le
    omega
  | succ fuel ih =>
    obtain ⟨arena, pending⟩ := growth
    match pending with
    | [] => exact ⟨_, rfl, .done rfl, h⟩
    | node :: pending =>
      have hpop : Fits g base w.length ⟨arena, pending⟩ :=
        ⟨h.indexed, h.node, fun p hp => h.pending p (List.mem_cons_of_mem _ hp)⟩
      have hstop := h.pending node List.mem_cons_self
      have hbelow := growsBelow_foldl_expandBy hpop.indexed chart base node
        (g.alternatives node.symbol)
      have hfits := hpop.foldl_expandBy hchart hstop (g.alternatives node.symbol)
      rw [← expand_eq] at hbelow hfits
      have hbalance := hbelow.balance
      simp only [List.length_cons] at hfuel hbalance
      obtain ⟨growth', hrun, hends, hfits'⟩ := ih hfits (by omega)
      refine ⟨growth', hrun, .next ?_ hends, hfits'⟩
      rw [step, Chart.lookupOrigins_eq_origins]

end Growth

variable [DecidableEq T] {w : List T} {chart : Chart g w.length} {start : N}

/-- The forest of a chart is what the worklist ends with. -/
theorem Chart.growth_ends (base : Nat) (hchart : IsPlaced chart.sets)
    (hstart : g.hasRules start = true) :
    Ends (Growth.step chart w.toArray base) (.start base w.length start)
        (chart.grow base w start).arena ∧
      (chart.grow base w start).Fits g base w.length := by
  let X : Symbol T N := .nonterminal start
  have hfirst : (Growth.child base ⟨{}, []⟩ X 0 w.length).2.Fits g base w.length :=
    Growth.fits_empty.child ⟨hstart, Nat.zero_le _, Nat.le_refl _⟩
  have hbalance : (Growth.child base ⟨{}, []⟩ X 0 w.length).2.arena.keys.size + 0 =
      0 + (Growth.child base ⟨{}, []⟩ X 0 w.length).2.pending.length :=
    (Growth.grows_child Arena.isIndexed_empty base X 0 w.length).balance
  rw [grow_eq, Growth.start_eq T]
  obtain ⟨growth, hrun, hends, hfits⟩ :=
    hfirst.ends (g.rules.size * (w.length + 1) * (w.length + 1) + 1) hchart (by omega)
  rw [hrun]
  exact ⟨hends, hfits⟩

end EarleyForest
