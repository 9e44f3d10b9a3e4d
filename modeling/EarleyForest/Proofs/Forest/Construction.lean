import EarleyForest.Parser.Worklists
import EarleyForest.Proofs.Forest.Growth
import EarleyForest.Proofs.Forest.Ways
import Mathlib.Data.List.Forall2

/-!
# The construction of a forest

While a forest grows out of the chart of a reading, its nodes stand for tokens and for live
nonterminals, and the alternatives of a node follow the ways to derive it with the rules done so far
(`Growth.Inv`). Pending nodes have no rules done, the node at work has some, all others have all of
them. Every node but the first is the child of an older one (`Growth.IsRooted`). The fuel is enough
to leave no node pending (`run_spec`): there are not more nodes that can wait than live nonterminals
and ranges.
-/

namespace EarleyForest

variable {T N : Type} [DecidableEq N] [SearchKey N] {g : Grammar T N} {start : N} {w : List T}
  {tokens : Array (Token T)} {base i j k p q : Nat}

/-! ## Parts that a symbol stands for -/

/-- In a reading of `w` as `start`, `X` stands for what is read from `i` to `j`. -/
def IsPart (g : Grammar T N) (start : N) (w : List T) : Symbol T N → Nat → Nat → Prop
  | .terminal kind, i, j => j = i + 1 ∧ w[i]? = some kind
  | .nonterminal A, i, j => IsLive g start w A i j

theorem Item.IsValid.isPart {item : Item} {X : Symbol T N} (h : item.IsValid g start w p)
    (hX : item.next? g = some X) (hpq : p ≤ q) (hq : q ≤ w.length)
    (hy : Yields g.rules.toList [X] (segment w p q)) : IsPart g start w X p q := by
  cases X with
  | terminal kind => exact (yields_terminal_iff hpq hq).1 hy
  | nonterminal A => exact ⟨hpq, hq, h.leftContext hX, hy⟩

theorem IsPart.token_range {X : Symbol T N} {token : Nat} (h : IsPart g start w X p q)
    (htokens : w = (tokens.toList.drop base).map Token.kind)
    (hnew : Growth.newNode base X p q = .terminal token) : base ≤ token ∧ token < tokens.size := by
  cases X with
  | nonterminal => cases hnew
  | terminal kind =>
    cases hnew
    have hp := (List.getElem?_eq_some_iff.1 h.2).1
    rw [htokens, List.length_map, List.length_drop, Array.length_toList] at hp
    omega

theorem IsPart.isLive {X : Symbol T N} {A : N} {s t : Nat} {alternatives : List Alternative}
    (h : IsPart g start w X p q)
    (hnew : Growth.newNode base X p q = .nonterminal A s t alternatives) :
    s = base + p ∧ t = base + q ∧ alternatives = [] ∧ IsLive g start w A p q := by
  cases X with
  | terminal => cases hnew
  | nonterminal A =>
    cases hnew
    exact ⟨rfl, rfl, rfl, h⟩

theorem Tiles.cons {nodes : Array (Node N)} {X : Symbol T N} {Xs : List (Symbol T N)}
    {id : NodeId} {ids : List NodeId} {bounds : List Nat} {old : List Alternative}
    (htokens : w = (tokens.toList.drop base).map Token.kind) (hX : IsPart g start w X p q)
    (h : nodes[id]? = some ((Growth.newNode base X p q).append old))
    (hs : Tiles nodes tokens Xs ids bounds (base + q) k) :
    Tiles nodes tokens (X :: Xs) (id :: ids) ((base + p) :: bounds) (base + p) k := by
  cases X with
  | terminal kind =>
    obtain ⟨rfl, hkind⟩ := hX
    rw [htokens, List.getElem?_map, List.getElem?_drop, Array.getElem?_toList] at hkind
    obtain ⟨t, ht, rfl⟩ := Option.map_eq_some_iff.1 hkind
    exact .terminal h ht hs
  | nonterminal A => exact .nonterminal h (Nat.add_le_add_left hX.le base) hs

/-! ## The invariant -/

/-- The alternative is by the rule of the way, and its children cover the range along the split. -/
def Follows (g : Grammar T N) (nodes : Array (Node N)) (tokens : Array (Token T)) (base i j : Nat)
    (way : RuleId × List Nat) (a : Alternative) : Prop :=
  a.rule = way.1 ∧ ∃ r, g.rule? way.1 = some r ∧
    Tiles nodes tokens r.rhs a.children (way.2.map (base + ·)) (base + i) (base + j)

theorem Follows.mono {nodes nodes' : Array (Node N)} {way : RuleId × List Nat} {a : Alternative}
    (h : Follows g nodes tokens base i j way a) (hk : Keeps nodes nodes') :
    Follows g nodes' tokens base i j way a := by
  obtain ⟨hrule, r, hr, ht⟩ := h
  exact ⟨hrule, r, hr, ht.mono hk⟩

namespace Growth

variable [DecidableEq T]

/-- Nodes stand for parts of the input, and the node `id` has an alternative for each way to derive
it with the rules `done id`. -/
structure Inv (chart : Chart g w.length) (start : N) (tokens : Array (Token T)) (base : Nat)
    (growth : Growth N) (current? : Option NodeId) (done : NodeId → List RuleId) : Prop where
  indexed : growth.arena.IsIndexed
  token : ∀ {id token : Nat}, growth.arena.nodes[id]? = some (.terminal token) →
    base ≤ token ∧ token < tokens.size
  node : ∀ {id : NodeId} {A : N} {s t : Nat} {alternatives : List Alternative},
    growth.arena.nodes[id]? = some (.nonterminal A s t alternatives) →
    ∃ i j, s = base + i ∧ t = base + j ∧ IsLive g start w A i j ∧
      List.Forall₂ (Follows g growth.arena.nodes tokens base i j)
        (chart.ways w.toArray i j (done id)) alternatives
  pending : ∀ p ∈ growth.pending, done p.id = [] ∧ current? ≠ some p.id ∧
    ∃ alternatives, growth.arena.nodes[p.id]? =
      some (.nonterminal p.symbol (base + p.start) (base + p.stop) alternatives)
  nodup : (growth.pending.map PendingNode.id).Nodup
  current : ∀ {id}, current? = some id → id < growth.arena.nodes.size
  fresh : ∀ {id}, growth.arena.nodes.size ≤ id → done id = []
  finished : ∀ {id : NodeId} {A : N} {s t : Nat} {alternatives : List Alternative},
    growth.arena.nodes[id]? = some (.nonterminal A s t alternatives) →
    id ∈ growth.pending.map PendingNode.id ∨ current? = some id ∨ done id = g.alternatives A

variable {chart : Chart g w.length} {growth : Growth N} {current? : Option NodeId}
  {done : NodeId → List RuleId} {X : Symbol T N} {r : Rule T N} {rule : RuleId}

theorem Inv.pending_lt (h : Inv chart start tokens base growth current? done) {id : NodeId}
    (hid : id ∈ growth.pending.map PendingNode.id) : id < growth.arena.nodes.size := by
  obtain ⟨p, hp, rfl⟩ := List.mem_map.1 hid
  obtain ⟨-, -, _, hn⟩ := h.pending p hp
  exact (Array.getElem?_eq_some_iff.1 hn).1

theorem Inv.child (h : Inv chart start tokens base growth current? done)
    (htokens : w = (tokens.toList.drop base).map Token.kind) (hX : IsPart g start w X p q) :
    Inv chart start tokens base (growth.child base X p q).2 current? done := by
  have hkeeps := (grows_child h.indexed base X p q).keeps
  rcases child_cases h.indexed base X p q with ⟨-, hsame⟩ | ⟨-, hidx, hnodes, hpending, -⟩
  · rwa [hsame]
  have hnode {id : NodeId} {node : Node N} :
      (growth.child base X p q).2.arena.nodes[id]? = some node ↔
        growth.arena.nodes[id]? = some node ∨
          id = growth.arena.nodes.size ∧ newNode base X p q = node := by
    rw [hnodes]
    exact Arena.getElem?_push_eq_some_iff
  have hsize : (growth.child base X p q).2.arena.nodes.size = growth.arena.nodes.size + 1 := by
    rw [hnodes, Array.size_push]
  refine {
    indexed := hidx
    token := fun hn => ?token
    node := fun hn => ?node
    pending := fun p' hp => ?pending
    nodup := ?nodup
    current := fun hcur => hsize ▸ Nat.lt_succ_of_lt (h.current hcur)
    fresh := fun hid => h.fresh (Nat.le_of_succ_le (Nat.le_trans (Nat.le_of_eq hsize.symm) hid))
    finished := fun hn => ?finished }
  case token =>
    rcases hnode.1 hn with hn | ⟨-, hnew⟩
    · exact h.token hn
    · exact hX.token_range htokens hnew
  case node =>
    rcases hnode.1 hn with hn | ⟨rfl, hnew⟩
    · obtain ⟨i, j, hi, hj, hlive, hall⟩ := h.node hn
      exact ⟨i, j, hi, hj, hlive, hall.imp fun _ _ hf => hf.mono hkeeps⟩
    · obtain ⟨rfl, rfl, rfl, hlive⟩ := hX.isLive hnew
      refine ⟨p, q, rfl, rfl, hlive, ?_⟩
      rw [h.fresh (Nat.le_refl _)]
      exact .nil
  case pending =>
    rw [hpending] at hp
    rcases List.mem_append.1 hp with hp | hp
    · cases X with
      | terminal => cases hp
      | nonterminal A =>
        obtain rfl := List.mem_singleton.1 hp
        exact ⟨h.fresh (Nat.le_refl _), fun hcur => absurd (h.current hcur) (Nat.lt_irrefl _),
          [], hnode.2 (.inr ⟨rfl, rfl⟩)⟩
    · obtain ⟨hdone, hcur, alternatives, hn⟩ := h.pending p' hp
      exact ⟨hdone, hcur, alternatives, hnode.2 (.inl hn)⟩
  case nodup =>
    rw [hpending]
    cases X with
    | terminal => exact h.nodup
    | nonterminal A =>
      exact List.nodup_cons.2 ⟨fun hmem => absurd (h.pending_lt hmem) (Nat.lt_irrefl _), h.nodup⟩
  case finished =>
    rw [hpending]
    rcases hnode.1 hn with hn | ⟨rfl, hnew⟩
    · refine (h.finished hn).imp_left fun hmem => ?_
      rw [List.map_append]
      exact List.mem_append_right _ hmem
    · cases X with
      | terminal => cases hnew
      | nonterminal A => exact .inl List.mem_cons_self

/-- The nodes for what is behind the dot of a valid item. -/
theorem Inv.children (h : Inv chart start tokens base growth current? done)
    (htokens : w = (tokens.toList.drop base).map Token.kind) {item : Item}
    (hitem : item.IsValid g start w p) (hr : g.rule? item.rule = some r) {Xs : List (Symbol T N)}
    (hrest : r.rhs.drop item.dot = Xs) {split : List Nat}
    (hs : IsSplit g.rules.toList w Xs split p k) (hk : k ≤ w.length) :
    Inv chart start tokens base (growth.children base Xs split).2 current? done ∧
      Tiles (growth.children base Xs split).2.arena.nodes tokens Xs
        (growth.children base Xs split).1 (split.map (base + ·)) (base + p) (base + k) := by
  induction hs generalizing growth item with
  | nil i => exact ⟨h, .nil _⟩
  | @cons X Xs split p q k hpq hX hs ih =>
    have hnext : item.next? g = some X := Item.next?_of_drop hr hrest
    have hpart := hitem.isPart hnext hpq (Nat.le_trans hs.le hk) hX
    have hitem' := hitem.advance hnext hpq (Nat.le_trans hs.le hk) hX
    obtain ⟨old, hn⟩ := exists_child h.indexed base X p q
    have hchild := h.child htokens hpart
    obtain ⟨hinv, htiles⟩ := ih hchild hitem' hr (drop_eq_cons hrest).2 hk
    have hgrows := grows_children hchild.indexed base Xs split
    obtain ⟨s, rfl⟩ := hs.exists_eq_cons
    exact ⟨hinv, htiles.cons htokens hpart (hgrows.nodes _ _ hn)⟩

theorem Inv.alternatives (h : Inv chart start tokens base growth current? done)
    (hg : g.rules.size ≤ 4294967296)
    (htokens : w = (tokens.toList.drop base).map Token.kind) (hr : g.rule? rule = some r)
    (hlive : IsLive g start w r.lhs i j) {splits : List (List Nat)}
    (hs : ∀ split ∈ splits, IsSplit g.rules.toList w r.rhs split i j) :
    Inv chart start tokens base (growth.alternatives base rule r.rhs splits).2 current? done ∧
      List.Forall₂
        (Follows g (growth.alternatives base rule r.rhs splits).2.arena.nodes tokens base i j)
        (splits.map (rule, ·)) (growth.alternatives base rule r.rhs splits).1 := by
  induction splits generalizing growth with
  | nil => exact ⟨h, .nil⟩
  | cons split splits ih =>
    have hi : i ≤ w.length := Nat.le_trans hlive.le hlive.le_length
    have hitem := Item.isValid_start hg ((Grammar.mem_alternatives_iff_rule? hg).2 ⟨r, hr, rfl⟩)
      hi hlive.context
    obtain ⟨hchildren, htiles⟩ := h.children htokens hitem hr rfl
      (hs split List.mem_cons_self) hlive.le_length
    obtain ⟨hinv, hall⟩ := ih hchildren fun s hmem => hs s (List.mem_cons_of_mem _ hmem)
    have hkeeps := (grows_alternatives hchildren.indexed base rule r.rhs splits).keeps
    exact ⟨hinv, .cons ⟨rfl, r, hr, htiles.mono hkeeps⟩ hall⟩

/-- The node at work gets the alternatives of one rule. -/
theorem Inv.settle {x : NodeId} (h : Inv chart start tokens base growth (some x) done)
    {added : List Alternative} (hadded : ∀ {i j : Nat} {A : N} {alternatives : List Alternative},
      growth.arena.nodes[x]? = some (.nonterminal A (base + i) (base + j) alternatives) →
        List.Forall₂ (Follows g growth.arena.nodes tokens base i j)
          (chart.waysBy w.toArray i j rule) added) :
    Inv chart start tokens base { growth with arena := growth.arena.pushAlternatives x added }
      (some x) fun id => if x = id then done id ++ [rule] else done id := by
  have hkeeps := Arena.keeps_pushAlternatives growth.arena x added
  have hsize := Arena.size_pushAlternatives growth.arena x added
  refine {
    indexed := h.indexed.pushAlternatives x added
    token := fun {id token} hn => ?token
    node := fun {id A s t alternatives} hn => ?node
    pending := fun p hp => ?pending
    nodup := h.nodup
    current := fun hcur => Nat.lt_of_lt_of_eq (h.current hcur) hsize.symm
    fresh := fun {id} hid => ?fresh
    finished := fun {id A s t alternatives} hn => ?finished }
  case token =>
    rw [Arena.getElem?_pushAlternatives] at hn
    split at hn
    · obtain ⟨node, hnode, hn⟩ := Option.map_eq_some_iff.1 hn
      rw [Node.append_eq_terminal_iff.1 hn] at hnode
      exact h.token hnode
    · exact h.token hn
  case node =>
    rw [Arena.getElem?_pushAlternatives] at hn
    split at hn
    · subst id
      obtain ⟨node, hnode, hn⟩ := Option.map_eq_some_iff.1 hn
      obtain ⟨old, rfl, rfl⟩ := Node.append_eq_nonterminal_iff.1 hn
      obtain ⟨i, j, rfl, rfl, hlive, hall⟩ := h.node hnode
      refine ⟨i, j, rfl, rfl, hlive, ?_⟩
      rw [if_pos rfl, Chart.ways_append]
      exact (List.rel_append hall (hadded hnode)).imp fun _ _ hf => hf.mono hkeeps
    · rename_i hne
      obtain ⟨i, j, hi, hj, hlive, hall⟩ := h.node hn
      rw [if_neg hne]
      exact ⟨i, j, hi, hj, hlive, hall.imp fun _ _ hf => hf.mono hkeeps⟩
  case pending =>
    obtain ⟨hdone, hcur, alternatives, hn⟩ := h.pending p hp
    have hne : x ≠ p.id := fun heq => hcur (congrArg some heq)
    obtain ⟨_, hn⟩ := hkeeps.nonterminal hn
    exact ⟨by rw [if_neg hne, hdone], hcur, _, hn⟩
  case fresh =>
    have hid : growth.arena.nodes.size ≤ id := Nat.le_trans (Nat.le_of_eq hsize.symm) hid
    have hne : x ≠ id := by
      intro heq
      subst heq
      exact Nat.not_lt_of_le hid (h.current rfl)
    rw [if_neg hne]
    exact h.fresh hid
  case finished =>
    by_cases hne : x = id
    · exact .inr (.inl (congrArg some hne))
    · rw [Arena.getElem?_pushAlternatives, if_neg hne] at hn
      rw [if_neg hne]
      exact h.finished hn

/-- A pending node is taken to work. -/
theorem Inv.pop {arena : Arena N} {node : PendingNode N} {pending : List (PendingNode N)}
    (h : Inv chart start tokens base ⟨arena, node :: pending⟩ none done) :
    Inv chart start tokens base ⟨arena, pending⟩ (some node.id) done := by
  obtain ⟨hnot, hnodup⟩ := List.nodup_cons.1 h.nodup
  refine ⟨h.indexed, h.token, h.node, fun p hp => ?_, hnodup, fun {id} hcur => ?_, h.fresh,
    fun {id A s t alternatives} hn => ?_⟩
  · obtain ⟨hdone, -, hn⟩ := h.pending p (List.mem_cons_of_mem _ hp)
    refine ⟨hdone, fun heq => hnot ?_, hn⟩
    rw [Option.some.inj heq]
    exact List.mem_map_of_mem hp
  · cases hcur
    exact h.pending_lt List.mem_cons_self
  · rcases h.finished hn with hmem | hnone | hdone
    · rcases List.mem_cons.1 hmem with rfl | hmem
      · exact .inr (.inl rfl)
      · exact .inl hmem
    · cases hnone
    · exact .inr (.inr hdone)

/-- A node at work is finished when it has all its rules done. -/
theorem Inv.finish {x : NodeId} {A : N} {s t : Nat} {alternatives : List Alternative}
    (h : Inv chart start tokens base growth (some x) done)
    (hn : growth.arena.nodes[x]? = some (.nonterminal A s t alternatives))
    (hdone : done x = g.alternatives A) : Inv chart start tokens base growth none done := by
  refine ⟨h.indexed, h.token, h.node, fun p hp => ?_, h.nodup, nofun, h.fresh,
    fun {id A' s' t' alternatives'} hn' => ?_⟩
  · obtain ⟨hdone, -, hn⟩ := h.pending p hp
    exact ⟨hdone, nofun, hn⟩
  · rcases h.finished hn' with hmem | hcur | hdone'
    · exact .inl hmem
    · cases hcur
      cases hn.symm.trans hn'
      exact .inr (.inr hdone)
    · exact .inr (.inr hdone')

/-! ## The alternatives of a node -/

/-- The step of `expand` for one rule. -/
def expandBy (chart : Chart g w.length) (base : Nat) (node : PendingNode N) (growth : Growth N)
    (rule : RuleId) : Growth N :=
  match g.rule? rule with
  | none => growth
  | some r =>
    if chart.contains node.stop ⟨rule, r.rhs.length, node.start⟩ then
      growth.addSplits base node.id rule r.rhs
        (chart.splits chart.origins w.toArray rule r.rhs node.start node.stop)
    else growth

theorem expand_eq (chart : Chart g w.length) (base : Nat) (growth : Growth N)
    (node : PendingNode N) :
    expand chart (Chart.lookupOrigins chart.originTable) w.toArray base growth node =
      (g.alternatives node.symbol).foldl (expandBy chart base node) growth := by
  rw [Chart.lookupOrigins_eq_origins]
  rfl

theorem growsBelow_expandBy (h : growth.arena.IsIndexed) (chart : Chart g w.length) (base : Nat)
    (node : PendingNode N) (rule : RuleId) :
    GrowsBelow node.id growth (growth.expandBy chart base node rule) := by
  unfold expandBy
  split
  · exact .refl h
  · split
    · exact growsBelow_addSplits h base node.id rule _ _
    · exact .refl h

theorem growsBelow_foldl_expandBy (h : growth.arena.IsIndexed) (chart : Chart g w.length)
    (base : Nat) (node : PendingNode N) (rules : List RuleId) :
    GrowsBelow node.id growth (rules.foldl (expandBy chart base node) growth) := by
  induction rules generalizing growth with
  | nil => exact .refl h
  | cons rule rules ih =>
    have hstep := growsBelow_expandBy h chart base node rule
    exact hstep.trans (ih hstep.indexed)

section Reads

variable {node : PendingNode N} {alternatives : List Alternative} {rules : List RuleId}
  (hreads : chart.Reads start w) (hg : g.rules.size ≤ 4294967296)
  (htokens : w = (tokens.toList.drop base).map Token.kind)
include hreads hg htokens

theorem Inv.expandBy (h : Inv chart start tokens base growth (some node.id) done)
    (hn : growth.arena.nodes[node.id]? =
      some (.nonterminal node.symbol (base + node.start) (base + node.stop) alternatives))
    (hrule : rule ∈ g.alternatives node.symbol) :
    Inv chart start tokens base (growth.expandBy chart base node rule) (some node.id)
      fun id => if node.id = id then done id ++ [rule] else done id := by
  obtain ⟨r, hr, hA⟩ := (Grammar.mem_alternatives_iff_rule? hg).1 hrule
  obtain ⟨i, j, hi, hj, hlive, -⟩ := h.node hn
  obtain rfl := Nat.add_left_cancel hi
  obtain rfl := Nat.add_left_cancel hj
  rw [← hA] at hlive
  simp only [Growth.expandBy, hr]
  split
  · rename_i hcontains
    have hlt := (Chart.contains_iff.1 hcontains).lt_size
    obtain ⟨hinv, hall⟩ := h.alternatives hg htokens hr hlive fun split hs =>
      (hreads.mem_splits_iff hg hr hlive.context hlt).1 hs
    have hgrows := grows_alternatives h.indexed base rule r.rhs
      (chart.splits chart.origins w.toArray rule r.rhs node.start node.stop)
    refine hinv.settle fun {i j A alternatives'} hn' => ?_
    have heq := Option.some.inj ((hgrows.nodes _ _ hn).symm.trans hn')
    simp only [Node.nonterminal.injEq, Nat.add_left_cancel_iff] at heq
    obtain ⟨-, rfl, rfl, -⟩ := heq
    simpa only [Chart.waysBy, hr, hcontains, if_true] using hall
  · rename_i hcontains
    have hinv : Inv chart start tokens base
        { growth with arena := growth.arena.pushAlternatives node.id [] } (some node.id)
        fun id => if node.id = id then done id ++ [rule] else done id := by
      refine h.settle fun {i j A alternatives'} hn' => ?_
      have heq := Option.some.inj (hn.symm.trans hn')
      simp only [Node.nonterminal.injEq, Nat.add_left_cancel_iff] at heq
      obtain ⟨-, rfl, rfl, -⟩ := heq
      simp only [Chart.waysBy, hr, hcontains]
      exact .nil
    rwa [Arena.pushAlternatives_nil] at hinv

theorem Inv.foldl_expandBy (h : Inv chart start tokens base growth (some node.id) done)
    (hn : growth.arena.nodes[node.id]? =
      some (.nonterminal node.symbol (base + node.start) (base + node.stop) alternatives))
    (hrules : ∀ rule ∈ rules, rule ∈ g.alternatives node.symbol) :
    Inv chart start tokens base (rules.foldl (Growth.expandBy chart base node) growth)
      (some node.id) fun id => if node.id = id then done id ++ rules else done id := by
  induction rules generalizing growth done alternatives with
  | nil => simpa using h
  | cons rule rules ih =>
    have hstep := h.expandBy hreads hg htokens hn (hrules rule List.mem_cons_self)
    have hbelow := growsBelow_expandBy h.indexed chart base node rule
    obtain ⟨_, hn'⟩ := hbelow.keeps.nonterminal hn
    have hall := ih hstep hn' fun rule' hmem => hrules rule' (List.mem_cons_of_mem _ hmem)
    refine (congrArg (Inv chart start tokens base _ _) (funext fun id => ?_)).mp hall
    split <;> simp

/-- A pending node gets all its alternatives. -/
theorem Inv.expand {arena : Arena N} {pending : List (PendingNode N)}
    (h : Inv chart start tokens base ⟨arena, node :: pending⟩ none done) :
    Inv chart start tokens base
      (expand chart (Chart.lookupOrigins chart.originTable) w.toArray base ⟨arena, pending⟩ node)
      none (fun id => if node.id = id then g.alternatives node.symbol else done id) := by
  obtain ⟨hdone, -, alternatives, hn⟩ := h.pending node List.mem_cons_self
  have hall := h.pop.foldl_expandBy hreads hg htokens hn fun rule hrule => hrule
  have hbelow := growsBelow_foldl_expandBy h.pop.indexed chart base node
    (g.alternatives node.symbol)
  obtain ⟨_, hn'⟩ := hbelow.keeps.nonterminal hn
  rw [expand_eq]
  refine (congrArg (Inv chart start tokens base _ _) (funext fun id => ?_)).mp
    (hall.finish hn' (by simp [hdone]))
  split
  · subst id
    rw [hdone, List.nil_append]
  · rfl

/-! ## The run -/

omit hreads hg htokens in
theorem Inv.keys_size_le (h : Inv chart start tokens base growth current? done) :
    growth.arena.keys.size ≤ g.rules.size * (w.length + 1) * (w.length + 1) := by
  refine h.indexed.keys_size_le base w.length fun hn => ?_
  obtain ⟨i, j, hi, hj, hlive, -⟩ := h.node hn
  obtain ⟨r, hr, hA, -⟩ := hlive.yields.exists_rule
  exact ⟨⟨r, Array.mem_toList_iff.1 hr, hA⟩, i, j, hi, hj, Nat.le_trans hlive.le hlive.le_length,
    hlive.le_length⟩

/-- With enough fuel no node stays pending. -/
theorem run_spec {fuel : Nat} (h : Inv chart start tokens base growth none done)
    (hrooted : IsRooted growth.arena.nodes)
    (hfuel : growth.arena.keys.size + fuel =
      growth.pending.length + g.rules.size * (w.length + 1) * (w.length + 1) + 1) :
    ∃ growth' done', run chart (Chart.lookupOrigins chart.originTable) w.toArray base fuel growth =
        growth' ∧ growth'.pending = [] ∧ Inv chart start tokens base growth' none done' ∧
      IsRooted growth'.arena.nodes ∧ Keeps growth.arena.nodes growth'.arena.nodes := by
  induction fuel generalizing growth done with
  | zero =>
    have := h.keys_size_le
    omega
  | succ fuel ih =>
    obtain ⟨arena, pending⟩ := growth
    match pending with
    | [] => exact ⟨_, done, rfl, rfl, h, hrooted, .refl _⟩
    | node :: pending =>
      obtain ⟨-, -, alternatives, hn⟩ := h.pending node List.mem_cons_self
      have hbelow := growsBelow_foldl_expandBy h.pop.indexed chart base node
        (g.alternatives node.symbol)
      rw [← expand_eq] at hbelow
      have hbalance := hbelow.balance
      simp only [List.length_cons] at hfuel hbalance
      obtain ⟨growth', done', hrun, hpending, hinv, hrooted', hkeeps⟩ :=
        ih (h.expand hreads hg htokens) (hbelow.rooted hn hrooted) (by omega)
      exact ⟨growth', done', hrun, hpending, hinv, hrooted', hbelow.keeps.trans hkeeps⟩

end Reads

end Growth

theorem Growth.inv_empty [DecidableEq T] {chart : Chart g w.length} :
    Inv chart start tokens base ⟨{}, []⟩ none fun _ => [] :=
  ⟨Arena.isIndexed_empty, by simp, by simp, nofun, List.nodup_nil, nofun, fun _ => rfl, by simp⟩

omit [DecidableEq N] in
/-- The first node is asked for as any other. -/
theorem Growth.start_eq (T : Type) (base n : Nat) (start : N) : Growth.start base n start =
    (Growth.child base ⟨{}, []⟩ (.nonterminal start : Symbol T N) 0 n).2 := by
  rcases Arena.nonterminal_cases Arena.isIndexed_empty start base (base + n) with
    ⟨id, _, -, hn⟩ | ⟨hid, -⟩
  · simp at hn
  · rcases hroot : ({} : Arena N).nonterminal start base (base + n) with ⟨⟨root, isNew⟩, arena⟩
    rw [hroot] at hid
    cases hid
    simp [Growth.start, Growth.child, hroot]

/-- A forest grows from the node of `start`, which is asked for first. -/
theorem Chart.grow_eq [DecidableEq T] (chart : Chart g w.length) (base : Nat) (start : N) :
    chart.grow base w start =
      Growth.run chart (lookupOrigins chart.originTable) w.toArray base
        (g.rules.size * (w.length + 1) * (w.length + 1) + 1)
        (Growth.child base ⟨{}, []⟩ (.nonterminal start : Symbol T N) 0 w.length).2 := by
  rw [← Growth.start_eq T]
  rfl

/-- What has grown when the work is done. -/
theorem Chart.grow_spec [DecidableEq T] {chart : Chart g w.length} (h : chart.Reads start w)
    (hg : g.rules.size ≤ 4294967296) (htokens : w = (tokens.toList.drop base).map Token.kind)
    (hlive : IsLive g start w start 0 w.length) :
    ∃ growth done, chart.grow base w start = growth ∧ growth.pending = [] ∧
      Growth.Inv chart start tokens base growth none done ∧ Growth.IsRooted growth.arena.nodes ∧
      ∃ alternatives, growth.arena.nodes[0]? =
        some (.nonterminal start base (base + w.length) alternatives) := by
  have hempty : (⟨{}, []⟩ : Growth N).arena.IsIndexed := Arena.isIndexed_empty
  let X : Symbol T N := .nonterminal start
  have hinv : Growth.Inv chart start tokens base (Growth.child base ⟨{}, []⟩ X 0 w.length).2 none
      fun _ => [] :=
    Growth.inv_empty.child htokens hlive
  rw [grow_eq]
  rcases Growth.child_cases hempty base X 0 w.length with
    ⟨⟨_, hn⟩, -⟩ | ⟨-, -, hnodes, hpending, hkeys⟩
  · simp at hn
  generalize Growth.child base ⟨{}, []⟩ X 0 w.length = first at hinv hnodes hpending hkeys ⊢
  have hrooted : Growth.IsRooted first.2.arena.nodes := by
    intro id hpos hlt
    rw [hnodes] at hlt
    exact absurd hlt (Nat.not_lt_of_le hpos)
  have hroot : first.2.arena.nodes[0]? =
      some (.nonterminal start base (base + w.length) []) := by
    rw [hnodes]
    rfl
  have hfuel : first.2.arena.keys.size + (g.rules.size * (w.length + 1) * (w.length + 1) + 1) =
      first.2.pending.length + g.rules.size * (w.length + 1) * (w.length + 1) + 1 := by
    rw [hkeys, hpending, List.append_nil, show (⟨{}, []⟩ : Growth N).arena.keys.size = 0 from rfl]
    omega
  obtain ⟨growth, done, hrun, hdone, hinv', hrooted', hkeeps⟩ :=
    Growth.run_spec h hg htokens hinv hrooted hfuel
  obtain ⟨_, hn⟩ := hkeeps.nonterminal hroot
  exact ⟨growth, done, hrun, hdone, hinv', hrooted', _, hn⟩

end EarleyForest
