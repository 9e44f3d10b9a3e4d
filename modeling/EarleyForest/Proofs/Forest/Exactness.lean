import EarleyForest.Proofs.Forest.Construction
import EarleyForest.Proofs.Parser.Recognition

/-!
# Exact forests

A forest is exact for `w` read as `start` when its nodes stand for tokens and live nonterminals, and
the alternatives of a node are all the ways to derive it, in ascending order (`Forest.IsExact`).
Parsing makes exact forests only (`Grammar.isExact_of_parseFrom`).
-/

namespace EarleyForest

variable {T N : Type} [DecidableEq N] [SearchKey N] {g : Grammar T N} {start : N} {w : List T}

/-! ## Lists that are related element by element -/

section Related

variable {α β : Type} {R : α → β → Prop} {l : List α} {l' : List β}

theorem exists_of_mem_right (h : List.Forall₂ R l l') {y : β} (hy : y ∈ l') : ∃ x ∈ l, R x y := by
  induction h with
  | nil => cases hy
  | @cons x _ _ _ hx _ ih =>
    rcases List.mem_cons.1 hy with rfl | hy
    · exact ⟨x, List.mem_cons_self, hx⟩
    · obtain ⟨x, hmem, hx⟩ := ih hy
      exact ⟨x, List.mem_cons_of_mem _ hmem, hx⟩

theorem exists_of_mem_left (h : List.Forall₂ R l l') {x : α} (hx : x ∈ l) : ∃ y ∈ l', R x y :=
  exists_of_mem_right h.flip hx

/-- What belongs to the elements of two lists is related one for one if the elements are. -/
theorem forall₂_of_related {γ δ : Type} {P : α → γ → Prop} {P' : β → δ → Prop} {Q : γ → δ → Prop}
    {m : List γ} {m' : List δ} (h : List.Forall₂ R l l') (hm : List.Forall₂ P l m)
    (hm' : List.Forall₂ P' l' m') (hQ : ∀ x x' y y', R x x' → P x y → P' x' y' → Q y y') :
    List.Forall₂ Q m m' := by
  induction h generalizing m m' with
  | nil =>
    cases hm
    cases hm'
    exact .nil
  | cons hx _ ih =>
    cases hm with
    | cons hy hys =>
      cases hm' with
      | cons hy' hys' => exact .cons (hQ _ _ _ _ hx hy hy') (ih hys hys')

theorem pairwise_of_forall₂ {P : α → α → Prop} {Q : β → β → Prop} (h : List.Forall₂ R l l')
    (hl : l.Pairwise P) (hQ : ∀ {x y : α} {x' y' : β}, R x x' → R y y' → P x y → Q x' y') :
    l'.Pairwise Q := by
  induction h with
  | nil => exact .nil
  | cons hx hs ih =>
    obtain ⟨hlt, hl⟩ := List.pairwise_cons.1 hl
    refine List.pairwise_cons.2 ⟨fun y' hy' => ?_, ih hl⟩
    obtain ⟨y, hy, hyy'⟩ := exists_of_mem_right hs hy'
    exact hQ hx hyy' (hlt y hy)

end Related

/-! ## Exact forests -/

/-- The ways are those to derive `A` from `i` to `j` in `w`, ascending by rule and then by split. -/
structure AreWays (g : Grammar T N) (w : List T) (A : N) (i j : Nat)
    (ways : List (RuleId × List Nat)) : Prop where
  ne_nil : ways ≠ []
  mem_iff : ∀ {rule : RuleId} {split : List Nat}, (rule, split) ∈ ways ↔
    ∃ r, g.rule? rule = some r ∧ r.lhs = A ∧ IsSplit g.rules.toList w r.rhs split i j
  ascending : ways.Pairwise fun p q =>
    p.1 < q.1 ∨ p.1 = q.1 ∧ List.Lex (· < ·) p.2 q.2

/-- The forest holds the derivations of `w` from `start` and nothing else. Its tokens from `base` on
are those of `w`. -/
structure Forest.IsExact (f : Forest g) (start : N) (w : List T) (base : Nat) : Prop where
  base_le : base ≤ f.tokens.size
  kinds : w = (f.tokens.toList.drop base).map Token.kind
  indexed : f.arena.IsIndexed
  token : ∀ {id token : Nat}, f.node? id = some (.terminal token) →
    base ≤ token ∧ token < f.tokens.size
  node : ∀ {id : NodeId} {A : N} {s t : Nat} {alternatives : List Alternative},
    f.node? id = some (.nonterminal A s t alternatives) →
    ∃ i j ways, s = base + i ∧ t = base + j ∧ IsLive g start w A i j ∧ AreWays g w A i j ways ∧
      List.Forall₂ (Follows g f.arena.nodes f.tokens base i j) ways alternatives
  rooted : Growth.IsRooted f.arena.nodes
  root : f.root? = some 0 ∧
    ∃ alternatives, f.node? 0 = some (.nonterminal start base f.tokens.size alternatives)

variable [DecidableEq T]

theorem Forest.isExact_ofChart {chart : Chart g w.length} (h : chart.Reads start w)
    (hg : g.rules.size ≤ 4294967296) (hend : chart.reached = w.length)
    (hy : Yields g.rules.toList [.nonterminal start] w) {tokens : Array (Token T)} {base : Nat}
    (hbase : base ≤ tokens.size) (hkinds : w = (tokens.toList.drop base).map Token.kind) :
    (Forest.ofChart tokens base w chart start).IsExact start w base := by
  obtain ⟨growth, done, hgrow, hpending, hinv, hrooted, hroot⟩ :=
    Chart.grow_spec h hg hkinds (isLive_start hy)
  have hf : Forest.ofChart tokens base w chart start =
      ⟨tokens, growth.arena, some 0, chart.itemCount⟩ := by rw [Forest.ofChart, hgrow]
  rw [hf]
  refine ⟨hbase, hkinds, hinv.indexed, hinv.token, fun {id A s t alternatives} hn => ?_, hrooted,
    rfl, ?_⟩
  · obtain ⟨i, j, hs, ht, hlive, hall⟩ := hinv.node hn
    have hdone : done id = g.alternatives A := by
      rcases hinv.finished hn with hmem | hcur | hdone
      · rw [hpending] at hmem
        cases hmem
      · cases hcur
      · exact hdone
    rw [hdone] at hall
    exact ⟨i, j, _, hs, ht, hlive, ⟨h.ways_ne_nil hg hend hlive, h.mem_ways_iff hg hend hlive,
      Chart.pairwise_ways hg chart _ A⟩, hall⟩
  · have hlen : base + w.length = tokens.size := by
      rw [hkinds, List.length_map, List.length_drop, Array.length_toList]
      omega
    rwa [hlen] at hroot

/-- A parse that succeeds makes the exact forest of the kinds that are left. -/
theorem Grammar.isExact_of_parseFrom (hg : g.rules.size < 4294967296) {config : ParserConfig}
    {stream : TokenStream T} {f : Forest g} (h : (g.parseFrom config stream start).1 = .ok f) :
    f.tokens = stream.tokens ∧
      f.IsExact start (stream.rest.map Token.kind) stream.position := by
  obtain ⟨chart, hreads, hy, hend, rfl⟩ := parseFrom_eq_ok (Nat.le_of_lt hg) h
  exact ⟨rfl, Forest.isExact_ofChart hreads (Nat.le_of_lt hg) hend hy stream.position_le rfl⟩

end EarleyForest
