import EarleyForest.Proofs.Forest.Splits

/-!
# The ways to derive a nonterminal over a range

A nonterminal is live over a range of the input when it is called for at the beginning of the range
and derives what is in it (`IsLive`). The ways to derive it there are a rule and a split of its
right-hand side each. Those that the chart of a reading gives are all of them
(`Reads.mem_ways_iff`), in strictly ascending order (`pairwise_ways`), and a live nonterminal has
at least one (`Reads.ways_ne_nil`).
-/

namespace EarleyForest

variable {T N : Type} [DecidableEq N] [SearchKey N] {g : Grammar T N} {start A : N} {w : List T}

/-- In a reading of `w` as `start`, `A` is called for at `i` and derives what is read up to `j`. -/
structure IsLive (g : Grammar T N) (start : N) (w : List T) (A : N) (i j : Nat) : Prop where
  le : i ≤ j
  le_length : j ≤ w.length
  context : LeftContext g.rules.toList (.nonterminal A) [.nonterminal start] (w.take i)
  yields : Yields g.rules.toList [.nonterminal A] (segment w i j)

theorem isLive_start (h : Yields g.rules.toList [.nonterminal start] w) :
    IsLive g start w start 0 w.length :=
  ⟨Nat.zero_le _, Nat.le_refl _, .refl _, by rwa [segment_zero, List.take_length]⟩

namespace Chart

variable [DecidableEq T] {n i j : Nat} {rule : RuleId} {split : List Nat}

/-- The ways to derive the left-hand side of `rule` from `i` to `j` with this rule. -/
def waysBy (chart : Chart g n) (kinds : Array T) (i j : Nat) (rule : RuleId) :
    List (RuleId × List Nat) :=
  match g.rule? rule with
  | none => []
  | some r =>
    if chart.contains j ⟨rule, r.rhs.length, i⟩ then
      (chart.splits chart.origins kinds rule r.rhs i j).map (rule, ·)
    else []

/-- The ways to derive a nonterminal from `i` to `j` with the rules `rules`. -/
def ways (chart : Chart g n) (kinds : Array T) (i j : Nat) (rules : List RuleId) :
    List (RuleId × List Nat) :=
  rules.flatMap (chart.waysBy kinds i j)

theorem ways_append (chart : Chart g n) (kinds : Array T) (i j : Nat) (rules : List RuleId)
    (rule : RuleId) : chart.ways kinds i j (rules ++ [rule]) =
      chart.ways kinds i j rules ++ chart.waysBy kinds i j rule := by
  simp [ways]

theorem exists_of_mem_waysBy {chart : Chart g n} {kinds : Array T} {way : RuleId × List Nat}
    (h : way ∈ chart.waysBy kinds i j rule) : ∃ r, g.rule? rule = some r ∧ way.1 = rule ∧
      way.2 ∈ chart.splits chart.origins kinds rule r.rhs i j := by
  unfold waysBy at h
  split at h
  · cases h
  · rename_i r hr
    split at h
    · obtain ⟨split, hs, rfl⟩ := List.mem_map.1 h
      exact ⟨r, hr, rfl, hs⟩
    · cases h

/-- The ways ascend by rule and then by split. -/
theorem pairwise_ways (hg : g.rules.size ≤ 4294967296) (chart : Chart g n) (kinds : Array T)
    (A : N) : (chart.ways kinds i j (g.alternatives A)).Pairwise fun p q =>
      p.1 < q.1 ∨ p.1 = q.1 ∧ List.Lex (· < ·) p.2 q.2 := by
  refine List.pairwise_flatMap.2 ⟨fun rule _ => ?_, ?_⟩
  · unfold waysBy
    split
    · exact .nil
    · split
      · exact List.pairwise_map.2 (pairwise_splits.imp fun h => .inr ⟨rfl, h⟩)
      · exact .nil
  · refine (Grammar.pairwise_alternatives hg A).imp fun hlt p hp q hq => .inl ?_
    obtain ⟨-, -, rfl, -⟩ := exists_of_mem_waysBy hp
    obtain ⟨-, -, rfl, -⟩ := exists_of_mem_waysBy hq
    exact hlt

namespace Reads

variable {chart : Chart g w.length} (h : chart.Reads start w) (hg : g.rules.size ≤ 4294967296)
  (hend : chart.reached = w.length) (hlive : IsLive g start w A i j)
include h hg hend hlive

/-- The ways to derive a live nonterminal are the splits of its rules. -/
theorem mem_ways_iff :
    (rule, split) ∈ chart.ways w.toArray i j (g.alternatives A) ↔
      ∃ r, g.rule? rule = some r ∧ r.lhs = A ∧ IsSplit g.rules.toList w r.rhs split i j := by
  have hj : j < chart.sets.size :=
    Nat.lt_of_le_of_lt (Nat.le_trans hlive.le_length (Nat.le_of_eq hend.symm)) h.reached_lt
  simp only [ways, List.mem_flatMap]
  constructor
  · intro hx
    obtain ⟨rule', hrule, hway⟩ := hx
    obtain ⟨r, hr, hsame, hs⟩ := exists_of_mem_waysBy hway
    obtain rfl : rule = rule' := hsame
    obtain ⟨r', hr', rfl⟩ := (Grammar.mem_alternatives_iff_rule? hg).1 hrule
    cases hr.symm.trans hr'
    exact ⟨r, hr, rfl, (h.mem_splits_iff hg hr hlive.context hj).1 hs⟩
  · intro hx
    obtain ⟨r, hr, rfl, hs⟩ := hx
    refine ⟨rule, (Grammar.mem_alternatives_iff_rule? hg).2 ⟨r, hr, rfl⟩, ?_⟩
    have hy : Yields g.rules.toList (r.rhs.take r.rhs.length) (segment w i j) := by
      rw [List.take_length]
      exact hs.yields
    have hcontains := (h.contains_iff hg hr hlive.context (Nat.le_refl _)).2 ⟨hj, hlive.le, hy⟩
    simp only [waysBy, hr, hcontains, if_true]
    exact List.mem_map.2 ⟨split, (h.mem_splits_iff hg hr hlive.context hj).2 hs, rfl⟩

theorem ways_ne_nil : chart.ways w.toArray i j (g.alternatives A) ≠ [] := by
  obtain ⟨r, hr, hA, hy⟩ := hlive.yields.exists_rule
  obtain ⟨rule, hrule⟩ := Grammar.exists_rule?_of_mem hg hr
  obtain ⟨split, hs⟩ := exists_isSplit hy hlive.le hlive.le_length
  exact List.ne_nil_of_mem ((h.mem_ways_iff hg hend hlive).2 ⟨r, hrule, hA, hs⟩)

end Reads

end Chart

end EarleyForest
