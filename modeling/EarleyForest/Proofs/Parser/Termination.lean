import EarleyForest.Proofs.Chart.Worklists
import EarleyForest.Proofs.Forest.SplitSearch
import EarleyForest.Proofs.Forest.Worklists
import EarleyForest.Proofs.Parser.ChartLimit

/-!
# Parsing ends without a limit

The limit on the chart is not what makes parsing end. Without one, the loops that close the sets,
that walk the items to be advanced and that give the nodes their alternatives all come to their end,
and what they leave is bounded by the grammar and the length of the input
(`Grammar.worklists_end`).
-/

namespace EarleyForest

variable {T N : Type} [DecidableEq N] [SearchKey N]

/-- The forest has nodes only for the `n` tokens from `base` on and for nonterminals over some of
them, and each of these once. -/
structure Forest.IsWithin {g : Grammar T N} (f : Forest g) (base n : Nat) : Prop where
  terminals_le : f.arena.nodes.toList.countP (·.symbol?.isNone) ≤ n
  token_range : ∀ {id : NodeId} {token : Nat}, f.node? id = some (.terminal token) →
    base ≤ token ∧ token < base + n
  range : ∀ {id : NodeId} {A : N} {s t : Nat} {as : List Alternative},
    f.node? id = some (.nonterminal A s t as) → base ≤ s ∧ s ≤ t ∧ t ≤ base + n
  unique : ∀ {id id' : NodeId} {A : N} {s t : Nat} {as as' : List Alternative},
    f.node? id = some (.nonterminal A s t as) → f.node? id' = some (.nonterminal A s t as') →
      id = id'

theorem Growth.Fits.isWithin {g : Grammar T N} {f : Forest g} {growth : Growth N} {base n : Nat}
    (h : growth.Fits g base n) (hf : f.arena = growth.arena) : f.IsWithin base n := by
  obtain ⟨tokens, arena, root?, chartItems⟩ := f
  obtain rfl : arena = growth.arena := hf
  exact ⟨h.indexed.countP_token_le h.node, h.node, fun hn => (h.node hn).2, h.indexed.key_unique⟩

variable [DecidableEq T]

/-- Without a limit all worklists of a parse end. There are not more items in the chart than can
begin at each position or before, and not more nodes in the forest than tokens and ranges. What is
parsed is the start symbol, as long as 32 bits suffice to number the rules. -/
theorem Grammar.worklists_end (g : Grammar T N) (config : ParserConfig)
    (hc : config.maxItems = none) (stream : TokenStream T) (start : N) :
    let kinds := stream.rest.map Token.kind
    let base := stream.position
    let n := stream.rest.length
    let first := (g.startOf? start).getD start
    (g.rules.size ≤ 4294967296 → first = start) ∧
    ∃ chart : Chart g kinds.length, Chart.read g config first kinds = .ok chart ∧
      Ends (Reading.step g) (.start g first kinds) (chart.sets.map ItemSet.items) ∧
      chart.itemCount ≤ ∑ i ∈ Finset.range (n + 1),
        (i + 1) * (g.rules.toList.map fun r => r.rhs.length + 1).sum ∧
      (∀ rule rhs origin stop, ∃ splits,
        chart.SearchEnds stream.tokens base rule rhs origin stop splits) ∧
      ∀ f, (g.parseFrom config stream start).1 = .ok f →
        f.chartItems = chart.itemCount ∧
        Ends (Growth.step chart kinds.toArray base) (.start base n first) f.arena ∧
        f.IsWithin base n := by
  intro kinds base n first
  have hn : kinds.length = n := List.length_map _
  obtain ⟨chart, hread⟩ := Chart.exists_read hc g first kinds
  obtain ⟨hplaced, hsize⟩ := Chart.isPlaced_of_read hread
  have hkinds (k : Nat) : stream.tokens[base + k]?.map Token.kind = kinds.toArray[k]? := by
    rw [← TokenStream.getElem?_rest, List.getElem?_toArray, List.getElem?_map]
  refine ⟨fun hg => ?_, chart, hread, Chart.reading_ends hread,
    hn ▸ Chart.itemCount_le hplaced hsize,
    fun rule rhs origin stop => ⟨_, (Chart.searchEnds_iff hkinds).2 rfl⟩, fun f hf => ?_⟩
  · cases hstart : g.startOf? start with
    | none => simp [first, hstart]
    | some A => simp [first, hstart, eq_of_startOf? hg hstart]
  · cases hstart : g.startOf? start with
    | none => simp [parseFrom, hstart] at hf
    | some A =>
      obtain rfl : first = A := by simp [first, hstart]
      obtain ⟨hends, hfits⟩ := Chart.growth_ends base hplaced (hasRules_of_startOf? hstart)
      rw [parseFrom_of_read hstart hread] at hf
      split at hf
      · obtain rfl := Except.ok.inj hf
        exact ⟨rfl, hn ▸ hends, hn ▸ hfits.isWithin rfl⟩
      · cases hf

/-- For a single token there are at most 18 items. -/
theorem Grammar.worklists_end_pairs :
    ({ maxItems := none } : ParserConfig).maxItems = none ∧
    ∃ f, (pairs.parseFrom { maxItems := none } secondOfTwo 'S').1 = .ok f ∧ f.chartItems ≤ 18 ∧
      f.IsWithin 1 1 := by
  have hc : ({ maxItems := none } : ParserConfig).maxItems = none := rfl
  obtain ⟨-, chart, -, -, hcount, -, hforest⟩ := worklists_end pairs _ hc secondOfTwo 'S'
  have hok : (pairs.parseFrom { maxItems := none } secondOfTwo 'S').1.isOk = true := by
    decide +kernel
  cases hf : (pairs.parseFrom { maxItems := none } secondOfTwo 'S').1 with
  | error e =>
    rw [hf] at hok
    cases hok
  | ok f =>
    obtain ⟨heq, -, hwithin⟩ := hforest f hf
    exact ⟨hc, f, rfl, heq ▸ hcount, hwithin⟩

end EarleyForest
