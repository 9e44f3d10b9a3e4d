import EarleyForest.Proofs.Forest.Enumeration
import EarleyForest.Proofs.Forest.Runs

/-!
# The cheapest derivation

Taking the best alternative at every node leads to a derivation that weighs what the price of the
node says (`Runs.weight_eq_minCost`). No derivation weighs less, and all of them are enumerated, so
the derivation that is extracted is the cheapest of those that an iteration gives
(`cheapest_of_price`).
-/

namespace EarleyForest

variable {T N : Type} [DecidableEq N] [SearchKey N] {g : Grammar T N} {f : Forest g}

namespace Forest

/-! ## Best alternatives -/

theorem bind_best?_of_chooseBest {prices : PriceTable} {id : NodeId} {count k : Nat}
    {state state' : Unit} (h : f.chooseBest prices id count state = .ok (k, state')) :
    prices[id]?.bind Price.best? = some k := by
  unfold chooseBest at h
  split at h
  · rename_i k' hk
    cases h
    exact hk
  · cases h

mutual

/-- By best alternatives a node is unfolded to a derivation that weighs what the node costs. -/
theorem Runs.weight_eq_minCost {prices : PriceTable} (hprices : f.price = .ok prices) {id : NodeId}
    {t : ParseTree T N} {progress progress' : Progress Unit} {p : Price} :
    f.Runs (f.chooseBest prices) id progress t progress' → prices[id]? = some p →
      t.weight g = p.minCost
  | .leaf hn _, hp => by rw [ParseTree.weight_leaf, price_of_terminal hprices hn hp]
  | .branch hn hk ha hs, hp => by
    obtain ⟨k, a, ps, hbest, ha', hps, hcost⟩ := exists_best_of_price hprices hn hp
    have hsame := bind_best?_of_chooseBest hk
    rw [hp, Option.bind_some, hbest] at hsame
    cases hsame
    cases ha.symm.trans ha'
    rw [ParseTree.weight_branch, hcost, hs.sum_eq_minCost hprices (hps.imp fun _ _ h => h.2)]

theorem RunsAll.sum_eq_minCost {prices : PriceTable} (hprices : f.price = .ok prices)
    {ids : List NodeId} {ts : List (ParseTree T N)} {progress progress' : Progress Unit}
    {ps : List Price} :
    f.RunsAll (f.chooseBest prices) ids progress ts progress' →
      List.Forall₂ (fun id p => prices[id]? = some p) ids ps →
        (ts.map (ParseTree.weight g)).sum = (ps.map Price.minCost).sum
  | .nil, .nil => rfl
  | .cons h hs, .cons hp hps => by
    rw [List.map_cons, List.sum_cons, List.map_cons, List.sum_cons,
      h.weight_eq_minCost hprices hp, hs.sum_eq_minCost hprices hps]

end

/-- The derivation that is extracted is the one by best alternatives from the root. -/
theorem exists_runs_of_cheapest (hf : f.Sound) {root : NodeId} (hroot : f.root? = some root)
    {prices : PriceTable} (hprices : f.price = .ok prices) :
    ∃ parse progress, f.cheapest = .ok parse ∧
      f.Runs (f.chooseBest prices) root ⟨(), 0⟩ parse.tree progress ∧
      parse.weight = parse.tree.weight g := by
  obtain ⟨parse, hparse⟩ := hf.exists_cheapestFrom hprices (hf.root_lt root hroot)
  obtain ⟨⟨t, progress⟩, hunfold, heq⟩ := bind_eq_ok_iff.1 hparse
  cases heq
  have hruns := runs_of_unfold hunfold
  refine ⟨⟨t, progress.weight⟩, progress, ?_, hruns, hruns.weight_eq.trans (zero_add _)⟩
  simp only [cheapest, hroot, hprices]
  exact hparse

/-- The derivation that is extracted weighs what the root costs. -/
theorem exists_cheapest (hf : f.Sound) {root : NodeId} (hroot : f.root? = some root)
    {prices : PriceTable} (hprices : f.price = .ok prices) :
    ∃ parse r p, f.cheapest = .ok parse ∧ f.Unfolds root parse.tree r ∧
      parse.weight = parse.tree.weight g ∧ prices[root]? = some p ∧ parse.weight = p.minCost := by
  obtain ⟨parse, progress, hparse, hruns, hweight⟩ := exists_runs_of_cheapest hf hroot hprices
  obtain ⟨p, hp⟩ := exists_price_of_lt hprices (hf.root_lt root hroot)
  obtain ⟨r, hr⟩ := hruns.exists_unfolds
  exact ⟨parse, r, p, hparse, hr, hweight, hp, hweight.trans (hruns.weight_eq_minCost hprices hp)⟩

/-! ## Derivations that are enumerated -/

theorem weight_of_firstFrom {root : NodeId} {choices : List Choice} {next : NextParse T N}
    (h : f.firstFrom root choices = .ok next) :
    next.parse.weight = next.parse.tree.weight g := by
  obtain ⟨⟨t, progress⟩, hunfold, heq⟩ := bind_eq_ok_iff.1 h
  cases heq
  exact (runs_of_unfold hunfold).weight_eq.trans (zero_add _)

theorem weight_of_nextParse {cursor? : Option Directions} {next : NextParse T N}
    (h : f.nextParse cursor? = .ok (some next)) :
    next.parse.weight = next.parse.tree.weight g := by
  obtain ⟨root, choices, -, hfirst, -⟩ := exists_firstFrom_of_nextParse h
  exact weight_of_firstFrom hfirst

theorem Enumerates.weight_eq {cursor? : Option Directions} {nexts : List (NextParse T N)}
    (h : f.Enumerates cursor? nexts) :
    ∀ next ∈ nexts, next.parse.weight = next.parse.tree.weight g := by
  induction h with
  | done => nofun
  | next h _ ih => exact List.forall_mem_cons.2 ⟨weight_of_nextParse h, ih⟩

/-- An iteration gives what handing back each cursor gives, and ends with it. -/
theorem Enumerates.take_eq {cursor? : Option Directions} {nexts : List (NextParse T N)}
    (h : f.Enumerates cursor? nexts) (n : Nat) :
    (Parses.take n (⟨cursor?, false⟩ : Parses f)).1 =
      ((nexts.map NextParse.parse).take n).map .ok := by
  induction h generalizing n with
  | done h => cases n <;> simp [Parses.take, Parses.next, h]
  | next h _ ih => cases n <;> simp [Parses.take, Parses.next, h, ih]

/-- The record of a derivation determines it, and with it the parse. -/
theorem parse_eq_of_record {root : NodeId} {parse parse' : Parse T N} {r : List Choice}
    (h : f.Unfolds root parse.tree r) (h' : f.Unfolds root parse'.tree r)
    (hweight : parse.weight = parse.tree.weight g)
    (hweight' : parse'.weight = parse'.tree.weight g) : parse = parse' := by
  have htree : parse.tree = parse'.tree := h.tree_unique h'
  have hsame : parse.weight = parse'.weight := by rw [hweight, htree, ← hweight']
  cases parse
  exact congrArg₂ Parse.mk htree hsame

/-- A derivation whose record is enumerated is enumerated itself. -/
theorem mem_parses {root : NodeId} {nexts : List (NextParse T N)} {parse : Parse T N}
    {r : List Choice} (hweights : ∀ next ∈ nexts, next.parse.weight = next.parse.tree.weight g)
    (hunfolds : ∀ next ∈ nexts, f.Unfolds root next.parse.tree next.directions.choices)
    (hr : r ∈ nexts.map (·.directions.choices)) (h : f.Unfolds root parse.tree r)
    (hweight : parse.weight = parse.tree.weight g) : parse ∈ nexts.map NextParse.parse := by
  obtain ⟨next, hnext, rfl⟩ := List.mem_map.1 hr
  exact List.mem_map.2 ⟨next, hnext,
    parse_eq_of_record (hunfolds next hnext) h (hweights next hnext) hweight⟩

/-! ## The least of all derivations -/

/-- The derivation that is extracted from a forest that can be priced is one of those that an
iteration gives, none of which weighs less, and it weighs what the prices say. -/
theorem cheapest_of_price (f : Forest g) (hf : f.InRange) (htokens : f.HasTokens) (root : NodeId)
    (hroot : f.root? = some root) (prices : PriceTable) (h : f.price = .ok prices) :
    ∃ (parse : Parse T N) (parses : List (Parse T N)), f.cheapest = .ok parse ∧
      (∀ n, ((Parses.start f).take n).1 = (parses.take n).map .ok) ∧ parse ∈ parses ∧
      f.minCost = .ok (some parse.weight) ∧ (∀ other ∈ parses, parse.weight ≤ other.weight) ∧
      ∀ p : PricedForest g, p.forest = f →
        p.cheapest.1 = .ok parse ∧ p.minCost.1 = .ok (some parse.weight) := by
  have hsound := sound_of_price hf htokens h
  obtain ⟨parse, r, p, hparse, hr, hweight, hp, hcost⟩ := exists_cheapest hsound hroot h
  obtain ⟨nexts, hnexts, hrecords, hunfolds⟩ := hsound.exists_enumerates hroot
  have hmem : r ∈ nexts.map (·.directions.choices) :=
    hrecords ▸ (hsound.mem_records_root hroot).2 ⟨_, hr⟩
  have hmin : f.minCost = .ok (some parse.weight) := by
    simp only [minCost, h, Except.map, rootPrice, hroot, Option.bind_some, hp, Option.map_some,
      hcost]
  refine ⟨parse, nexts.map NextParse.parse, hparse, hnexts.take_eq,
    mem_parses hnexts.weight_eq hunfolds hmem hr hweight, hmin, ?_, ?_⟩
  · intro other hother
    obtain ⟨next, hnext, rfl⟩ := List.mem_map.1 hother
    rw [hcost, hnexts.weight_eq next hnext]
    exact (hunfolds next hnext).minCost_le h hp
  · rintro p rfl
    exact ⟨p.cheapest_fst.trans hparse, p.minCost_fst.trans hmin⟩

theorem cheapest_of_price_twins : twins.InRange ∧ twins.HasTokens ∧ twins.root? = some 0 ∧
    twins.price = .ok twinPrices ∧ ∃ (parse : Parse Char Char) (parses : List (Parse Char Char)),
      twins.cheapest = .ok parse ∧ parse ∈ parses ∧ parse.weight = .ofNat 1 ∧
        ∀ other ∈ parses, parse.weight ≤ other.weight := by
  obtain ⟨parse, parses, hparse, -, hmem, hmin, hle, -⟩ :=
    cheapest_of_price twins inRange_twins hasTokens_twins 0 root_twins twinPrices price_twins
  have hone : twins.minCost = .ok (some (.ofNat 1)) := by decide +kernel
  have hweight : parse.weight = .ofNat 1 :=
    Option.some.inj (Except.ok.inj (hmin.symm.trans hone))
  exact ⟨inRange_twins, hasTokens_twins, root_twins, price_twins, parse, parses, hparse, hmem,
    hweight, hle⟩

end Forest

end EarleyForest
