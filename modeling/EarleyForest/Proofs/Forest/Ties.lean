import EarleyForest.Proofs.Forest.Cheapest

/-!
# Ties between derivations

Of the derivations of a node that weigh what the node costs, the best alternatives lead to the one
whose record comes first (`Runs.exists_isFirstOf`). Sums have to stay below the cap for this: one
that stops at the cap hides that a part of it costs more than it has to. An iteration goes through
the records in their order, so the derivation that is extracted is the first of least weight that it
meets (`cheapest_eq_first_of_price`).
-/

namespace EarleyForest

variable {T N : Type} [DecidableEq N] [SearchKey N] {g : Grammar T N} {f : Forest g}

namespace Forest

variable {prices : PriceTable} {id : NodeId} {p : Price}

/-! ## The first of several derivations -/

/-- Of the derivations of the node `id` that weigh `cost`, the one recorded as `r` comes first. -/
structure IsFirstOf (f : Forest g) (id : NodeId) (cost : Cost) (t : ParseTree T N)
    (r : List Choice) : Prop where
  unfolds : f.Unfolds id t r
  first : ∀ t' r', f.Unfolds id t' r' → t'.weight g = cost → r = r' ∨ Precedes r r'

/-- Of the derivations of several nodes that weigh `cost` together, those recorded as `r` come
first. -/
structure AreFirstOf (f : Forest g) (ids : List NodeId) (cost : Cost) (ts : List (ParseTree T N))
    (r : List Choice) : Prop where
  unfolds : f.UnfoldsAll ids ts r
  first : ∀ ts' r', f.UnfoldsAll ids ts' r' → (ts'.map (ParseTree.weight g)).sum = cost →
    r = r' ∨ Precedes r r'

theorem areFirstOf_nil (cost : Cost) : f.AreFirstOf [] cost [] [] := by
  refine ⟨.nil, fun ts' r' h _ => ?_⟩
  cases h
  exact .inl rfl

/-- No derivations of several nodes weigh less than the prices of the nodes. -/
theorem UnfoldsAll.sum_minCost_le (hprices : f.price = .ok prices) {ids : List NodeId}
    {ts : List (ParseTree T N)} {r : List Choice} {ps : List Price} :
    f.UnfoldsAll ids ts r → List.Forall₂ (fun id p => prices[id]? = some p) ids ps →
      (ps.map Price.minCost).sum ≤ (ts.map (ParseTree.weight g)).sum
  | .nil, .nil => le_refl _
  | .cons h hs, .cons hp hps => by
    simp only [List.map_cons, List.sum_cons]
    exact add_le_add (h.minCost_le hprices hp) (hs.sum_minCost_le hprices hps)

/-- What comes first at one node and at those behind it comes first together. -/
theorem IsFirstOf.cons (hprices : f.price = .ok prices) {ids : List NodeId} {t : ParseTree T N}
    {ts : List (ParseTree T N)} {r rs : List Choice} {ps : List Price}
    (h : f.IsFirstOf id p.minCost t r) (hs : f.AreFirstOf ids (ps.map Price.minCost).sum ts rs)
    (hp : prices[id]? = some p) (hps : List.Forall₂ (fun id p => prices[id]? = some p) ids ps)
    (hlt : p.minCost + (ps.map Price.minCost).sum < .top) :
    f.AreFirstOf (id :: ids) (p.minCost + (ps.map Price.minCost).sum) (t :: ts) (r ++ rs) := by
  refine ⟨.cons h.unfolds hs.unfolds, fun ts' r' hu hweight => ?_⟩
  cases hu with
  | cons hu hus =>
    rw [List.map_cons, List.sum_cons] at hweight
    obtain ⟨hw, hws⟩ := Saturating.eq_and_eq_of_add_eq_add (hu.minCost_le hprices hp)
      (hus.sum_minCost_le hprices hps) hweight hlt
    rcases h.first _ _ hu hw with rfl | hlt
    · exact (hs.first _ _ hus hws).imp (fun heq => by rw [heq]) (Precedes.append_left _)
    · exact .inr (hlt.append _ _)

/-! ## Best alternatives come first -/

/-- No alternative in front of the best one leads to a derivation that weighs as little. -/
theorem best_le_of_unfoldsAll (hprices : f.price = .ok prices) {A : N} {i j k k' : Nat}
    {as : List Alternative} {a : Alternative} {ts : List (ParseTree T N)} {r : List Choice}
    (hn : f.node? id = some (.nonterminal A i j as)) (hp : prices[id]? = some p)
    (hk : p.best? = some k) (ha : as[k']? = some a) (hs : f.UnfoldsAll a.children ts r)
    (hweight : (ParseTree.branch A a.rule i j ts).weight g = p.minCost) : k ≤ k' := by
  obtain ⟨ss, hss, hrules⟩ := hs.exists_selections
  refine (isLeast_best hprices hp hk).2 ⟨a.rule, ss, .branch hn ha hss, ?_⟩
  rw [← hweight, Selection.weight, ParseTree.weight, Selection.rules, ParseTree.rules_branch,
    hrules]

mutual

/-- Best alternatives lead to the first of the derivations that weigh what the node costs. -/
theorem Runs.exists_isFirstOf (hprices : f.price = .ok prices) {id : NodeId} {t : ParseTree T N}
    {progress progress' : Progress Unit} {p : Price} :
    f.Runs (f.chooseBest prices) id progress t progress' → prices[id]? = some p →
      p.minCost < .top → ∃ r, f.IsFirstOf id p.minCost t r
  | .leaf hn ht, _, _ => by
    refine ⟨[], .leaf hn ht, fun t' r' h _ => ?_⟩
    cases h with
    | leaf => exact .inl rfl
    | branch hn' => cases hn.symm.trans hn'
  | .branch hn hk ha hs, hp, hlt => by
    obtain ⟨k', a, ps, hbest, ha', hps, hcost⟩ := exists_best_of_price hprices hn hp
    have hsame := bind_best?_of_chooseBest hk
    rw [hp, Option.bind_some, hbest] at hsame
    cases hsame
    cases ha.symm.trans ha'
    have hps := hps.imp fun _ _ h => h.2
    rw [hcost] at hlt
    obtain ⟨r, hr⟩ := hs.exists_areFirstOf hprices hps (Saturating.lt_top_of_add_lt_top hlt).2
    refine ⟨_, .branch hn ha hr.unfolds, fun t' r' h hweight => ?_⟩
    cases h with
    | leaf hn' => cases hn.symm.trans hn'
    | branch hn' ha' hs' =>
      cases hn.symm.trans hn'
      rcases Nat.lt_or_eq_of_le (best_le_of_unfoldsAll hprices hn hp hbest ha' hs' hweight) with
        hlt' | rfl
      · exact .inr (.recordChoice hlt' (List.getElem?_eq_some_iff.1 ha').1 _ _)
      · cases ha.symm.trans ha'
        rw [ParseTree.weight_branch, hcost] at hweight
        obtain ⟨-, hsum⟩ := Saturating.eq_and_eq_of_add_eq_add (le_refl _)
          (hs'.sum_minCost_le hprices hps) hweight hlt
        exact (hr.first _ _ hs' hsum).imp (fun heq => by rw [heq]) (Precedes.append_left _)

theorem RunsAll.exists_areFirstOf (hprices : f.price = .ok prices) {ids : List NodeId}
    {ts : List (ParseTree T N)} {progress progress' : Progress Unit} {ps : List Price} :
    f.RunsAll (f.chooseBest prices) ids progress ts progress' →
      List.Forall₂ (fun id p => prices[id]? = some p) ids ps →
        (ps.map Price.minCost).sum < .top → ∃ r, f.AreFirstOf ids (ps.map Price.minCost).sum ts r
  | .nil, .nil, _ => ⟨[], areFirstOf_nil _⟩
  | .cons h hs, .cons hp hps, hlt => by
    rw [List.map_cons, List.sum_cons] at hlt ⊢
    obtain ⟨hlt₁, hlt₂⟩ := Saturating.lt_top_of_add_lt_top hlt
    obtain ⟨r, hr⟩ := h.exists_isFirstOf hprices hp hlt₁
    obtain ⟨rs, hrs⟩ := hs.exists_areFirstOf hprices hps hlt₂
    exact ⟨r ++ rs, hr.cons hprices hrs hp hps hlt⟩

end

/-! ## The first of least weight in an iteration -/

/-- Where all derivations are enumerated, the first of those that weigh `cost` is met first. -/
theorem find?_parses_eq {root : NodeId} {nexts : List (NextParse T N)} {parse : Parse T N}
    {r : List Choice} {cost : Cost} (h : f.IsFirstOf root cost parse.tree r)
    (hascending : (nexts.map (·.directions.choices)).Pairwise Precedes)
    (hweights : ∀ next ∈ nexts, next.parse.weight = next.parse.tree.weight g)
    (hunfolds : ∀ next ∈ nexts, f.Unfolds root next.parse.tree next.directions.choices)
    (hr : r ∈ nexts.map (·.directions.choices)) (hweight : parse.weight = parse.tree.weight g)
    (hcost : parse.weight = cost) :
    (nexts.map NextParse.parse).find? (fun other => other.weight = cost) = some parse := by
  obtain ⟨next, hnext, rfl⟩ := List.mem_map.1 hr
  have hsame : next.parse = parse :=
    parse_eq_of_record (hunfolds next hnext) h.unfolds (hweights next hnext) hweight
  obtain ⟨before, behind, rfl⟩ := List.append_of_mem hnext
  refine List.find?_eq_some_iff_append.2 ⟨by simpa using hcost,
    before.map NextParse.parse, behind.map NextParse.parse, by simp [hsame], fun other hother => ?_⟩
  obtain ⟨earlier, hearlier, rfl⟩ := List.mem_map.1 hother
  have hmem : earlier ∈ before ++ next :: behind := List.mem_append_left _ hearlier
  have hprecedes : Precedes earlier.directions.choices next.directions.choices :=
    (List.pairwise_append.1 (List.pairwise_map.1 hascending)).2.2 earlier hearlier next
      List.mem_cons_self
  -- one in front that weighs as little would not come behind the first
  rw [Bool.not_eq_true', decide_eq_false_iff_not]
  intro heq
  rcases h.first _ _ (hunfolds earlier hmem) ((hweights earlier hmem).symm.trans heq) with
    hrecord | hbehind
  · exact Precedes.irrefl _ (hrecord ▸ hprecedes)
  · exact hprecedes.asymm hbehind

/-- The derivation that is extracted is the first of least weight that an iteration gives, where
this weight is below the cap. -/
theorem cheapest_eq_first_of_price (f : Forest g) (hf : f.InRange) (htokens : f.HasTokens)
    (cost : Cost) (hcost : f.minCost = .ok (some cost)) (hlt : cost < .top) :
    ∃ (parse : Parse T N) (parses : List (Parse T N)), f.cheapest = .ok parse ∧
      (∀ n, ((Parses.start f).take n).1 = (parses.take n).map .ok) ∧
      parses.find? (fun other => other.weight = cost) = some parse ∧
      ∀ p : PricedForest g, p.forest = f →
        p.cheapest.1 = .ok parse ∧ p.minCost.1 = .ok (some cost) := by
  obtain ⟨prices, hprices, hroot⟩ := map_eq_ok_iff.1 hcost
  obtain ⟨price, hprice, rfl⟩ := Option.map_eq_some_iff.1 hroot
  obtain ⟨root, hroot, hp⟩ := Option.bind_eq_some_iff.1 hprice
  have hsound := sound_of_price hf htokens hprices
  obtain ⟨parse, progress, hparse, hruns, hweight⟩ := exists_runs_of_cheapest hsound hroot hprices
  obtain ⟨r, hfirst⟩ := hruns.exists_isFirstOf hprices hp hlt
  obtain ⟨nexts, hnexts, hrecords, hunfolds⟩ := hsound.exists_enumerates hroot
  have hmem : r ∈ nexts.map (·.directions.choices) :=
    hrecords ▸ (hsound.mem_records_root hroot).2 ⟨_, hfirst.unfolds⟩
  refine ⟨parse, nexts.map NextParse.parse, hparse, hnexts.take_eq, ?_, ?_⟩
  · exact find?_parses_eq hfirst (hrecords ▸ f.pairwise_records f.size root) hnexts.weight_eq
      hunfolds hmem hweight (hweight.trans (hruns.weight_eq_minCost hprices hp))
  · rintro p rfl
    exact ⟨p.cheapest_fst.trans hparse, p.minCost_fst.trans hcost⟩

end Forest

/-- A forest made by hand as `twins` is, with one more alternative below the root that costs as
little as the least. -/
def evenTwins : Forest pairs :=
  let ((s, _), arena) := Arena.nonterminal {} 'S' 0 1
  let ((a, _), arena) := arena.nonterminal 'A' 0 1
  let (token, arena) := arena.terminal 0
  let arena := arena.pushAlternative s ⟨.ofNat 0, [a, a]⟩
  let arena := arena.pushAlternatives a
    [⟨.ofNat 1, [token]⟩, ⟨.ofNat 2, []⟩, ⟨.ofNat 2, [token]⟩]
  { tokens := #[⟨'a', "a", default⟩], arena, root? := some s, chartItems := 0 }

/-- Four of the nine derivations cost the least. The first of them has three nodes and the last one,
which is the last of all, has five. -/
theorem Forest.cheapest_eq_first_of_price_evenTwins : evenTwins.InRange ∧ evenTwins.HasTokens ∧
    evenTwins.minCost = .ok (some (.ofNat 1)) ∧ (.ofNat 1 : Cost) < .top ∧
      ∃ (parse : Parse Char Char) (parses : List (Parse Char Char)),
        evenTwins.cheapest = .ok parse ∧ parse.tree.nodeCount = 3 ∧
          parses.find? (fun other => other.weight = .ofNat 1) = some parse ∧
          ∃ last ∈ parses, last.weight = .ofNat 1 ∧ last.tree.nodeCount = 5 := by
  have hrange : evenTwins.InRange := by decide +kernel
  have htokens : evenTwins.HasTokens := by decide +kernel
  have hone : evenTwins.minCost = .ok (some (.ofNat 1)) := by decide +kernel
  have hlt : (.ofNat 1 : Cost) < .top := by decide
  obtain ⟨parse, parses, hparse, htake, hfind, -⟩ :=
    cheapest_eq_first_of_price evenTwins hrange htokens (.ofNat 1) hone hlt
  have hthree : evenTwins.cheapest.map (·.tree.nodeCount) = .ok 3 := by decide +kernel
  have hlast : ((Parses.start evenTwins).take 9).1[8]?.map
      (Except.map fun p => (p.weight, p.tree.nodeCount)) = some (.ok (.ofNat 1, 5)) := by
    decide +kernel
  rw [hparse] at hthree
  rw [htake 9, List.getElem?_map, List.getElem?_take_of_lt (by decide)] at hlast
  refine ⟨hrange, htokens, hone, hlt, parse, parses, hparse, Except.ok.inj hthree, hfind, ?_⟩
  cases hget : parses[8]? with
  | none =>
    rw [hget] at hlast
    cases hlast
  | some last =>
    rw [hget] at hlast
    obtain ⟨hweight, hcount⟩ := Prod.mk.inj (Except.ok.inj (Option.some.inj hlast))
    exact ⟨last, List.mem_of_getElem? hget, hweight, hcount⟩

end EarleyForest
