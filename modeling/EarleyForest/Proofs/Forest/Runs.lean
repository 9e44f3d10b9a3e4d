import EarleyForest.Forest.Unfold
import EarleyForest.Forest.Unfolding
import EarleyForest.Proofs.Forest.Selections
import EarleyForest.Proofs.Tree.Walk

/-!
# Runs of an unfolding

`f.Runs choose id progress t progress'`: unfolding the node `id` by the choices of `choose` gives
`t`, and leads from `progress` to `progress'`. Every unfolding that succeeds is a run
(`runs_of_unfold`). A run gives a derivation of its node (`Runs.exists_unfolds`) and adds what the
rules of the derivation cost to the weight (`Runs.weight_eq`).
-/

namespace EarleyForest

variable {T N : Type} [DecidableEq N] [SearchKey N] {g : Grammar T N} {f : Forest g}

/-! ## The weight of a derivation -/

/-- The cost of the rules that a derivation applies. -/
def ParseTree.weight (g : Grammar T N) (t : ParseTree T N) : Cost := .ofNat (g.totalCost t.rules)

theorem ParseTree.weight_leaf (token : Token T) :
    (leaf token : ParseTree T N).weight g = 0 := by
  rw [weight, rules_leaf]
  rfl

theorem ParseTree.weight_branch (A : N) (rule : RuleId) (i j : Nat) (ts : List (ParseTree T N)) :
    (branch A rule i j ts).weight g = g.cost rule + (ts.map (weight g)).sum := by
  rw [weight, rules_branch, g.ofNat_totalCost]
  rfl

namespace Forest

mutual

/-- Every derivation of a node is a selection by which the same rules are applied. -/
theorem Unfolds.exists_selection {id : NodeId} {t : ParseTree T N} {r : List Choice} :
    f.Unfolds id t r → ∃ s, f.IsSelection id s ∧ s.rules = t.rules
  | .leaf hn _ => ⟨.leaf, .leaf hn, (ParseTree.rules_leaf _).symm⟩
  | .branch hn ha hs => by
    obtain ⟨ss, hss, hrules⟩ := hs.exists_selections
    refine ⟨_, .branch hn ha hss, ?_⟩
    rw [Selection.rules, ParseTree.rules_branch, hrules]

theorem UnfoldsAll.exists_selections {ids : List NodeId} {ts : List (ParseTree T N)}
    {r : List Choice} :
    f.UnfoldsAll ids ts r →
      ∃ ss, f.AreSelections ids ss ∧ Selection.rulesAll ss = ts.flatMap ParseTree.rules
  | .nil => ⟨[], .nil, rfl⟩
  | .cons h hs => by
    obtain ⟨s, hsel, hrules⟩ := h.exists_selection
    obtain ⟨ss, hsels, hall⟩ := hs.exists_selections
    refine ⟨s :: ss, .cons hsel hsels, ?_⟩
    rw [Selection.rulesAll, List.flatMap_cons, hrules, hall]

end

/-- No derivation of a node weighs less than the price of the node. -/
theorem Unfolds.minCost_le {id : NodeId} {t : ParseTree T N} {r : List Choice}
    (h : f.Unfolds id t r) {prices : PriceTable} (hprices : f.price = .ok prices) {p : Price}
    (hp : prices[id]? = some p) : p.minCost ≤ t.weight g := by
  obtain ⟨s, hs, hrules⟩ := h.exists_selection
  rw [ParseTree.weight, ← hrules]
  exact (isLeast_weight hprices hp).2 ⟨s, hs, rfl⟩

/-! ## Runs -/

variable {σ : Type} {choose : NodeId → Nat → σ → Except (ForestError N) (Nat × σ)}

mutual

/-- Unfolding a node gives a derivation and leads from one progress to the other. -/
inductive Runs (f : Forest g) (choose : NodeId → Nat → σ → Except (ForestError N) (Nat × σ)) :
    NodeId → Progress σ → ParseTree T N → Progress σ → Prop where
  | leaf {id : NodeId} {token : Nat} {t : Token T} {progress : Progress σ}
    (hn : f.node? id = some (.terminal token)) (ht : f.tokens[token]? = some t) :
    Runs f choose id progress (.leaf t) progress
  | branch {id : NodeId} {A : N} {i j k : Nat} {as : List Alternative} {a : Alternative} {state : σ}
    {ts : List (ParseTree T N)} {progress progress' : Progress σ}
    (hn : f.node? id = some (.nonterminal A i j as))
    (hk : choose id as.length progress.state = .ok (k, state)) (ha : as[k]? = some a)
    (hs : RunsAll f choose a.children ⟨state, progress.weight + g.cost a.rule⟩ ts progress') :
    Runs f choose id progress (.branch A a.rule i j ts) progress'

/-- Unfolding several nodes one after the other. -/
inductive RunsAll (f : Forest g) (choose : NodeId → Nat → σ → Except (ForestError N) (Nat × σ)) :
    List NodeId → Progress σ → List (ParseTree T N) → Progress σ → Prop where
  | nil {progress : Progress σ} : RunsAll f choose [] progress [] progress
  | cons {id : NodeId} {ids : List NodeId} {t : ParseTree T N} {ts : List (ParseTree T N)}
    {progress mid progress' : Progress σ} (h : Runs f choose id progress t mid)
    (hs : RunsAll f choose ids mid ts progress') :
    RunsAll f choose (id :: ids) progress (t :: ts) progress'

end

theorem runsAll_of_unfoldAll {ids : List NodeId} {ts : List (ParseTree T N)}
    {progress progress' : Progress σ}
    {unfold : NodeId → Progress σ → Except (ForestError N) (ParseTree T N × Progress σ)}
    (h : unfoldAll unfold ids progress = .ok (ts, progress'))
    (hruns : ∀ {id progress t progress'}, unfold id progress = .ok (t, progress') →
      f.Runs choose id progress t progress') : f.RunsAll choose ids progress ts progress' := by
  induction ids generalizing progress ts with
  | nil =>
    cases h
    exact .nil
  | cons id ids ih =>
    obtain ⟨⟨t, mid⟩, ht, h⟩ := bind_eq_ok_iff.1 h
    obtain ⟨⟨ts', last⟩, hts, h⟩ := bind_eq_ok_iff.1 h
    cases h
    exact .cons (hruns ht) (ih hts)

/-- An unfolding that succeeds is a run. -/
theorem runs_of_unfold {id : NodeId} {t : ParseTree T N} {progress progress' : Progress σ}
    {depth : Nat} (h : f.unfold choose depth id progress = .ok (t, progress')) :
    f.Runs choose id progress t progress' := by
  induction depth generalizing id progress t progress' with
  | zero => cases h
  | succ depth ih =>
    unfold Forest.unfold at h
    split at h
    · cases h
    · rename_i token hn
      split at h
      · rename_i t ht
        cases h
        exact .leaf hn ht
      · cases h
    · rename_i A i j as hn
      split at h
      · cases h
      · obtain ⟨⟨k, state⟩, hk, h⟩ := bind_eq_ok_iff.1 h
        dsimp only at h
        split at h
        · cases h
        · rename_i a ha
          obtain ⟨⟨ts, last⟩, hts, h⟩ := bind_eq_ok_iff.1 h
          cases h
          exact .branch hn hk ha (runsAll_of_unfoldAll hts ih)

mutual

/-- A run gives a derivation. -/
theorem Runs.exists_unfolds {id : NodeId} {t : ParseTree T N} {progress progress' : Progress σ} :
    f.Runs choose id progress t progress' → ∃ r, f.Unfolds id t r
  | .leaf hn ht => ⟨[], .leaf hn ht⟩
  | .branch hn _ ha hs => by
    obtain ⟨r, hr⟩ := hs.exists_unfoldsAll
    exact ⟨_, .branch hn ha hr⟩

theorem RunsAll.exists_unfoldsAll {ids : List NodeId} {ts : List (ParseTree T N)}
    {progress progress' : Progress σ} :
    f.RunsAll choose ids progress ts progress' → ∃ r, f.UnfoldsAll ids ts r
  | .nil => ⟨[], .nil⟩
  | .cons h hs => by
    obtain ⟨r, hr⟩ := h.exists_unfolds
    obtain ⟨rs, hrs⟩ := hs.exists_unfoldsAll
    exact ⟨r ++ rs, .cons hr hrs⟩

end

mutual

/-- A run adds what the rules of the derivation cost. The costs are added in preorder, and each sum
stops at the cap. -/
theorem Runs.weight_eq {id : NodeId} {t : ParseTree T N} {progress progress' : Progress σ} :
    f.Runs choose id progress t progress' → progress'.weight = progress.weight + t.weight g
  | .leaf _ _ => by rw [ParseTree.weight_leaf, add_zero]
  | .branch _ _ _ hs => by rw [hs.weight_eq, ParseTree.weight_branch, add_assoc]

theorem RunsAll.weight_eq {ids : List NodeId} {ts : List (ParseTree T N)}
    {progress progress' : Progress σ} : f.RunsAll choose ids progress ts progress' →
    progress'.weight = progress.weight + (ts.map (ParseTree.weight g)).sum
  | .nil => (add_zero _).symm
  | .cons h hs => by
    rw [hs.weight_eq, h.weight_eq, List.map_cons, List.sum_cons, add_assoc]

end

end Forest

end EarleyForest
