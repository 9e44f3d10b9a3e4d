import EarleyForest.Forest.Unfolding
import EarleyForest.Proofs.Forest.Pricing

/-!
# Records of choices

The records of the derivations of a node, listed with the earliest alternatives first
(`Forest.records`). The list holds just the records of the derivations (`Sound.mem_records_iff`), it
is strictly ascending where two records part (`pairwise_records`), and it is as long as the price of
the node says (`length_records`).
-/

namespace EarleyForest

variable {T N : Type}

/-! ## The order of records -/

/-- Where the two records part, the first takes the earlier alternative of the same node. -/
inductive Precedes : List Choice → List Choice → Prop where
  | here {id : NodeId} {k k' : Nat} {r s : List Choice} (h : k < k') :
    Precedes (⟨id, k⟩ :: r) (⟨id, k'⟩ :: s)
  | later {r s : List Choice} (c : Choice) (h : Precedes r s) : Precedes (c :: r) (c :: s)

namespace Precedes

variable {r s t : List Choice}

theorem irrefl (r : List Choice) : ¬ Precedes r r := by
  intro h
  induction r with
  | nil => cases h
  | cons c r ih =>
    cases h with
    | here h => omega
    | later _ h => exact ih h

theorem trans (h : Precedes r s) (h' : Precedes s t) : Precedes r t := by
  induction h generalizing t with
  | here h =>
    cases h' with
    | here h' => exact .here (Nat.lt_trans h h')
    | later => exact .here h
  | later c _ ih =>
    cases h' with
    | here h' => exact .here h'
    | later _ h' => exact .later c (ih h')

theorem asymm (h : Precedes r s) : ¬ Precedes s r := fun h' => irrefl r (h.trans h')

theorem append_left (p : List Choice) (h : Precedes r s) : Precedes (p ++ r) (p ++ s) := by
  induction p with
  | nil => exact h
  | cons c p ih => exact .later c ih

theorem append (h : Precedes r s) (u v : List Choice) : Precedes (r ++ u) (s ++ v) := by
  induction h with
  | here h => exact .here h
  | later c _ ih => exact .later c ih

/-- Records are compared by the alternatives that they name. -/
theorem lex_alternative (h : Precedes r s) :
    List.Lex (· < ·) (r.map Choice.alternative) (s.map Choice.alternative) := by
  induction h with
  | here h => exact .rel h
  | later c _ ih => exact .cons ih

theorem recordChoice {id : NodeId} {k k' count : Nat} (h : k < k') (hk' : k' < count)
    (r s : List Choice) :
    Precedes (recordChoice id k count ++ r) (EarleyForest.recordChoice id k' count ++ s) := by
  have hcount : 1 < count := by omega
  simp only [EarleyForest.recordChoice, if_pos hcount]
  exact .here h

end Precedes

theorem pairwise_zipIdx {α : Type} (l : List α) (n : Nat) :
    (l.zipIdx n).Pairwise fun p q => p.2 < q.2 := by
  have h : ((l.zipIdx n).map Prod.snd).Pairwise (· < ·) := by
    rw [List.zipIdx_map_snd]
    exact List.pairwise_lt_range'
  exact List.pairwise_map.1 h

/-- Of two different records in an ascending list one comes first. -/
theorem eq_or_precedes_of_mem {l : List (List Choice)} (hl : l.Pairwise Precedes)
    {r s : List Choice} (hr : r ∈ l) (hs : s ∈ l) : r = s ∨ Precedes r s ∨ Precedes s r := by
  induction hl with
  | nil => cases hr
  | cons hlt _ ih =>
    rcases List.mem_cons.1 hr with rfl | hr'
    · exact (List.mem_cons.1 hs).imp Eq.symm fun hs => .inl (hlt s hs)
    · rcases List.mem_cons.1 hs with rfl | hs'
      · exact .inr (.inr (hlt r hr'))
      · exact ih hr' hs'

/-! ## Lists of all records -/

/-- The records of the derivations of several nodes, from those of one. -/
def recordsAll (records : NodeId → List (List Choice)) : List NodeId → List (List Choice)
  | [] => [[]]
  | id :: ids => (records id).flatMap fun r => (recordsAll records ids).map (r ++ ·)

section

variable {records : NodeId → List (List Choice)} {ids : List NodeId}

theorem pairwise_recordsAll (h : ∀ id ∈ ids, (records id).Pairwise Precedes) :
    (recordsAll records ids).Pairwise Precedes := by
  induction ids with
  | nil => exact List.pairwise_singleton _ _
  | cons id ids ih =>
    refine List.pairwise_flatMap.2 ⟨fun r _ => ?_, ?_⟩
    · refine List.pairwise_map.2 ((ih fun id' hid => h id' (List.mem_cons_of_mem _ hid)).imp ?_)
      exact fun hlt => hlt.append_left r
    · refine (h id List.mem_cons_self).imp fun {r s} hlt x hx y hy => ?_
      obtain ⟨u, -, rfl⟩ := List.mem_map.1 hx
      obtain ⟨v, -, rfl⟩ := List.mem_map.1 hy
      exact hlt.append u v

/-- Where prices count the records of nodes, their product counts those of all together. -/
theorem length_recordsAll {ps : List Price}
    (h : List.Forall₂ (fun id p => (records id).length = p.count) ids ps) :
    (recordsAll records ids).length = (ps.map Price.count).prod := by
  induction h with
  | nil => rfl
  | cons hid _ ih =>
    simp only [recordsAll, List.length_flatMap, List.length_map, List.map_const',
      List.sum_replicate_nat, List.map_cons, List.prod_cons, hid, ih]

end

variable [DecidableEq N] [SearchKey N] {g : Grammar T N}

namespace Forest

/-- The records of the derivations of a node that have at most `depth` levels. -/
def records (f : Forest g) : Nat → NodeId → List (List Choice)
  | 0, _ => []
  | depth + 1, id =>
    match f.node? id with
    | none => []
    | some (.terminal _) => [[]]
    | some (.nonterminal _ _ _ as) => as.zipIdx.flatMap fun (a, k) =>
        (recordsAll (f.records depth) a.children).map (recordChoice id k as.length ++ ·)

variable {f : Forest g} {depth : Nat} {id : NodeId}

theorem mem_records_nonterminal {A : N} {i j : Nat} {as : List Alternative} {r : List Choice}
    (hn : f.node? id = some (.nonterminal A i j as)) :
    r ∈ f.records (depth + 1) id ↔ ∃ a k, as[k]? = some a ∧
      ∃ s ∈ recordsAll (f.records depth) a.children, r = recordChoice id k as.length ++ s := by
  simp only [records, hn, List.mem_flatMap, Prod.exists, List.mem_zipIdx_iff_getElem?,
    List.mem_map, eq_comm]

/-- The records ascend. -/
theorem pairwise_records (f : Forest g) (depth : Nat) (id : NodeId) :
    (f.records depth id).Pairwise Precedes := by
  induction depth generalizing id with
  | zero => exact .nil
  | succ depth ih =>
    unfold records
    split
    · exact .nil
    · exact List.pairwise_singleton _ _
    · rename_i as _
      refine List.pairwise_flatMap.2 ⟨fun ⟨a, k⟩ _ => ?_, ?_⟩
      · exact List.pairwise_map.2 ((pairwise_recordsAll fun child _ => ih child).imp
          fun hlt => hlt.append_left _)
      · refine (pairwise_zipIdx as 0).imp_of_mem fun {p q} _ hq hlt x hx y hy => ?_
        obtain ⟨u, -, rfl⟩ := List.mem_map.1 hx
        obtain ⟨v, -, rfl⟩ := List.mem_map.1 hy
        have hlast := (List.getElem?_eq_some_iff.1 (List.mem_zipIdx_iff_getElem?.1 hq)).1
        exact .recordChoice hlt hlast u v

/-! ## Records of derivations -/

theorem Unfolds.lt_size {t : ParseTree T N} {r : List Choice} (h : f.Unfolds id t r) :
    id < f.size := by
  cases h with
  | leaf hn _ => exact Forest.lt_size hn
  | branch hn _ _ => exact Forest.lt_size hn

mutual

/-- The record of a derivation is in the list. -/
theorem Unfolds.mem_records {id : NodeId} {t : ParseTree T N} {r : List Choice} {depth : Nat} :
    f.Unfolds id t r → f.EndsWithin depth id → r ∈ f.records depth id
  | .leaf hn _, hdepth => by
    match depth, hdepth with
    | depth + 1, _ => simp only [records, hn, List.mem_singleton]
  | .branch hn ha hs, hdepth => by
    match depth, hdepth with
    | depth + 1, hdepth =>
      exact (mem_records_nonterminal hn).2 ⟨_, _, ha, _, hs.mem_recordsAll fun child hc =>
        hdepth child (mem_children_of_getElem? hn ha hc), rfl⟩

theorem UnfoldsAll.mem_recordsAll {ids : List NodeId} {ts : List (ParseTree T N)}
    {r : List Choice} {depth : Nat} : f.UnfoldsAll ids ts r →
      (∀ id ∈ ids, f.EndsWithin depth id) → r ∈ recordsAll (f.records depth) ids
  | .nil, _ => List.mem_singleton_self _
  | .cons h hs, hdepth => by
    refine List.mem_flatMap.2 ⟨_, h.mem_records (hdepth _ List.mem_cons_self), ?_⟩
    exact List.mem_map.2 ⟨_, hs.mem_recordsAll fun id hid =>
      hdepth id (List.mem_cons_of_mem _ hid), rfl⟩

end

theorem exists_unfoldsAll {ids : List NodeId} {r : List Choice}
    (h : ∀ id ∈ ids, ∀ r ∈ f.records depth id, ∃ t, f.Unfolds id t r)
    (hr : r ∈ recordsAll (f.records depth) ids) : ∃ ts, f.UnfoldsAll ids ts r := by
  induction ids generalizing r with
  | nil =>
    rw [List.mem_singleton.1 hr]
    exact ⟨[], .nil⟩
  | cons id ids ih =>
    obtain ⟨s, hs, hr⟩ := List.mem_flatMap.1 hr
    obtain ⟨u, hu, rfl⟩ := List.mem_map.1 hr
    obtain ⟨t, ht⟩ := h id List.mem_cons_self s hs
    obtain ⟨ts, hts⟩ := ih (fun id' hid => h id' (List.mem_cons_of_mem _ hid)) hu
    exact ⟨t :: ts, .cons ht hts⟩

/-- Every record in the list is that of a derivation, if no token is missing. -/
theorem Sound.exists_unfolds (hf : f.Sound) {r : List Choice} (hr : r ∈ f.records depth id) :
    ∃ t, f.Unfolds id t r := by
  induction depth generalizing id r with
  | zero => cases hr
  | succ depth ih =>
    cases hn : f.node? id with
    | none => simp [records, hn] at hr
    | some node =>
      cases node with
      | terminal token =>
        simp only [records, hn, List.mem_singleton] at hr
        subst hr
        exact ⟨_, .leaf hn (Array.getElem?_eq_getElem (hf.token_lt hn))⟩
      | nonterminal A i j as =>
        obtain ⟨a, k, ha, s, hs, rfl⟩ := (mem_records_nonterminal hn).1 hr
        obtain ⟨ts, hts⟩ := exists_unfoldsAll (fun _ _ _ h => ih h) hs
        exact ⟨_, .branch hn ha hts⟩

/-- With levels enough the list holds just the records of the derivations. -/
theorem Sound.mem_records_iff (hf : f.Sound) (hdepth : f.EndsWithin depth id) {r : List Choice} :
    r ∈ f.records depth id ↔ ∃ t, f.Unfolds id t r :=
  ⟨hf.exists_unfolds, fun ⟨_, h⟩ => h.mem_records hdepth⟩

/-! ## The number of records -/

section

variable {table : Array (Option Price)} {records : NodeId → List (List Choice)}

/-- An offer counts the records of the children. -/
theorem length_of_offer {a : Alternative} {o : Cost × Nat} (ho : f.offer table a = .ok o)
    (h : ∀ child ∈ a.children, ∀ p, table[child]?.join = some p →
      (records child).length = p.count) :
    (recordsAll records a.children).length = o.2 := by
  obtain ⟨ps, hps, rfl⟩ := offer_eq ho
  refine length_recordsAll (((List.forall₂_and_left _ _).2 ⟨h, hps⟩).imp ?_)
  intro child p hp
  exact hp.1 p hp.2

omit [DecidableEq N] [SearchKey N] in
theorem length_flatMap_zipIdx {R : Alternative → Cost × Nat → Prop} {as : List Alternative}
    {offers : List (Cost × Nat)} (h : List.Forall₂ R as offers)
    {F : Alternative × Nat → List (List Choice)}
    (hF : ∀ a ∈ as, ∀ o k, R a o → (F (a, k)).length = o.2) (n : Nat) :
    ((as.zipIdx n).flatMap F).length =
      offers.foldr (fun offer count => offer.2 + count) 0 := by
  induction h generalizing n with
  | nil => rfl
  | cons ha _ ih =>
    rw [List.zipIdx_cons, List.flatMap_cons, List.length_append, hF _ List.mem_cons_self _ _ ha,
      ih fun a hmem => hF a (List.mem_cons_of_mem _ hmem)]
    rfl

end

/-- There are as many records as the price of the node says. -/
theorem length_records {prices : PriceTable} (hprices : f.price = .ok prices) {p : Price}
    (hp : prices[id]? = some p) (hdepth : f.EndsWithin depth id) :
    (f.records depth id).length = p.count := by
  induction depth generalizing id p with
  | zero => exact hdepth.elim
  | succ depth ih =>
    obtain ⟨hsize, hprice⟩ := priceNode_of_price hprices
    have hnode := hprice hp
    have hid : id < f.size := hsize ▸ (Array.getElem?_eq_some_iff.1 hp).1
    obtain ⟨node, hn⟩ := exists_node hid
    cases node with
    | terminal token =>
      obtain rfl := Except.ok.inj ((priceNode_terminal hn).symm.trans hnode)
      simp only [records, hn, List.length_singleton]
    | nonterminal A i j as =>
      obtain ⟨offer, offers, hoffers, rfl⟩ := (priceNode_eq_ok_iff (by simp [hn])).1 hnode
      rw [mapM_eq_ok_iff, alternatives_eq hn] at hoffers
      simp only [records, hn]
      refine length_flatMap_zipIdx hoffers (fun a ha o k ho => ?_) 0
      rw [List.length_map]
      refine length_of_offer ho fun child hc p hp => ?_
      have hc : child ∈ f.children id :=
        mem_children_iff.2 ⟨a, (alternatives_eq hn).symm ▸ ha, hc⟩
      rw [join_getElem?_map_some] at hp
      exact ih hp (hdepth child hc)

end Forest

end EarleyForest
