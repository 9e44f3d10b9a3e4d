import EarleyForest.Chart.Tally
import EarleyForest.Proofs.Chart.Closure
import EarleyForest.Proofs.Outcomes

/-!
# Counting item by item, or at the end

`ItemSet.tally` looks at the count of a set as it is. Sets only grow, so what is too many stays too
many, and to count while a set grows comes to the same as to count when it has grown
(`close_eq_tally`, `scan_eq_tally`). Items that are there already do not count, and every item that
is added is one of the grammar.
-/

namespace EarleyForest

variable {T N : Type} [DecidableEq N] [SearchKey N] {g : Grammar T N} {n : Nat}

/-! ## The limit -/

namespace ParserConfig

variable {config : ParserConfig} {count count' limit : Nat}

theorem exceeded?_eq_some_iff :
    config.exceeded? count = some limit ↔ config.maxItems = some limit ∧ limit < count := by
  rw [exceeded?, Option.filter_eq_some_iff, decide_eq_true_eq]

/-- What is too many stays too many. -/
theorem exceeded?_mono (hle : count ≤ count') (h : config.exceeded? count = some limit) :
    config.exceeded? count' = some limit := by
  rw [exceeded?_eq_some_iff] at h ⊢
  exact ⟨h.1, by omega⟩

/-- Where a limit is exceeded, another count is within it or exceeds the same limit. -/
theorem exceeded?_eq_none_or (h : config.exceeded? count' = some limit) (count : Nat) :
    config.exceeded? count = none ∨ config.exceeded? count = some limit := by
  rw [exceeded?, (exceeded?_eq_some_iff.1 h).1, Option.filter_some]
  split
  · exact .inr rfl
  · exact .inl rfl

theorem exceeded?_eq_none_of_le (hle : count ≤ count') (h : config.exceeded? count' = none) :
    config.exceeded? count = none := by
  cases h' : config.exceeded? count with
  | none => rfl
  | some limit => cases (exceeded?_mono hle h').symm.trans h

end ParserConfig

/-! ## Items that are added are items of the grammar -/

theorem Item.isProper_start {A : N} {rule : RuleId} {origin : Nat} (hr : rule ∈ g.alternatives A)
    (ho : origin ≤ n) : (Item.start origin rule).isProper g n = true := by
  obtain ⟨k, r, hk, -, rfl⟩ := Grammar.mem_alternatives.1 hr
  have hlt : (Saturating.ofNat k : RuleId).toNat < g.rules.size := by
    have := (Array.getElem?_eq_some_iff.1 hk).1
    rw [Saturating.toNat_ofNat]
    omega
  exact isProper_iff.2 ⟨_, Array.getElem?_eq_getElem hlt, Nat.zero_le _, ho⟩

namespace ItemSet

variable {config : ParserConfig} {count : Nat} {s s' : ItemSet g n} {i : Item} {A : N}
  {earlier : Array (ItemSet g n)}

theorem size_le_of_prefix (h : s.items.toList <+: s'.items.toList) : s.size ≤ s'.size := by
  simpa [size] using h.length_le

theorem size_le_close (earlier : Array (ItemSet g n)) (s : ItemSet g n) :
    s.size ≤ (s.close earlier).size :=
  size_le_of_prefix (prefix_closeFrom earlier 0 s)

/-- The tally of a set behind sets that hold `count` items, unless that is too many. -/
def tally (config : ParserConfig) (count : Nat) (s : ItemSet g n) : Except Nat (Tally g n) :=
  match config.exceeded? (count + s.size) with
  | some limit => .error limit
  | none => .ok ⟨s, count + s.size⟩

theorem tally_eq_error {limit : Nat} (h : config.exceeded? (count + s.size) = some limit) :
    s.tally config count = .error limit := by
  rw [tally, h]

theorem tally_eq_ok (h : config.exceeded? (count + s.size) = none) :
    s.tally config count = .ok ⟨s, count + s.size⟩ := by
  rw [tally, h]

/-- What is done with a tally is seen from the sets before and behind it, if the set only grows. -/
theorem tally_bind {k : Tally g n → Except Nat (Tally g n)}
    (hgrow : s.items.toList <+: s'.items.toList)
    (hk : config.exceeded? (count + s.size) = none →
      k ⟨s, count + s.size⟩ = s'.tally config count) :
    s.tally config count >>= k = s'.tally config count := by
  cases h : config.exceeded? (count + s.size) with
  | some limit =>
    have hle := size_le_of_prefix hgrow
    rw [tally_eq_error h, tally_eq_error (ParserConfig.exceeded?_mono (by omega) h)]
    rfl
  | none =>
    rw [tally_eq_ok h]
    exact hk h

/-! ## Adding items -/

theorem addAdvanced_eq_addAll {items : Array Item} {p : Item → Bool} :
    s.addAdvanced items p = s.addAll ((items.toList.filter p).map .advance) := by
  rw [addAdvanced, addAll, List.foldl_map, List.foldl_filter, Array.foldl_toList]

/-- It is enough to look at the waiting items: others wait for no nonterminal. -/
theorem filter_waiting : s.waiting.toList.filter (·.waitsFor g A) =
    s.items.toList.filter (·.waitsFor g A) := by
  rw [s.waiting_eq, Array.toList_filter, List.filter_filter]
  congr
  funext i
  by_cases h : i.waitsFor g A = true
  · simp [h, Item.isWaiting_of_waitsFor h]
  · simp [h]

theorem add_eq_tally (h : config.exceeded? (count + s.size) = none)
    (hi : i.isProper g n = true) :
    Tally.add config ⟨s, count + s.size⟩ i = (s.add i).tally config count := by
  by_cases hmem : i ∈ s
  · rw [Tally.add, if_pos hmem, add, dif_pos hmem, tally_eq_ok h]
  · have hsize : (s.add i).size = s.size + 1 := by
      simp [add, hmem, hi, size]
    rw [Tally.add, if_neg hmem, tally, hsize]
    rfl

theorem tally_bind_add (hi : i.isProper g n = true) :
    s.tally config count >>= (·.add config i) = (s.add i).tally config count :=
  tally_bind (s.prefix_add i) fun h => add_eq_tally h hi

theorem tally_bind_addAll {items : List Item} (h : ∀ i ∈ items, i.isProper g n = true) :
    s.tally config count >>= (·.addAll config items) = (s.addAll items).tally config count := by
  induction items generalizing s with
  | nil =>
    show s.tally config count >>= .ok = s.tally config count
    exact bind_pure _
  | cons i items ih =>
    rw [List.forall_mem_cons] at h
    show s.tally config count >>= (fun t => t.add config i >>= (·.addAll config items)) = _
    rw [← bind_assoc, tally_bind_add h.1, ih h.2]
    rfl

/-! ## Closing a set -/

/-- The number of the first `j` items that wait. -/
def waitingBefore (s : ItemSet g n) (j : Nat) : Nat :=
  ((s.items.toList.take j).filter (·.isWaiting g)).length

theorem waitingBefore_succ {j : Nat} (hj : j < s.items.size) : s.waitingBefore (j + 1) =
    if s.items[j].isWaiting g then s.waitingBefore j + 1 else s.waitingBefore j := by
  rw [waitingBefore, waitingBefore, List.take_succ_eq_append_getElem (by simpa using hj),
    List.filter_append]
  split <;> simp [*]

theorem waitingBefore_size (hj : s.items.size ≤ j) : s.waitingBefore j = s.waiting.size := by
  rw [waitingBefore, List.take_of_length_le (by simpa using hj), s.waiting_eq,
    ← Array.length_toList, Array.toList_filter]

theorem waitingBefore_of_prefix (h : s.items.toList <+: s'.items.toList) {j : Nat}
    (hj : j ≤ s.items.size) : s'.waitingBefore j = s.waitingBefore j := by
  obtain ⟨added, hadded⟩ := h
  rw [waitingBefore, waitingBefore, ← hadded, List.take_append_of_le_length (by simpa using hj)]

theorem getElem?_waiting {j : Nat} (hj : j < s.items.size) (hw : s.items[j].isWaiting g = true) :
    s.waiting[s.waitingBefore j]? = some s.items[j] := by
  have hj' : j < s.items.toList.length := by simpa using hj
  have hsplit : s.waiting.toList = (s.items.toList.take j).filter (·.isWaiting g) ++
      s.items[j] :: (s.items.toList.drop (j + 1)).filter (·.isWaiting g) := by
    rw [s.waiting_eq, Array.toList_filter]
    conv_lhs => rw [← List.take_append_drop j s.items.toList, List.drop_eq_getElem_cons hj']
    simp [hw]
  rw [← Array.getElem?_toList, hsplit, waitingBefore, List.getElem?_append_right (Nat.le_refl _)]
  simp

/-- The walk over the waiting items goes on behind each item that waits. -/
theorem advanceOwn_eq {j : Nat} (hj : j < s.items.size) :
    s.advanceOwn A (s.waitingBefore j) =
      (if s.items[j].waitsFor g A then s.add s.items[j].advance else s).advanceOwn A
        (s.waitingBefore (j + 1)) := by
  rw [waitingBefore_succ hj]
  by_cases hw : s.items[j].isWaiting g = true
  · obtain ⟨hlt, hget⟩ := Array.getElem?_eq_some_iff.1 (getElem?_waiting hj hw)
    rw [advanceOwn, dif_pos hlt, hget, if_pos hw]
  · have hA : ¬ s.items[j].waitsFor g A = true := mt Item.isWaiting_of_waitsFor hw
    rw [if_neg hw, if_neg hA]

/-- To advance while all items are gone through is to go through those only that wait. -/
theorem tally_bind_advanceOwn {j : Nat} : s.tally config count >>= (·.advanceOwn config A j) =
    (s.advanceOwn A (s.waitingBefore j)).tally config count := by
  induction hleft : (Item.all g n).length - j using Nat.strongRecOn generalizing j s with
  | ind left ih =>
    refine tally_bind (s.prefix_advanceOwn A _) fun h => ?_
    rw [Tally.advanceOwn]
    by_cases hj : j < s.items.size
    · have hle := s.size_le
      rw [dif_pos hj, advanceOwn_eq hj]
      dsimp only
      by_cases hA : s.items[j].waitsFor g A = true
      · have hproper : s.items[j].advance.isProper g n = true :=
          Item.isProper_advance (s.proper _ (Array.getElem_mem hj)) (Item.waitsFor_iff.1 hA)
        rw [if_pos hA, if_pos hA, add_eq_tally h hproper,
          ← waitingBefore_of_prefix (s.prefix_add _) hj, ih _ (by omega) rfl]
      · rw [if_neg hA, if_neg hA, ← ih _ (by omega) rfl, tally_eq_ok h]
    · rw [dif_neg hj, waitingBefore_size (Nat.le_of_not_lt hj), ItemSet.advanceOwn,
        dif_neg (Nat.lt_irrefl _), tally_eq_ok h]

theorem tally_bind_extend (hsize : earlier.size ≤ n) (hi : i ∈ s) :
    s.tally config count >>= (·.extend config earlier i) =
      (s.extend earlier i).tally config count := by
  have hskip (s : ItemSet g n) : s.tally config count >>= .ok = s.tally config count :=
    bind_pure _
  cases hX : i.next? g with
  | none =>
    cases hA : i.lhs? g with
    | none => simpa only [Tally.extend, ItemSet.extend, hX, hA] using hskip s
    | some A =>
      cases hsource : earlier[i.origin]? with
      | none =>
        simp only [Tally.extend, ItemSet.extend, hX, hA, hsource]
        exact tally_bind_advanceOwn (j := 0)
      | some source =>
        simp only [Tally.extend, ItemSet.extend, hX, hA, hsource, addAdvanced_eq_addAll,
          filter_waiting]
        refine tally_bind_addAll fun j hj => ?_
        obtain ⟨i, hi, rfl⟩ := List.mem_map.1 hj
        obtain ⟨hi, hw⟩ := List.mem_filter.1 hi
        exact Item.isProper_advance (source.proper i (Array.mem_toList_iff.1 hi))
          (Item.waitsFor_iff.1 hw)
  | some X =>
    cases X with
    | terminal kind => simpa only [Tally.extend, ItemSet.extend, hX] using hskip s
    | nonterminal A =>
      have hstart : ∀ j ∈ (g.alternatives A).map (Item.start earlier.size),
          j.isProper g n = true := by
        intro j hj
        obtain ⟨rule, hr, rfl⟩ := List.mem_map.1 hj
        exact Item.isProper_start hr hsize
      simp only [Tally.extend, ItemSet.extend, hX]
      rw [← bind_assoc, tally_bind_addAll hstart]
      by_cases hnull : g.isNullable A = true
      · simpa only [hnull, if_true] using
          tally_bind_add (Item.isProper_advance (s.proper i hi) hX)
      · simpa only [if_neg hnull] using hskip _

theorem tally_bind_closeFrom (hsize : earlier.size ≤ n) {k : Nat} :
    s.tally config count >>= (·.closeFrom config earlier k) =
      (s.closeFrom earlier k).tally config count := by
  fun_induction closeFrom earlier k s with
  | case1 k s hk i ih =>
    refine tally_bind ((s.prefix_extend earlier i).trans (prefix_closeFrom earlier _ _)) fun h => ?_
    rw [Tally.closeFrom, dif_pos hk, ← ih, ← tally_bind_extend hsize (Array.getElem_mem hk),
      bind_assoc, tally_eq_ok h]
    rfl
  | case2 k s hk =>
    refine tally_bind List.prefix_rfl fun h => ?_
    rw [Tally.closeFrom, dif_neg hk, tally_eq_ok h]

/-- A set whose items have been counted is closed item by item. -/
theorem close_eq_tally (hsize : earlier.size ≤ n)
    (h : config.exceeded? (count + s.size) = none) :
    Tally.close config earlier ⟨s, count + s.size⟩ = (s.close earlier).tally config count := by
  rw [ItemSet.close, ← tally_bind_closeFrom hsize, tally_eq_ok h]
  rfl

/-- The next set begins with a tally of its own. -/
theorem scan_eq_tally [DecidableEq T] {kind : T} (h : config.exceeded? (count + s.size) = none) :
    Tally.scan config ⟨s, count + s.size⟩ kind =
      (s.scan kind).tally config (count + s.size) := by
  have hempty : (empty : ItemSet g n).tally config (count + s.size) =
      .ok ⟨.empty, count + s.size⟩ := tally_eq_ok h
  rw [ItemSet.scan, addAdvanced_eq_addAll, ← tally_bind_addAll, hempty]
  · rfl
  · intro j hj
    obtain ⟨i, hi, rfl⟩ := List.mem_map.1 hj
    obtain ⟨hi, hkind⟩ := List.mem_filter.1 hi
    exact Item.isProper_advance (s.proper i (Array.mem_toList_iff.1 hi))
      (Item.waitsForKind_iff.1 hkind)

end ItemSet

end EarleyForest
