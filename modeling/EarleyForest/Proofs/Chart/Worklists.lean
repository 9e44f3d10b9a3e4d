import EarleyForest.Parser.Worklists
import EarleyForest.Proofs.Chart.Exactness
import EarleyForest.Proofs.Chart.Tally
import Mathlib.Algebra.BigOperators.Fin
import Mathlib.Algebra.Order.BigOperators.Group.Finset

/-!
# The worklists of reading end

Every item at a position is one of the grammar and begins there or before (`IsPlaced`), because the
rules only put such items beside such items. So no item is ever refused by `ItemSet.add`, and to add
what is not there yet comes to the same (`items_add`). The loops that do just that go through the
sets of the chart and end where it ends (`Closing.ends_closeFrom`, `Chart.reading_ends`). It also
bounds the chart: there are so many items that begin at a position or before
(`Chart.itemCount_le`).
-/

namespace EarleyForest

variable {T N : Type} [DecidableEq N] [SearchKey N] {g : Grammar T N} {n : Nat}

/-! ## Items in their places -/

namespace Item

variable {i : Item} {p q : Nat}

theorem isProper_mono (h : i.isProper g p = true) (hle : p ≤ q) : i.isProper g q = true := by
  obtain ⟨r, hr, hdot, ho⟩ := isProper_iff.1 h
  exact isProper_iff.2 ⟨r, hr, hdot, Nat.le_trans ho hle⟩

theorem length_all (g : Grammar T N) (n : Nat) :
    (all g n).length = (n + 1) * (g.rules.toList.map fun r => r.rhs.length + 1).sum := by
  have hfst : (g.rules.toList.zipIdx.map fun p => p.1.rhs.length + 1) =
      g.rules.toList.map fun r => r.rhs.length + 1 := by
    conv_rhs => rw [← List.zipIdx_map_fst 0 g.rules.toList, List.map_map]
    rfl
  rw [← hfst, ← List.sum_map_mul_left]
  simp [all, List.length_flatMap, Nat.mul_comm]

end Item

/-- Every item is one of the grammar, and begins at its position or before. -/
def IsPlaced (sets : Array (ItemSet g n)) : Prop :=
  ∀ (p : Nat) (i : Item), HasItem sets p i → i.isProper g p = true

namespace IsPlaced

variable {sets : Array (ItemSet g n)} {kernel s : ItemSet g n}

theorem hereditary (h : IsPlaced sets) :
    ItemSet.Hereditary sets fun i => i.isProper g sets.size = true where
  predict _ _ _ _ _ hr := Item.isProper_start hr (Nat.le_refl _)
  skip _ _ hi hA _ := Item.isProper_advance hi hA
  complete _ _ source _ _ _ hsource hj hA := by
    have hlt := (Array.getElem?_eq_some_iff.1 hsource).1
    exact Item.isProper_advance (Item.isProper_mono (h _ _ ⟨source, hsource, hj⟩) hlt.le) hA
  completeOwn _ _ _ _ _ _ hj hA := Item.isProper_advance hj hA

theorem push (h : IsPlaced sets) (hk : ∀ i ∈ kernel, i.isProper g sets.size = true) :
    IsPlaced (sets.push (kernel.close sets)) := by
  intro p i hi
  rcases hasItem_push.1 hi with hi | ⟨rfl, hi'⟩
  · exact h p i hi
  · exact h.hereditary.close hk i hi'

/-- What has read a kind begins before the next position. -/
theorem scan [DecidableEq T] (h : IsPlaced (sets.push s)) (kind : T) :
    ∀ i ∈ s.scan kind, i.isProper g (sets.size + 1) = true := by
  intro i hi
  obtain ⟨j, hj, hkind, rfl, -⟩ := ItemSet.mem_scan.1 hi
  exact Item.isProper_advance
    (Item.isProper_mono (h _ _ (hasItem_push.2 (.inr ⟨rfl, hj⟩))) (Nat.le_succ _))
    (Item.waitsForKind_iff.1 hkind)

theorem size_le (h : IsPlaced sets) {p : Nat} (hp : p < sets.size) :
    sets[p].size ≤ (p + 1) * (g.rules.toList.map fun r => r.rhs.length + 1).sum := by
  rw [← Item.length_all, ItemSet.size, ← Array.length_toList]
  exact sets[p].nodup.length_le_of_subset fun i hi => Item.mem_all_of_isProper
    (h p i ⟨_, Array.getElem?_eq_getElem hp, Array.mem_toList_iff.1 hi⟩)

end IsPlaced

theorem ItemSet.isProper_of_mem_start {start : N} {i : Item}
    (hi : i ∈ (empty : ItemSet g n).addAll ((g.alternatives start).map (.start 0))) :
    i.isProper g 0 = true := by
  rcases mem_addAll.1 hi with hi | ⟨hi, -⟩
  · exact absurd hi (not_mem_empty i)
  · obtain ⟨rule, hr, rfl⟩ := List.mem_map.1 hi
    exact Item.isProper_start hr (Nat.le_refl 0)

/-! ## Items that are not there yet -/

namespace ItemSet

variable {s : ItemSet g n} {i : Item} {items : List Item}

theorem items_add (hi : i.isProper g n = true) : (s.add i).items = pushNew s.items i := by
  by_cases hmem : i ∈ s
  · rw [add, dif_pos hmem, pushNew, if_pos (mem_def.1 hmem)]
  · rw [add, dif_neg hmem, dif_pos hi, pushNew, if_neg (mt mem_def.2 hmem)]

theorem items_addAll (h : ∀ i ∈ items, i.isProper g n = true) :
    (s.addAll items).items = items.foldl pushNew s.items := by
  induction items generalizing s with
  | nil => rfl
  | cons i items ih =>
    rw [List.forall_mem_cons] at h
    rw [List.foldl_cons, ← items_add h.1]
    exact ih h.2

theorem items_scan [DecidableEq T] (s : ItemSet g n) (kind : T) : (s.scan kind).items =
    ((s.items.toList.filter (·.waitsForKind g kind)).map .advance).foldl pushNew #[] := by
  rw [scan, addAdvanced_eq_addAll, items_addAll]
  · rfl
  · intro i hi
    obtain ⟨j, hj, rfl⟩ := List.mem_map.1 hi
    obtain ⟨hj, hkind⟩ := List.mem_filter.1 hj
    exact Item.isProper_advance (s.proper j (Array.mem_toList_iff.1 hj))
      (Item.waitsForKind_iff.1 hkind)

end ItemSet

/-! ## Closing a set -/

namespace Closing

variable {earlier : Array (ItemSet g n)} {s source : ItemSet g n} {A : N} {i : Item}
  {j k p : Nat} {out : Array Item}

/-- A walk through an earlier set. -/
theorem ends_completion (hsource : earlier[p]? = some source) {left : List Item}
    (hleft : source.items.toList.drop j = left)
    (h : Ends (step g (earlier.map ItemSet.items))
      ⟨(s.addAll ((left.filter (·.waitsFor g A)).map .advance)).items, k, none⟩ out) :
    Ends (step g (earlier.map ItemSet.items)) ⟨s.items, k, some ⟨A, p, j⟩⟩ out := by
  induction left generalizing s j with
  | nil =>
    have hnone : source.items[j]? = none := by
      rw [← Array.getElem?_toList, ← List.head?_drop, hleft]
      rfl
    refine .next ?_ h
    simp [step, hsource, hnone, ItemSet.addAll]
  | cons i left ih =>
    obtain ⟨hi, hrest⟩ := drop_eq_cons hleft
    rw [Array.getElem?_toList] at hi
    by_cases hA : i.waitsFor g A = true
    · have hproper : i.advance.isProper g n = true :=
        Item.isProper_advance (source.proper i (Array.mem_of_getElem? hi)) (Item.waitsFor_iff.1 hA)
      rw [List.filter_cons_of_pos hA] at h
      refine .next ?_ (ih (s := s.add i.advance) hrest h)
      simp [step, hsource, hi, hA, ItemSet.items_add hproper]
    · rw [List.filter_cons_of_neg hA] at h
      refine .next ?_ (ih hrest h)
      simp [step, hsource, hi, hA]

/-- A walk through the set that grows. -/
theorem ends_completionOwn (hnone : earlier[p]? = none)
    (h : Ends (step g (earlier.map ItemSet.items))
      ⟨(s.advanceOwn A (s.waitingBefore j)).items, k, none⟩ out) :
    Ends (step g (earlier.map ItemSet.items)) ⟨s.items, k, some ⟨A, p, j⟩⟩ out := by
  induction hleft : (Item.all g n).length - j using Nat.strongRecOn generalizing j s with
  | ind left ih =>
    have hle := s.size_le
    by_cases hj : j < s.items.size
    · have hi := Array.getElem?_eq_getElem hj
      rw [ItemSet.advanceOwn_eq hj] at h
      by_cases hA : s.items[j].waitsFor g A = true
      · have hproper : s.items[j].advance.isProper g n = true :=
          Item.isProper_advance (s.proper _ (Array.getElem_mem hj)) (Item.waitsFor_iff.1 hA)
        rw [if_pos hA, ← ItemSet.waitingBefore_of_prefix (s.prefix_add _) hj] at h
        refine .next ?_ (ih _ (by omega) h rfl)
        simp [step, hnone, hj, hA, ItemSet.items_add hproper]
      · rw [if_neg hA] at h
        refine .next ?_ (ih _ (by omega) h rfl)
        simp [step, hnone, hj, hA]
    · rw [ItemSet.waitingBefore_size (Nat.le_of_not_lt hj), ItemSet.advanceOwn,
        dif_neg (Nat.lt_irrefl _)] at h
      refine .next ?_ h
      simp [step, hnone, hj]

/-- An item is gone on with. -/
theorem ends_extend (hsize : earlier.size ≤ n) (hi : s.items[k]? = some i)
    (h : Ends (step g (earlier.map ItemSet.items)) ⟨(s.extend earlier i).items, k + 1, none⟩ out) :
    Ends (step g (earlier.map ItemSet.items)) ⟨s.items, k, none⟩ out := by
  have hproper := s.proper i (Array.mem_of_getElem? hi)
  cases hX : i.next? g with
  | none =>
    cases hA : i.lhs? g with
    | none =>
      simp only [ItemSet.extend, hX, hA] at h
      refine .next ?_ h
      simp [step, hi, hX, hA]
    | some A =>
      have hwalk : Ends (step g (earlier.map ItemSet.items))
          ⟨s.items, k + 1, some ⟨A, i.origin, 0⟩⟩ out := by
        cases hsource : earlier[i.origin]? with
        | none =>
          simp only [ItemSet.extend, hX, hA, hsource] at h
          exact ends_completionOwn hsource h
        | some source =>
          simp only [ItemSet.extend, hX, hA, hsource, ItemSet.addAdvanced_eq_addAll,
            ItemSet.filter_waiting] at h
          exact ends_completion hsource rfl h
      refine .next ?_ hwalk
      simp [step, hi, hX, hA]
  | some X =>
    cases X with
    | terminal kind =>
      simp only [ItemSet.extend, hX] at h
      refine .next ?_ h
      simp [step, hi, hX]
    | nonterminal A =>
      have hstart : ∀ j ∈ (g.alternatives A).map (Item.start earlier.size),
          j.isProper g n = true := by
        intro j hj
        obtain ⟨rule, hr, rfl⟩ := List.mem_map.1 hj
        exact Item.isProper_start hr hsize
      simp only [ItemSet.extend, hX] at h
      refine .next ?_ h
      by_cases hnull : g.isNullable A = true
      · simp [step, hi, hX, hnull, ItemSet.items_addAll hstart,
          ItemSet.items_add (Item.isProper_advance hproper hX)]
      · simp [step, hi, hX, hnull, ItemSet.items_addAll hstart]

theorem ends_closeFrom (hsize : earlier.size ≤ n) (k : Nat) (s : ItemSet g n) :
    Ends (step g (earlier.map ItemSet.items)) ⟨s.items, k, none⟩
      (s.closeFrom earlier k).items := by
  fun_induction ItemSet.closeFrom earlier k s with
  | case1 k s hk i ih => exact ends_extend hsize (Array.getElem?_eq_getElem hk) ih
  | case2 k s hk => exact .done (by simp [step, hk])

theorem ends_close (hsize : earlier.size ≤ n) (s : ItemSet g n) :
    Ends (step g (earlier.map ItemSet.items)) (.start s.items) (s.close earlier).items :=
  ends_closeFrom hsize 0 s

end Closing

/-! ## Reading -/

variable [DecidableEq T]

namespace Reading

variable {earlier out : Array (Array Item)} {c : Closing N} {items : Array Item} {kinds : List T}

/-- Closing a set is part of reading. -/
theorem ends_of_closing (hc : Ends (Closing.step g earlier) c items)
    (h : ∀ c, c.step g earlier = .inr items → Ends (step g) ⟨earlier, c, kinds⟩ out) :
    Ends (step g) ⟨earlier, c, kinds⟩ out := by
  induction hc with
  | done hc => exact h _ hc
  | next hc _ ih =>
    refine .next ?_ (ih h)
    rw [step, hc]

/-- Behind the last kind. -/
theorem step_nil (hc : c.step g earlier = .inr items) :
    step g ⟨earlier, c, ([] : List T)⟩ = .inr (earlier.push items) := by
  rw [step, hc]

/-- Before another kind. -/
theorem step_cons {sets : Array (ItemSet g n)} {s : ItemSet g n} {kind : T}
    (hc : c.step g (sets.map ItemSet.items) = .inr s.items) :
    step g ⟨sets.map ItemSet.items, c, kind :: kinds⟩ =
      if (s.scan kind).size = 0 then .inr ((sets.push s).map ItemSet.items)
      else .inl ⟨(sets.push s).map ItemSet.items, .start (s.scan kind).items, kinds⟩ := by
  rw [step, hc, ItemSet.size, ItemSet.items_scan, Array.map_push]

end Reading

namespace Chart

variable {sets : Array (ItemSet g n)} {kernel : ItemSet g n} {kinds : List T} {count : Nat}
  {config : ParserConfig} {chart : Chart g n}

theorem reading_ends_of_readFrom (hsize : sets.size + kinds.length = n)
    (hread : readFrom config kinds sets count kernel = .ok chart) :
    Ends (Reading.step g) ⟨sets.map ItemSet.items, .start kernel.items, kinds⟩
      (chart.sets.map ItemSet.items) := by
  induction kinds generalizing sets count kernel with
  | nil =>
    refine Reading.ends_of_closing (Closing.ends_close (by omega) kernel) fun c hc => ?_
    obtain rfl := eq_of_readFrom_nil hread
    rw [Array.map_push]
    exact .done (Reading.step_nil hc)
  | cons kind kinds ih =>
    rw [List.length_cons] at hsize
    refine Reading.ends_of_closing (Closing.ends_close (by omega) kernel) fun c hc => ?_
    rcases readFrom_cons_cases hread with ⟨hempty, rfl⟩ | ⟨hnext, hread⟩
    · exact .done (by rw [Reading.step_cons hc, if_pos hempty])
    · refine .next ?_ (ih (by rw [Array.size_push]; omega) hread)
      rw [Reading.step_cons hc, if_neg hnext]

/-- The loops that only add what is not there yet end with the chart that is read. -/
theorem reading_ends {start : N} {chart : Chart g kinds.length}
    (hread : read g config start kinds = .ok chart) :
    Ends (Reading.step g) (.start g start kinds) (chart.sets.map ItemSet.items) := by
  have hstart : ∀ i ∈ (g.alternatives start).map (Item.start 0),
      i.isProper g kinds.length = true := by
    intro i hi
    obtain ⟨rule, hr, rfl⟩ := List.mem_map.1 hi
    exact Item.isProper_start hr (Nat.zero_le _)
  have hends := reading_ends_of_readFrom (Nat.zero_add _) hread
  rw [ItemSet.items_addAll hstart, Array.map_empty] at hends
  exact hends

/-! ## The size of the chart -/

theorem isPlaced_of_readFrom (h : IsPlaced sets)
    (hk : ∀ i ∈ kernel, i.isProper g sets.size = true)
    (hread : readFrom config kinds sets count kernel = .ok chart) :
    IsPlaced chart.sets ∧ chart.sets.size ≤ sets.size + kinds.length + 1 := by
  induction kinds generalizing sets count kernel with
  | nil =>
    obtain rfl := eq_of_readFrom_nil hread
    exact ⟨h.push hk, by simp⟩
  | cons kind kinds ih =>
    have hpush := h.push hk
    rcases readFrom_cons_cases hread with ⟨-, rfl⟩ | ⟨-, hread⟩
    · exact ⟨hpush, by simp⟩
    · obtain ⟨hplaced, hsize⟩ := ih hpush (Array.size_push _ ▸ hpush.scan kind) hread
      rw [Array.size_push] at hsize
      exact ⟨hplaced, by rw [List.length_cons]; omega⟩

theorem isPlaced_of_read {start : N} {chart : Chart g kinds.length}
    (hread : read g config start kinds = .ok chart) :
    IsPlaced chart.sets ∧ chart.sets.size ≤ kinds.length + 1 := by
  have hempty : IsPlaced (#[] : Array (ItemSet g kinds.length)) := fun _ _ hi =>
    absurd hi.lt_size (Nat.not_lt_zero _)
  have h := isPlaced_of_readFrom hempty (fun i hi => ItemSet.isProper_of_mem_start hi) hread
  rwa [show (#[] : Array (ItemSet g kinds.length)).size = 0 from rfl, Nat.zero_add] at h

omit [DecidableEq T] in
theorem itemCount_eq_sum (chart : Chart g n) :
    chart.itemCount = ∑ p : Fin chart.sets.toList.length, chart.sets.toList[p].size := by
  refine Eq.trans ?_ (Fin.sum_univ_fun_getElem chart.sets.toList ItemSet.size).symm
  rw [itemCount, List.sum, List.foldr_map]

omit [DecidableEq T] in
theorem itemCount_le (h : IsPlaced chart.sets) (hsize : chart.sets.size ≤ n + 1) :
    chart.itemCount ≤ ∑ p ∈ Finset.range (n + 1),
      (p + 1) * (g.rules.toList.map fun r => r.rhs.length + 1).sum := by
  let bound (p : Nat) := (p + 1) * (g.rules.toList.map fun r => r.rhs.length + 1).sum
  calc chart.itemCount
      = ∑ p : Fin chart.sets.toList.length, chart.sets.toList[p].size := chart.itemCount_eq_sum
    _ ≤ ∑ p : Fin chart.sets.toList.length, bound p :=
        Finset.sum_le_sum fun p _ => h.size_le p.isLt
    _ = ∑ p ∈ Finset.range chart.sets.size, bound p := Fin.sum_univ_eq_sum_range bound _
    _ ≤ ∑ p ∈ Finset.range (n + 1), bound p :=
        Finset.sum_le_sum_of_subset (Finset.range_subset_range.2 hsize)

end Chart

end EarleyForest
