import EarleyForest.Chart.Filling
import EarleyForest.Proofs.Chart.Worklists

/-!
# The chart that is filled

A chart with a set for each position is filled by the same rounds as one that is made longer with
each set (`Filling.step_filling`): what is put at the position that is being closed is added to the
last set. So filling it ends with the sets of the chart that is read and empty ones behind them
(`Ends.image`). What has been closed stays closed (`HasClosed.step`), and then the set is the one
that the chart ends with (`HasClosed.ends`).
-/

namespace EarleyForest

variable {T N : Type}

/-! ## Sets at their positions -/

/-- The sets `earlier`, the set `items`, and `k` empty ones. -/
def layout (earlier : Array (Array Item)) (items : Array Item) (k : Nat) : Array (Array Item) :=
  earlier.push items ++ Array.replicate k #[]

section Layout

variable {earlier : Array (Array Item)} {items : Array Item} {k p : Nat}

theorem layout_succ : layout earlier items (k + 1) = layout (earlier.push items) #[] k := by
  apply Array.toList_inj.1
  simp [layout, List.replicate_succ]

theorem getElem?_layout (hp : p ≤ earlier.size) :
    (layout earlier items k)[p]? = some (earlier[p]?.getD items) := by
  rw [layout, Array.getElem?_append_left (by simpa using Nat.lt_succ_of_le hp),
    Array.getElem?_push]
  split
  · simp [*]
  · have hlt : p < earlier.size := by omega
    simp [hlt]

theorem itemsAt_layout (hp : p ≤ earlier.size) :
    itemsAt (layout earlier items k) p = earlier[p]?.getD items := by
  rw [itemsAt, Array.getD_eq_getD_getElem?, getElem?_layout hp, Option.getD_some]

theorem itemsAt_layout_size : itemsAt (layout earlier items k) earlier.size = items := by
  rw [itemsAt_layout (Nat.le_refl _), Array.getElem?_size, Option.getD_none]

theorem putAt_layout (i : Item) :
    putAt earlier.size (layout earlier items k) i = layout earlier (pushNew items i) k := by
  apply Array.ext_getElem?
  intro p
  simp only [putAt, layout, Array.getElem?_modify, Array.getElem?_append, Array.getElem?_push,
    Array.size_push]
  by_cases hp : p = earlier.size
  · simp [hp]
  · simp [hp, Ne.symm hp]

theorem foldl_putAt_layout (added : List Item) :
    added.foldl (putAt earlier.size) (layout earlier items k) =
      layout earlier (added.foldl pushNew items) k := by
  induction added generalizing items with
  | nil => rfl
  | cons i added ih => rw [List.foldl_cons, putAt_layout, ih, List.foldl_cons]

end Layout

/-! ## Items begin where they are or before -/

section Begun

variable {earlier : Array (Array Item)} {items : Array Item} {i : Item}

theorem mem_pushNew {j : Item} : j ∈ pushNew items i ↔ j ∈ items ∨ j = i := by
  unfold pushNew
  split
  · refine ⟨.inl, ?_⟩
    rintro (h | rfl) <;> assumption
  · exact Array.mem_push

theorem forall_mem_foldl_pushNew {P : Item → Prop} {added : List Item} (hitems : ∀ j ∈ items, P j)
    (hadded : ∀ j ∈ added, P j) : ∀ j ∈ added.foldl pushNew items, P j := by
  induction added generalizing items with
  | nil => exact hitems
  | cons i added ih =>
    rw [List.forall_mem_cons] at hadded
    refine ih (fun j hj => ?_) hadded.2
    rcases mem_pushNew.1 hj with hj | rfl
    · exact hitems j hj
    · exact hadded.1

/-- Every item of the sets `earlier`, and of the set `items` behind them, begins at the position of
its set or before. -/
def AllBegun (earlier : Array (Array Item)) (items : Array Item) : Prop :=
  ∀ p ≤ earlier.size, ∀ i ∈ earlier[p]?.getD items, i.origin ≤ p

namespace AllBegun

theorem own (h : AllBegun earlier items) : ∀ i ∈ items, i.origin ≤ earlier.size := by
  intro i hi
  refine h earlier.size (Nat.le_refl _) i ?_
  rwa [Array.getElem?_size, Option.getD_none]

/-- The last set may be another one. -/
theorem of_own (h : AllBegun earlier items) {items' : Array Item}
    (hown : ∀ i ∈ items', i.origin ≤ earlier.size) : AllBegun earlier items' := by
  intro p hp i hi
  rcases Nat.lt_or_eq_of_le hp with hlt | rfl
  · refine h p hp i ?_
    rwa [Array.getElem?_eq_getElem hlt] at hi ⊢
  · rw [Array.getElem?_size, Option.getD_none] at hi
    exact hown i hi

theorem foldl_pushNew (h : AllBegun earlier items) {added : List Item}
    (hadded : ∀ i ∈ added, i.origin ≤ earlier.size) :
    AllBegun earlier (added.foldl pushNew items) :=
  h.of_own (forall_mem_foldl_pushNew h.own hadded)

theorem pushNew (h : AllBegun earlier items) (hi : i.origin ≤ earlier.size) :
    AllBegun earlier (pushNew items i) :=
  h.foldl_pushNew (List.forall_mem_singleton.2 hi)

/-- One more set. -/
theorem push (h : AllBegun earlier items) {items' : Array Item}
    (hown : ∀ i ∈ items', i.origin ≤ earlier.size) : AllBegun (earlier.push items) items' := by
  intro p hp i hi
  rw [Array.size_push] at hp
  rcases Nat.lt_or_eq_of_le hp with hlt | rfl
  · refine h p (Nat.le_of_lt_succ hlt) i ?_
    rw [Array.getElem?_push] at hi
    split at hi
    · subst p
      rwa [Array.getElem?_size]
    · have hlt : p < earlier.size := by omega
      rwa [Array.getElem?_eq_getElem hlt] at hi ⊢
  · rw [← Array.size_push items, Array.getElem?_size, Option.getD_none] at hi
    exact Nat.le_succ_of_le (hown i hi)

end AllBegun

end Begun

variable [DecidableEq N] [SearchKey N] {g : Grammar T N} {w : List T}

/-- What holds while `w` is read: the kinds behind the position are left, and items and walks begin
at their position or before. -/
structure Reading.IsWorking (w : List T) (r : Reading T N) : Prop where
  kinds_eq : w.drop r.earlier.size = r.kinds
  size_le : r.earlier.size ≤ w.length
  begun : AllBegun r.earlier r.closing.items
  walk_le : ∀ walk, r.closing.completion? = some walk → walk.position ≤ r.earlier.size

namespace Closing

variable {earlier : Array (Array Item)} {c c' : Closing N} {out : Array Item}

/-- A round of closing keeps the items and the walk where they may be. -/
theorem begun_step (hbegun : AllBegun earlier c.items)
    (hwalk : ∀ walk, c.completion? = some walk → walk.position ≤ earlier.size)
    (h : c.step g earlier = .inl c') : AllBegun earlier c'.items ∧
      ∀ walk, c'.completion? = some walk → walk.position ≤ earlier.size := by
  obtain ⟨items, index, completion?⟩ := c
  cases completion? with
  | some walk =>
    have hle := hwalk walk rfl
    simp only [step] at h
    split at h
    · cases h
      exact ⟨hbegun, fun _ hwalk => by cases hwalk⟩
    · rename_i parent hparent
      cases h
      refine ⟨?_, fun _ heq => Option.some.inj heq ▸ hle⟩
      dsimp only
      split
      · have horigin := hbegun _ hle parent (Array.mem_of_getElem? hparent)
        exact hbegun.pushNew (Nat.le_trans horigin hle)
      · exact hbegun
  | none =>
    simp only [step] at h
    split at h
    · cases h
    · rename_i i hi
      have horigin := hbegun.own i (Array.mem_of_getElem? hi)
      split at h
      · cases h
        exact ⟨hbegun, fun _ hwalk => by cases hwalk⟩
      · rename_i A hA
        cases h
        have hpredicted : AllBegun earlier
            (((g.alternatives A).map (Item.start earlier.size)).foldl EarleyForest.pushNew items) := by
          refine hbegun.foldl_pushNew fun j hj => ?_
          obtain ⟨rule, -, rfl⟩ := List.mem_map.1 hj
          exact Nat.le_refl _
        refine ⟨?_, fun _ hwalk => by cases hwalk⟩
        dsimp only
        split
        · exact hpredicted.pushNew horigin
        · exact hpredicted
      · cases h
        refine ⟨hbegun, fun walk heq => ?_⟩
        obtain ⟨A, -, rfl⟩ := Option.map_eq_some_iff.1 heq
        exact horigin

/-- A set is closed when no walk is begun and all items have been gone through. -/
theorem step_eq_inr_iff : c.step g earlier = .inr out ↔
    c.completion? = none ∧ c.items[c.index]? = none ∧ out = c.items := by
  obtain ⟨items, index, completion?⟩ := c
  cases completion? with
  | some walk =>
    simp only [step]
    split <;> simp
  | none =>
    simp only [step]
    split
    · rename_i hi
      simp [hi, eq_comm]
    · rename_i i hi
      split <;> simp [hi]

end Closing

/-! ## The same rounds -/

namespace Reading

variable [DecidableEq T] {r r' : Reading T N} {out : Array (Array Item)}

/-- The chart of a reading, with a set for each position. -/
def filling (r : Reading T N) : Filling N where
  sets := layout r.earlier r.closing.items r.kinds.length
  position := r.earlier.size
  index := r.closing.index
  completion? := r.closing.completion?

/-- What a round of reading can do: the set at work is gone on with, or it is closed and the next kind
begins another one. -/
theorem step_cases (h : r.step g = .inl r') :
    (∃ c, r.closing.step g r.earlier = .inl c ∧ r' = { r with closing := c }) ∨
      ∃ kind kinds, r.closing.step g r.earlier = .inr r.closing.items ∧ r.kinds = kind :: kinds ∧
        r' = ⟨r.earlier.push r.closing.items, .start (((r.closing.items.toList.filter
          (·.waitsForKind g kind)).map .advance).foldl pushNew #[]), kinds⟩ := by
  obtain ⟨earlier, c, kinds⟩ := r
  simp only [step] at h
  split at h
  · rename_i c' hc
    cases h
    exact .inl ⟨c', hc, rfl⟩
  · rename_i items hc
    obtain ⟨-, -, rfl⟩ := Closing.step_eq_inr_iff.1 hc
    split at h
    · cases h
    · rename_i kind kinds
      split at h
      · cases h
      · cases h
        exact .inr ⟨kind, kinds, hc, rfl, rfl⟩

/-- Reading stops when the set at work is closed. -/
theorem step_eq_inr (h : r.step g = .inr out) : out = r.earlier.push r.closing.items := by
  obtain ⟨earlier, c, kinds⟩ := r
  simp only [step] at h
  split at h
  · cases h
  · rename_i items hc
    obtain ⟨-, -, rfl⟩ := Closing.step_eq_inr_iff.1 hc
    split at h
    · exact (Sum.inr.inj h).symm
    · split at h
      · exact (Sum.inr.inj h).symm
      · cases h

theorem IsWorking.step (h : r.IsWorking w) (hstep : r.step g = .inl r') : r'.IsWorking w := by
  rcases step_cases hstep with ⟨c, hc, rfl⟩ | ⟨kind, kinds, hc, hkinds, rfl⟩
  · obtain ⟨hbegun, hwalk⟩ := Closing.begun_step h.begun h.walk_le hc
    exact ⟨h.kinds_eq, h.size_le, hbegun, hwalk⟩
  · obtain ⟨hkind, hrest⟩ := drop_eq_cons (h.kinds_eq.trans hkinds)
    have hlt := (List.getElem?_eq_some_iff.1 hkind).1
    refine ⟨by rwa [Array.size_push], by rwa [Array.size_push], h.begun.push ?_,
      fun _ hwalk => by cases hwalk⟩
    refine forall_mem_foldl_pushNew (fun _ hi => absurd hi (Array.not_mem_empty _)) fun i hi => ?_
    obtain ⟨j, hj, rfl⟩ := List.mem_map.1 hi
    exact h.begun.own j (Array.mem_toList_iff.1 (List.mem_filter.1 hj).1)

/-- The sets that have been closed remain. -/
theorem size_lt (h : Ends (Reading.step g) r out) : r.earlier.size < out.size := by
  induction h with
  | @done r out hdone =>
    rw [step_eq_inr hdone, Array.size_push]
    apply Nat.lt_succ_self
  | @next r r' _ hnext _ ih =>
    rcases step_cases hnext with ⟨c, -, rfl⟩ | ⟨kind, kinds, -, -, rfl⟩
    · exact ih
    · rw [Array.size_push] at ih
      exact Nat.lt_of_succ_lt ih

end Reading

/-- The sets, and empty ones up to the position `n`. -/
def padded (n : Nat) (sets : Array (Array Item)) : Array (Array Item) :=
  sets ++ Array.replicate (n + 1 - sets.size) #[]

namespace Filling

omit [DecidableEq N] [SearchKey N] in
theorem layout_eq_padded {earlier : Array (Array Item)} {items : Array Item} {kinds : List T}
    (hkinds : w.drop earlier.size = kinds) (hsize : earlier.size ≤ w.length) :
    layout earlier items kinds.length = padded w.length (earlier.push items) := by
  have hlength : w.length + 1 - (earlier.push items).size = kinds.length := by
    rw [← hkinds, List.length_drop, Array.size_push]
    omega
  rw [padded, hlength, layout]

theorem start_eq (g : Grammar T N) (start : N) (w : List T) :
    Filling.start g start w.length = (Reading.start g start w).filling := by
  have hempty : Array.replicate (w.length + 1) (#[] : Array Item) = layout #[] #[] w.length := by
    simp [layout, Array.replicate_succ']
  have hfill := @foldl_putAt_layout #[] #[] w.length ((g.alternatives start).map (.start 0))
  rw [Filling.start, hempty]
  simp only [Reading.filling, Reading.start, Closing.start]
  exact congrArg (fun sets => (⟨sets, 0, 0, none⟩ : Filling N)) hfill

variable [DecidableEq T] {r : Reading T N}

/-- A round that fills the chart is a round that makes it longer. -/
theorem step_filling (h : r.IsWorking w) :
    step g w r.filling = Sum.map Reading.filling (padded w.length) (r.step g) := by
  obtain ⟨earlier, ⟨items, index, completion?⟩, kinds⟩ := r
  have hpadded : layout earlier items kinds.length = padded w.length (earlier.push items) :=
    layout_eq_padded h.kinds_eq h.size_le
  cases completion? with
  | some walk =>
    have hle := h.walk_le walk rfl
    simp only [step, Reading.filling, Reading.step, Closing.step, itemsAt_layout hle]
    cases (earlier[walk.position]?.getD items)[walk.index]? with
    | none => rfl
    | some parent =>
      by_cases hwaits : parent.waitsFor g walk.symbol = true
      · simp [hwaits, Reading.filling, putAt_layout]
      · simp [hwaits, Reading.filling]
  | none =>
    simp only [step, Reading.filling, Reading.step, Closing.step, itemsAt_layout_size]
    cases items[index]? with
    | some i =>
      cases hX : i.next? g with
      | none =>
        simp only [hX]
        rfl
      | some X =>
        cases X with
        | terminal kind =>
          simp only [hX]
          rfl
        | nonterminal A =>
          by_cases hnull : g.isNullable A = true
          · simp [hX, hnull, Reading.filling, foldl_putAt_layout, putAt_layout]
          · simp [hX, hnull, Reading.filling, foldl_putAt_layout]
    | none =>
      cases kinds with
      | nil =>
        have hend : w[earlier.size]? = none := by
          have hdrop := List.drop_eq_nil_iff.1 h.kinds_eq
          exact List.getElem?_eq_none hdrop
        simp only [hend]
        exact congrArg Sum.inr hpadded
      | cons kind kinds =>
        obtain ⟨hkind, hkinds⟩ := drop_eq_cons h.kinds_eq
        have hsize : earlier.size + 1 = (earlier.push items).size := (Array.size_push items).symm
        simp only [hkind, List.length_cons, layout_succ, hsize, foldl_putAt_layout,
          itemsAt_layout_size]
        split
        · rename_i hempty
          rw [Array.size_eq_zero_iff.1 hempty, ← layout_succ]
          exact congrArg Sum.inr hpadded
        · rfl

end Filling

theorem Reading.isWorking_start [DecidableEq T] (g : Grammar T N) (start : N) (w : List T) :
    (Reading.start g start w).IsWorking w := by
  refine ⟨rfl, Nat.zero_le _, ?_, fun _ hwalk => by cases hwalk⟩
  have hempty : AllBegun #[] #[] := fun p hp i hi => by simp at hi
  refine hempty.foldl_pushNew fun i hi => ?_
  obtain ⟨rule, -, rfl⟩ := List.mem_map.1 hi
  exact Nat.le_refl 0

/-! ## Closed sets stay as they are -/

namespace Filling

section Put

variable {sets : Array (Array Item)} {p q : Nat}

omit [DecidableEq N] [SearchKey N] in
theorem itemsAt_putAt_of_ne (hne : p ≠ q) (i : Item) :
    itemsAt (putAt q sets i) p = itemsAt sets p := by
  simp [itemsAt, putAt, Array.getD_eq_getD_getElem?, Array.getElem?_modify, hne.symm]

theorem itemsAt_foldl_putAt_of_ne (hne : p ≠ q) (added : List Item) :
    itemsAt (added.foldl (putAt q) sets) p = itemsAt sets p := by
  induction added generalizing sets with
  | nil => rfl
  | cons i added ih => rw [List.foldl_cons, ih, itemsAt_putAt_of_ne hne]

end Put

variable [DecidableEq T] {c c' : Filling N} {p : Nat} {out : Array (Array Item)}

omit [DecidableEq N] [SearchKey N] [DecidableEq T] in
theorem hasClosed_position_iff : c.HasClosed c.position ↔
    c.completion? = none ∧ (itemsAt c.sets c.position)[c.index]? = none := by
  simp [HasClosed]

/-- What a round can do: it puts items at the position, or, when these have all been gone through,
at the next one. -/
theorem step_cases (h : c.step g w = .inl c') :
    (¬ c.HasClosed c.position ∧ c'.position = c.position ∨
        c.HasClosed c.position ∧ c'.position = c.position + 1) ∧
      ∃ added : List Item, c'.sets = added.foldl (putAt c'.position) c.sets := by
  rw [hasClosed_position_iff]
  obtain ⟨sets, position, index, completion?⟩ := c
  cases completion? with
  | some walk =>
    refine ⟨.inl ⟨by simp, ?_⟩, ?_⟩
    all_goals
      simp only [step] at h
      split at h
    · cases h
      rfl
    · cases h
      rfl
    · cases h
      exact ⟨[], rfl⟩
    · rename_i parent hparent
      cases h
      dsimp only
      split
      · exact ⟨[parent.advance], rfl⟩
      · exact ⟨[], rfl⟩
  | none =>
    simp only [step] at h
    split at h
    · rename_i i hi
      have hopen : ¬ ((none : Option (Completion N)) = none ∧ (itemsAt sets position)[index]? = none) := by
        simp [hi]
      split at h
      · cases h
        exact ⟨.inl ⟨hopen, rfl⟩, [], rfl⟩
      · rename_i A hA
        cases h
        refine ⟨.inl ⟨hopen, rfl⟩, ?_⟩
        dsimp only
        split
        · exact ⟨(g.alternatives A).map (.start position) ++ [i.advance], by simp⟩
        · exact ⟨(g.alternatives A).map (.start position), rfl⟩
      · cases h
        exact ⟨.inl ⟨hopen, rfl⟩, [], rfl⟩
    · rename_i hnone
      split at h
      · cases h
      · split at h
        · cases h
        · cases h
          exact ⟨.inr ⟨⟨rfl, hnone⟩, rfl⟩, _, rfl⟩

/-- The chart is filled when the items at the last position have been gone through. -/
theorem step_eq_inr (h : c.step g w = .inr out) : c.HasClosed c.position ∧
    ∃ added : List Item, out = added.foldl (putAt (c.position + 1)) c.sets := by
  rw [hasClosed_position_iff]
  obtain ⟨sets, position, index, completion?⟩ := c
  cases completion? with
  | some walk =>
    simp only [step] at h
    split at h <;> cases h
  | none =>
    simp only [step] at h
    split at h
    · split at h <;> cases h
    · rename_i hnone
      split at h
      · cases h
        exact ⟨⟨rfl, hnone⟩, [], rfl⟩
      · split at h
        · cases h
          exact ⟨⟨rfl, hnone⟩, _, rfl⟩
        · cases h

omit [DecidableEq N] [SearchKey N] [DecidableEq T] in
theorem HasClosed.le (h : c.HasClosed p) : p ≤ c.position := by
  rcases h with hlt | ⟨rfl, -⟩
  · exact Nat.le_of_lt hlt
  · exact Nat.le_refl _

omit [DecidableEq N] [SearchKey N] [DecidableEq T] in
theorem HasClosed.mono {m : Nat} (h : c.HasClosed p) (hm : m ≤ p) : c.HasClosed m := by
  rcases Nat.lt_or_eq_of_le hm with hlt | rfl
  · exact .inl (Nat.lt_of_lt_of_le hlt h.le)
  · exact h

omit [DecidableEq N] [SearchKey N] [DecidableEq T] in
theorem HasClosed.lt_of_not (h : c.HasClosed p) (hopen : ¬ c.HasClosed c.position) :
    p < c.position := by
  rcases h with hlt | ⟨rfl, hclosed⟩
  · exact hlt
  · exact absurd (.inr ⟨rfl, hclosed⟩) hopen

/-- No round puts an item where the items have been gone through. -/
theorem HasClosed.step (h : c.HasClosed p) (hstep : c.step g w = .inl c') :
    c'.HasClosed p ∧ itemsAt c'.sets p = itemsAt c.sets p := by
  obtain ⟨hposition, added, hsets⟩ := step_cases hstep
  have hlt : p < c'.position := by
    rcases hposition with ⟨hopen, heq⟩ | ⟨-, heq⟩
    · have := h.lt_of_not hopen
      omega
    · have := h.le
      omega
  rw [hsets]
  exact ⟨.inl hlt, itemsAt_foldl_putAt_of_ne (Nat.ne_of_lt hlt) added⟩

/-- Nor do the rounds that follow. -/
theorem HasClosed.passes (h : c.HasClosed p) (hpasses : Passes (Filling.step g w) c c') :
    c'.HasClosed p ∧ itemsAt c'.sets p = itemsAt c.sets p := by
  refine hpasses.keeps (I := fun c' => c'.HasClosed p ∧ itemsAt c'.sets p = itemsAt c.sets p)
    ⟨h, rfl⟩ ?_
  rintro c₁ c₂ ⟨hclosed, heq⟩ hstep
  obtain ⟨hclosed', heq'⟩ := hclosed.step hstep
  exact ⟨hclosed', heq'.trans heq⟩

theorem HasClosed.ends (h : c.HasClosed p) (hends : Ends (Filling.step g w) c out) :
    itemsAt out p = itemsAt c.sets p := by
  induction hends with
  | done hdone =>
    obtain ⟨-, added, rfl⟩ := step_eq_inr hdone
    have := h.le
    exact itemsAt_foldl_putAt_of_ne (by omega) added
  | next hstep _ ih =>
    obtain ⟨hclosed, heq⟩ := h.step hstep
    rw [ih hclosed, heq]

end Filling

end EarleyForest
