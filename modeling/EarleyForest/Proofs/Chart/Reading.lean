import EarleyForest.Chart.Recognition
import EarleyForest.Proofs.Chart.Validity

/-!
# What reading an input leaves in the chart

`IsReading start w sets`: `sets` are the closed sets at the first positions of `w`. Every item is
valid, and whatever the items at these positions call for is there. A set that is closed behind such
sets goes on with them (`IsReading.push`), so it holds of the chart when reading stops
(`reads_of_readFrom`): at the end of the input, or before a kind that no item waits for
(`Chart.Reads`). Without a limit reading always comes to its stop (`exists_read`).
-/

namespace EarleyForest

variable {T N : Type} [DecidableEq N] [SearchKey N] {g : Grammar T N} {n : Nat} {start : N}
  {w : List T}

/-- The item is in the set at the position. -/
def HasItem (sets : Array (ItemSet g n)) (p : Nat) (i : Item) : Prop :=
  ∃ s, sets[p]? = some s ∧ i ∈ s

theorem Chart.contains_iff {chart : Chart g n} {p : Nat} {i : Item} :
    chart.contains p i = true ↔ HasItem chart.sets p i := by
  simp [contains, HasItem, Option.any_eq_true]

theorem hasItem_push {sets : Array (ItemSet g n)} {s : ItemSet g n} {p : Nat} {i : Item} :
    HasItem (sets.push s) p i ↔ HasItem sets p i ∨ p = sets.size ∧ i ∈ s := by
  simp only [HasItem, Array.getElem?_push]
  split
  · subst p
    simp
  · simp [*]

theorem HasItem.lt_size {sets : Array (ItemSet g n)} {p : Nat} {i : Item}
    (h : HasItem sets p i) : p < sets.size := by
  obtain ⟨s, hs, -⟩ := h
  exact (Array.getElem?_eq_some_iff.1 hs).1

/-- `sets` are the closed sets at the first positions of `w`, read as `start`. -/
structure IsReading (start : N) (w : List T) (sets : Array (ItemSet g w.length)) : Prop where
  size_le : sets.size ≤ w.length + 1
  valid : ∀ {p i}, HasItem sets p i → i.IsValid g start w p
  start_mem : 0 < sets.size → ∀ {rule}, rule ∈ g.alternatives start →
    HasItem sets 0 (.start 0 rule)
  predict : ∀ {p i A rule}, HasItem sets p i → i.next? g = some (.nonterminal A) →
    rule ∈ g.alternatives A → HasItem sets p (.start p rule)
  skip : ∀ {p i A}, HasItem sets p i → i.next? g = some (.nonterminal A) →
    g.isNullable A = true → HasItem sets p i.advance
  complete : ∀ {p i j A}, HasItem sets p i → i.completes g A = true → i.origin < p →
    HasItem sets i.origin j → j.next? g = some (.nonterminal A) → HasItem sets p j.advance
  scan : ∀ {p i kind}, HasItem sets p i → i.next? g = some (.terminal kind) →
    w[p]? = some kind → p + 1 < sets.size → HasItem sets (p + 1) i.advance

/-- With `kernel` the set behind `sets` can begin. -/
structure IsKernel (start : N) (w : List T) (sets : Array (ItemSet g w.length))
    (kernel : ItemSet g w.length) : Prop where
  valid : ∀ {i}, i ∈ kernel → i.IsValid g start w sets.size
  start_mem : sets.size = 0 → ∀ {rule}, rule ∈ g.alternatives start → .start 0 rule ∈ kernel
  scan : ∀ {p i kind}, HasItem sets p i → i.next? g = some (.terminal kind) →
    w[p]? = some kind → p + 1 = sets.size → i.advance ∈ kernel

variable {sets : Array (ItemSet g w.length)} {s kernel : ItemSet g w.length}

theorem IsReading.le_length (h : IsReading start w sets) {p : Nat} (hp : p < sets.size) :
    p ≤ w.length := by
  have := h.size_le
  omega

theorem isReading_empty : IsReading start w (#[] : Array (ItemSet g w.length)) := by
  have none : ∀ {p : Nat} {i : Item}, ¬ HasItem (#[] : Array (ItemSet g w.length)) p i := by
    rintro p i ⟨s, hs, -⟩
    simp at hs
  exact ⟨by simp, fun h => absurd h none, fun h => absurd h (by simp), fun h => absurd h none,
    fun h => absurd h none, fun h => absurd h none, fun h => absurd h none⟩

section
variable (hg : g.rules.size ≤ 4294967296)
include hg

theorem isKernel_start : IsKernel start w (#[] : Array (ItemSet g w.length))
    (ItemSet.empty.addAll ((g.alternatives start).map (.start 0))) := by
  refine ⟨fun hi => ?_, fun _ rule hr => ?_, fun h => ?_⟩
  · rcases ItemSet.mem_addAll.1 hi with hi | ⟨hi, -⟩
    · exact absurd hi (ItemSet.not_mem_empty _)
    · obtain ⟨rule, hr, rfl⟩ := List.mem_map.1 hi
      exact Item.isValid_start hg hr (Nat.zero_le _) (.refl _)
  · obtain ⟨r, hrule, -⟩ := (Grammar.mem_alternatives_iff_rule? hg).1 hr
    exact ItemSet.mem_addAll.2 (.inr ⟨List.mem_map_of_mem hr,
      Item.isProper_iff.2 ⟨r, hrule, Nat.zero_le _, Nat.zero_le _⟩⟩)
  · exact absurd h.lt_size (by simp)

theorem IsReading.valid_close (h : IsReading start w sets) (hk : IsKernel start w sets kernel) :
    ∀ i ∈ kernel.close sets, i.IsValid g start w sets.size :=
  (Item.hereditary_isValid hg fun _ source hq _ hj => h.valid ⟨source, hq, hj⟩).close
    fun _ hi => hk.valid hi

/-- A closed set goes on with the sets in front of it. -/
theorem IsReading.push (h : IsReading start w sets) (hk : IsKernel start w sets kernel)
    (hsize : sets.size ≤ w.length) : IsReading start w (sets.push (kernel.close sets)) where
  size_le := by simpa using hsize
  valid hi := by
    rcases hasItem_push.1 hi with hi | ⟨rfl, hi'⟩
    · exact h.valid hi
    · exact h.valid_close hg hk _ hi'
  start_mem _ _ hr := by
    rcases Nat.eq_zero_or_pos sets.size with h0 | hpos
    · exact hasItem_push.2 (.inr ⟨h0.symm, ItemSet.mem_close_of_mem (hk.start_mem h0 hr)⟩)
    · exact hasItem_push.2 (.inl (h.start_mem hpos hr))
  predict hi hA hr := by
    rcases hasItem_push.1 hi with hi | ⟨rfl, hi'⟩
    · exact hasItem_push.2 (.inl (h.predict hi hA hr))
    · obtain ⟨r, hrule, -⟩ := (Grammar.mem_alternatives_iff_rule? hg).1 hr
      exact hasItem_push.2 (.inr ⟨rfl, (ItemSet.handled_close hi').predict _ hA _ hr
        (Item.isProper_iff.2 ⟨r, hrule, Nat.zero_le _, hsize⟩)⟩)
  skip hi hA hn := by
    rcases hasItem_push.1 hi with hi | ⟨rfl, hi'⟩
    · exact hasItem_push.2 (.inl (h.skip hi hA hn))
    · exact hasItem_push.2 (.inr ⟨rfl, (ItemSet.handled_close hi').skip _ hA hn⟩)
  complete hi hc ho hj hA := by
    rcases hasItem_push.1 hi with hi | ⟨rfl, hi'⟩
    · rcases hasItem_push.1 hj with hj | ⟨hlast, -⟩
      · exact hasItem_push.2 (.inl (h.complete hi hc ho hj hA))
      · exact absurd (hlast ▸ Nat.lt_trans ho hi.lt_size) (Nat.lt_irrefl _)
    · rcases hasItem_push.1 hj with ⟨source, hsource, hj⟩ | ⟨hlast, -⟩
      · exact hasItem_push.2
          (.inr ⟨rfl, (ItemSet.handled_close hi').complete _ source hc hsource _ hj hA⟩)
      · exact absurd (hlast ▸ ho) (Nat.lt_irrefl _)
  scan hi hX hkind hp := by
    rw [Array.size_push] at hp
    rcases hasItem_push.1 hi with hi | ⟨rfl, -⟩
    · rcases Nat.lt_or_eq_of_le (Nat.le_of_lt_succ hp) with hlt | heq
      · exact hasItem_push.2 (.inl (h.scan hi hX hkind hlt))
      · exact hasItem_push.2 (.inr ⟨heq, ItemSet.mem_close_of_mem (hk.scan hi hX hkind heq)⟩)
    · exact absurd hp (Nat.lt_irrefl _)

end

variable [DecidableEq T]

theorem IsReading.isKernel_scan {kind : T} (h : IsReading start w (sets.push s))
    (hkind : w[sets.size]? = some kind) : IsKernel start w (sets.push s) (s.scan kind) := by
  have hlen := (List.getElem?_eq_some_iff.1 hkind).1
  refine ⟨fun hi => ?_, fun h0 => absurd h0 (by simp), fun {p i kind'} hi hX hk hp => ?_⟩
  · obtain ⟨j, hj, hw, rfl, -⟩ := ItemSet.mem_scan.1 hi
    rw [Array.size_push]
    refine (h.valid (hasItem_push.2 (.inr ⟨rfl, hj⟩))).advance (Item.waitsForKind_iff.1 hw)
      (Nat.le_succ _) hlen ?_
    rw [segment_succ hkind]
    exact .terminal .nil
  · obtain rfl : p = sets.size := by simpa using hp
    cases hk.symm.trans hkind
    rcases hasItem_push.1 hi with hi | ⟨-, hi⟩
    · exact absurd hi.lt_size (Nat.lt_irrefl _)
    · exact ItemSet.mem_scan.2 ⟨i, hi, Item.waitsForKind_iff.2 hX, rfl,
        Item.isProper_advance (s.proper i hi) hX⟩

/-! ## The whole reading -/

/-- `chart` is what reading `w` as `start` leaves behind: it stops at the end of `w`, or before a
kind that no item waits for. -/
structure Chart.Reads (start : N) (w : List T) (chart : Chart g w.length) : Prop extends
    IsReading start w chart.sets where
  size_pos : 0 < chart.sets.size
  stop : chart.reached = w.length ∨ ∃ kind, w[chart.reached]? = some kind ∧
    ∀ i, HasItem chart.sets chart.reached i → i.next? g ≠ some (.terminal kind)

namespace Chart

section

variable {config : ParserConfig} {sets : Array (ItemSet g n)} {kernel : ItemSet g n} {count : Nat}
  {chart : Chart g n}

/-- At the end of the input one more set is closed. -/
theorem eq_of_readFrom_nil (h : readFrom config ([] : List T) sets count kernel = .ok chart) :
    chart = ⟨sets.push (kernel.close sets)⟩ := by
  simp only [readFrom] at h
  split at h
  · cases h
  · exact (Except.ok.inj h).symm

/-- Before a kind one more set is closed. Reading stops there if no item waits for the kind, and
goes on behind it otherwise. -/
theorem readFrom_cons_cases {kind : T} {kinds : List T}
    (h : readFrom config (kind :: kinds) sets count kernel = .ok chart) :
    ((kernel.close sets).scan kind).size = 0 ∧ chart = ⟨sets.push (kernel.close sets)⟩ ∨
      ((kernel.close sets).scan kind).size ≠ 0 ∧
        readFrom config kinds (sets.push (kernel.close sets)) (count + (kernel.close sets).size)
          ((kernel.close sets).scan kind) = .ok chart := by
  simp only [readFrom] at h
  split at h
  · cases h
  split at h
  · cases h
  split at h
  · exact .inl ⟨‹_›, (Except.ok.inj h).symm⟩
  · exact .inr ⟨‹_›, h⟩

end

theorem reads_of_readFrom (hg : g.rules.size ≤ 4294967296) {config : ParserConfig} {kinds : List T}
    {count : Nat} {chart : Chart g w.length} (h : IsReading start w sets)
    (hk : IsKernel start w sets kernel) (hsize : sets.size ≤ w.length)
    (hkinds : w.drop sets.size = kinds)
    (hread : readFrom config kinds sets count kernel = .ok chart) : chart.Reads start w := by
  induction kinds generalizing sets count kernel with
  | nil =>
    obtain rfl := eq_of_readFrom_nil hread
    have hend : w.length ≤ sets.size := List.drop_eq_nil_iff.1 hkinds
    refine ⟨h.push hg hk hsize, by simp, .inl ?_⟩
    simpa [reached] using Nat.le_antisymm hsize hend
  | cons kind kinds ih =>
    have hpush := h.push hg hk hsize
    have hlt : sets.size < w.length := by
      have := congrArg List.length hkinds
      rw [List.length_drop, List.length_cons] at this
      omega
    rw [List.drop_eq_getElem_cons hlt] at hkinds
    obtain ⟨hkind, hrest⟩ := List.cons_eq_cons.1 hkinds
    replace hkind : w[sets.size]? = some kind := hkind ▸ List.getElem?_eq_getElem hlt
    have hkernel := hpush.isKernel_scan hkind
    rcases readFrom_cons_cases hread with ⟨hempty, rfl⟩ | ⟨-, hread⟩
    · have hreached : reached (⟨sets.push (kernel.close sets)⟩ : Chart g w.length) = sets.size := by
        simp [reached]
      refine ⟨hpush, by simp, .inr ⟨kind, hreached ▸ hkind, fun i hi hX => ?_⟩⟩
      have hnext := hkernel.scan hi hX (hreached ▸ hkind) (by simp [hreached])
      rw [ItemSet.mem_def, Array.size_eq_zero_iff.1 hempty] at hnext
      simp at hnext
    · exact ih hpush hkernel (Array.size_push .. ▸ hlt) (Array.size_push .. ▸ hrest) hread

theorem reads_of_read (hg : g.rules.size ≤ 4294967296) {config : ParserConfig}
    {chart : Chart g w.length} (h : read g config start w = .ok chart) : chart.Reads start w :=
  reads_of_readFrom hg isReading_empty (isKernel_start hg) (Nat.zero_le _) rfl h

/-- Without a limit the chart never outgrows it. -/
theorem exists_readFrom {config : ParserConfig} (hc : config.maxItems = none) (kinds : List T)
    (sets : Array (ItemSet g n)) (count : Nat) (kernel : ItemSet g n) :
    ∃ chart, readFrom config kinds sets count kernel = .ok chart := by
  induction kinds generalizing sets count kernel with
  | nil => simp [readFrom, ParserConfig.exceeded?, hc]
  | cons kind kinds ih =>
    simp only [readFrom, ParserConfig.exceeded?, hc, Option.filter_none]
    split
    · exact ⟨_, rfl⟩
    · exact ih _ _ _

theorem exists_read {config : ParserConfig} (hc : config.maxItems = none) (g : Grammar T N)
    (start : N) (w : List T) : ∃ chart, read g config start w = .ok chart :=
  exists_readFrom hc _ _ _ _

end Chart

end EarleyForest
