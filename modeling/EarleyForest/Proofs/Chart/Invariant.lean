import EarleyForest.Proofs.Chart.Filling
import EarleyForest.Proofs.Parser.Recognition

/-!
# What is known of a closed set

As soon as a position has been closed, its set holds the items that can be at work there, once each,
and keeps to them (`Chart.filling_exact`). Such an item is a rule that begins where a derivation from
the start leads to its left-hand side, and whose symbols before the dot derive the kinds from there
on (`Item.IsViable`). So it goes back to the item whose dot stands one symbol before
(`IsValid.exists_split`).
-/

namespace EarleyForest

variable {T N : Type} [DecidableEq N] [SearchKey N] {g : Grammar T N} {start : N} {w : List T}
  {p : Nat}

namespace Item

/-- From `start` a string is derived in which the left-hand side of the rule stands behind the kinds
before the origin, and the symbols before the dot derive the kinds from there up to `p`. -/
def IsViable (g : Grammar T N) (start : N) (w : List T) (p : Nat) (i : Item) : Prop :=
  ∃ r, g.rule? i.rule = some r ∧ i.dot ≤ r.rhs.length ∧ i.origin ≤ p ∧
    (∃ rest, Derives g.rules.toList [.nonterminal start]
      (word (w.take i.origin) ++ .nonterminal r.lhs :: rest)) ∧
    Derives g.rules.toList (r.rhs.take i.dot) (word (segment w i.origin p))

theorem isValid_iff_isViable {i : Item} (hp : p ≤ w.length) :
    i.IsValid g start w p ↔ i.IsViable g start w p := by
  constructor
  · rintro ⟨r, hr, hdot, ho, -, hy, hc⟩
    exact ⟨r, hr, hdot, ho, hc.derives, derives_word_iff_yields.2 hy⟩
  · rintro ⟨r, hr, hdot, ho, ⟨rest, hstart⟩, hy⟩
    exact ⟨r, hr, hdot, ho, hp, derives_word_iff_yields.1 hy, hstart.leftContext⟩

/-- The symbol before the dot derives the last part of what was read. -/
theorem IsValid.exists_split {rule : RuleId} {dot origin : Nat}
    (h : (⟨rule, dot + 1, origin⟩ : Item).IsValid g start w p) :
    ∃ X m, (⟨rule, dot, origin⟩ : Item).next? g = some X ∧ origin ≤ m ∧ m ≤ p ∧
      (⟨rule, dot, origin⟩ : Item).IsValid g start w m ∧
      Yields g.rules.toList [X] (segment w m p) := by
  obtain ⟨r, hr, hdot, ho, hp, hy, hc⟩ := h
  have hlt : dot < r.rhs.length := hdot
  rw [List.take_succ_eq_append_getElem hlt] at hy
  obtain ⟨u, v, huv, hu, hv⟩ := hy.exists_append
  obtain ⟨m, hom, hmp, rfl, rfl⟩ := exists_of_segment_eq_append ho hp huv
  have hnext : (⟨rule, dot, origin⟩ : Item).next? g = some r.rhs[dot] :=
    next?_eq_some_iff.2 ⟨r, hr, List.getElem?_eq_getElem hlt⟩
  exact ⟨_, m, hnext, hom, hmp, ⟨r, hr, hlt.le, hom, Nat.le_trans hmp hp, hu, hc⟩, hv⟩

end Item

/-- The set at `p` is the one that belongs there. -/
structure IsExactAt (g : Grammar T N) (start : N) (w : List T) (sets : Array (Array Item))
    (p : Nat) : Prop where
  mem_iff : ∀ i, i ∈ itemsAt sets p ↔ i.IsViable g start w p
  nodup : (itemsAt sets p).toList.Nodup
  exists_split : ∀ rule dot origin, ⟨rule, dot + 1, origin⟩ ∈ itemsAt sets p →
    ∃ X m, (⟨rule, dot, origin⟩ : Item).next? g = some X ∧ origin ≤ m ∧ m ≤ p ∧
      ⟨rule, dot, origin⟩ ∈ itemsAt sets m ∧
      Derives g.rules.toList [X] (word (segment w m p))

/-- The sets of a reading are exact, wherever they stand in a chart. -/
theorem IsReading.isExactAt (hg : g.rules.size ≤ 4294967296)
    {sets : Array (ItemSet g w.length)} (h : IsReading start w sets) {filled : Array (Array Item)}
    (hp : p < sets.size)
    (hsame : ∀ m ≤ p, sets[m]?.map ItemSet.items = some (itemsAt filled m)) :
    IsExactAt g start w filled p := by
  have hmem {m : Nat} (hm : m ≤ p) (i : Item) :
      i ∈ itemsAt filled m ↔ i.IsValid g start w m := by
    obtain ⟨s, hs, heq⟩ := Option.map_eq_some_iff.1 (hsame m hm)
    rw [← h.hasItem_iff hg (Nat.lt_of_le_of_lt hm hp), ← heq, ← ItemSet.mem_def]
    simp [HasItem, hs]
  have hlen := h.le_length hp
  refine ⟨fun i => ?_, ?_, fun rule dot origin hi => ?_⟩
  · rw [hmem (Nat.le_refl p), Item.isValid_iff_isViable hlen]
  · obtain ⟨s, -, heq⟩ := Option.map_eq_some_iff.1 (hsame p (Nat.le_refl p))
    rw [← heq]
    exact s.nodup
  · have hvalid := (hmem (Nat.le_refl p) _).1 hi
    obtain ⟨X, m, hX, hom, hmp, hm, hy⟩ := hvalid.exists_split
    exact ⟨X, m, hX, hom, hmp, (hmem hmp _).2 hm, derives_word_iff_yields.2 hy⟩

theorem itemsAt_padded {sets : Array (Array Item)} {n : Nat} (hp : p < sets.size) :
    itemsAt (padded n sets) p = sets[p] := by
  rw [itemsAt, Array.getD_eq_getD_getElem?, padded, Array.getElem?_append_left hp,
    Array.getElem?_eq_getElem hp, Option.getD_some]

variable [DecidableEq T]

namespace Chart

variable {config : ParserConfig} {chart : Chart g w.length} {c : Filling N}

/-- Filling a chart for `w` ends with the chart that is read. -/
theorem filling_ends (hread : read g config start w = .ok chart) :
    Ends (Filling.step g w) (.start g start w.length)
      (padded w.length (chart.sets.map ItemSet.items)) := by
  rw [Filling.start_eq]
  exact (reading_ends hread).image (fun _ _ h hstep => h.step hstep)
    (fun _ h => Filling.step_filling h) (Reading.isWorking_start g start w)

/-- What has been closed is a set of the chart that is read. -/
theorem items_eq_of_hasClosed (hread : read g config start w = .ok chart)
    (hc : Passes (Filling.step g w) (.start g start w.length) c) (hclosed : c.HasClosed p) :
    chart.sets[p]?.map ItemSet.items = some (itemsAt c.sets p) := by
  have hlt : p < (chart.sets.map ItemSet.items).size := by
    rw [Filling.start_eq] at hc
    obtain ⟨r, hr, rfl⟩ := hc.exists_of_image (fun _ _ h hstep => Reading.IsWorking.step h hstep)
      (fun _ h => Filling.step_filling h) (Reading.isWorking_start g start w)
    exact Nat.lt_of_le_of_lt hclosed.le (Reading.size_lt (hr.ends (reading_ends hread)))
  rw [← hclosed.ends (hc.ends (filling_ends hread)), itemsAt_padded hlt, ← Array.getElem?_map,
    Array.getElem?_eq_getElem hlt]

/-- All positions that are reached are closed. -/
theorem exists_hasClosed (hread : read g config start w = .ok chart) (hp : p ≤ chart.reached) :
    ∃ c, Passes (Filling.step g w) (.start g start w.length) c ∧ c.HasClosed p := by
  have hlast := (reading_ends hread).exists_last (I := fun r =>
    Passes (Reading.step g) (.start g start w) r) .refl (fun _ _ h hstep => h.tail hstep)
  obtain ⟨r, hr, hstep⟩ := hlast
  have hpasses := hr.image (fun _ _ h hstep => Reading.IsWorking.step h hstep)
    (fun _ h => Filling.step_filling h) (Reading.isWorking_start g start w)
  have hworking := hr.keeps (Reading.isWorking_start g start w) fun _ _ h hstep => h.step hstep
  have hfill := Filling.step_filling (g := g) hworking
  rw [hstep, Sum.map_inr] at hfill
  have hclosed := (Filling.step_eq_inr hfill).1
  have hreached : chart.reached = r.filling.position := by
    have hsize := congrArg Array.size (Reading.step_eq_inr hstep)
    rw [Array.size_map, Array.size_push] at hsize
    rw [reached, hsize]
    rfl
  rw [← Filling.start_eq] at hpasses
  refine ⟨r.filling, hpasses, ?_⟩
  rcases Nat.lt_or_eq_of_le hp with hlt | heq
  · exact .inl (hreached ▸ hlt)
  · rw [heq, hreached]
    exact hclosed

/-- **The invariant of the chart.** Without a limit, for a grammar of fewer than 2^32 rules, the
chart for `w` is filled up to the position that is reached. A set that has been closed is exact, no
later round adds to it, and it is the one of the chart that is read. -/
theorem filling_exact (g : Grammar T N) (hg : g.rules.size < 4294967296) (config : ParserConfig)
    (hc : config.maxItems = none) (start : N) (w : List T) :
    ∃ chart : Chart g w.length, read g config start w = .ok chart ∧
      Ends (Filling.step g w) (.start g start w.length)
        (padded w.length (chart.sets.map ItemSet.items)) ∧
      (∀ p ≤ chart.reached, ∃ c,
        Passes (Filling.step g w) (.start g start w.length) c ∧ c.HasClosed p) ∧
      ∀ c, Passes (Filling.step g w) (.start g start w.length) c → ∀ p, c.HasClosed p →
        IsExactAt g start w c.sets p ∧
        (∀ c', Passes (Filling.step g w) c c' → itemsAt c'.sets p = itemsAt c.sets p) ∧
        chart.sets[p]?.map ItemSet.items = some (itemsAt c.sets p) := by
  obtain ⟨chart, hread⟩ := exists_read hc g start w
  have hreads := reads_of_read hg.le hread
  refine ⟨chart, hread, filling_ends hread, fun p hp => exists_hasClosed hread hp, ?_⟩
  intro c hpasses p hclosed
  have hsame : ∀ m ≤ p, chart.sets[m]?.map ItemSet.items = some (itemsAt c.sets m) := by
    intro m hm
    exact items_eq_of_hasClosed hread hpasses (hclosed.mono hm)
  have hlt : p < chart.sets.size := by
    obtain ⟨s, hs, -⟩ := Option.map_eq_some_iff.1 (hsame p (Nat.le_refl p))
    exact (Array.getElem?_eq_some_iff.1 hs).1
  exact ⟨hreads.isExactAt hg.le hlt hsame, fun c' hc' => (hclosed.passes hc').2,
    hsame p (Nat.le_refl p)⟩

/-- Behind a single `'a'` there are five items. -/
theorem filling_exact_pairs : pairs.rules.size < 4294967296 ∧
    ({ maxItems := none } : ParserConfig).maxItems = none ∧
    ∃ c, Passes (Filling.step pairs ['a']) (.start pairs 'S' 1) c ∧ c.HasClosed 1 ∧
      (itemsAt c.sets 1).size = 5 ∧ IsExactAt pairs 'S' ['a'] c.sets 1 := by
  have hsize : pairs.rules.size < 4294967296 := by decide
  have hc : ({ maxItems := none } : ParserConfig).maxItems = none := rfl
  refine ⟨hsize, hc, ?_⟩
  obtain ⟨chart, hread, -, hreached, hexact⟩ := filling_exact pairs hsize _ hc 'S' ['a']
  have hlast : (read pairs { maxItems := none } 'S' ['a']).toOption.any (fun chart =>
      chart.reached = 1 ∧ (chart.sets[1]?.map ItemSet.items).map Array.size = some 5) = true := by
    decide +kernel
  simp only [hread, Except.toOption, Option.any_some, decide_eq_true_eq] at hlast
  obtain ⟨c, hpasses, hclosed⟩ := hreached 1 hlast.1.ge
  obtain ⟨hexact, -, hitems⟩ := hexact c hpasses 1 hclosed
  refine ⟨c, hpasses, hclosed, ?_, hexact⟩
  have hcount := hlast.2
  rw [hitems] at hcount
  exact Option.some.inj hcount

end Chart

end EarleyForest
