import EarleyForest.Proofs.Chart.Reading

/-!
# The chart holds the valid items and no others

An item advances over whatever its next symbols derive of the input (`IsReading.hasItem_of_yields`),
and what can follow the input read so far is waited for (`IsReading.exists_next`). With the validity
of all items this makes the chart exact (`IsReading.hasItem_iff`), and so what it accepts
(`Chart.Reads.accepts_iff`).
-/

namespace EarleyForest

variable {T N : Type} [DecidableEq N] [SearchKey N] {g : Grammar T N} {start : N} {w : List T}

theorem drop_eq_cons {α : Type} {l rest : List α} {k : Nat} {x : α} (h : l.drop k = x :: rest) :
    l[k]? = some x ∧ l.drop (k + 1) = rest := by
  constructor
  · have := congrArg (·[0]?) h
    simpa [List.getElem?_drop] using this
  · rw [← List.tail_drop, h, List.tail_cons]

theorem Grammar.exists_rule?_of_mem (hg : g.rules.size ≤ 4294967296) {r : Rule T N}
    (hr : r ∈ g.rules.toList) : ∃ id, g.rule? id = some r := by
  obtain ⟨i, hi⟩ := Array.mem_iff_getElem?.1 (Array.mem_toList_iff.1 hr)
  have hlt := (Array.getElem?_eq_some_iff.1 hi).1
  exact ⟨.ofNat i, by rwa [rule?, Saturating.toNat_ofNat, Nat.min_eq_left (by omega)]⟩

variable {sets : Array (ItemSet g w.length)} {rule : RuleId} {r : Rule T N} {dot origin p q : Nat}
  {Xs rest : List (Symbol T N)} {X : Symbol T N} {u : List T}

theorem Item.next?_of_drop (hr : g.rule? rule = some r) (h : r.rhs.drop dot = X :: rest) :
    (⟨rule, dot, origin⟩ : Item).next? g = some X :=
  next?_eq_some_iff.2 ⟨r, hr, (drop_eq_cons h).1⟩

namespace IsReading

variable (hg : g.rules.size ≤ 4294967296)
include hg

/-- An item advances over whatever its next symbols derive of the input. -/
theorem hasItem_of_yields (h : IsReading start w sets) (hy : Yields g.rules.toList Xs u)
    (hr : g.rule? rule = some r) (hrest : r.rhs.drop dot = Xs ++ rest)
    (hi : HasItem sets p ⟨rule, dot, origin⟩) (hpq : p ≤ q) (hq : q < sets.size)
    (hu : segment w p q = u) : HasItem sets q ⟨rule, dot + Xs.length, origin⟩ := by
  have hlen : q ≤ w.length := h.le_length hq
  induction hy generalizing rule r dot origin p q rest with
  | nil =>
    have := congrArg List.length hu
    rw [length_segment hlen, List.length_nil] at this
    obtain rfl : p = q := by omega
    exact hi
  | @terminal kind Xs u _ ih =>
    obtain ⟨hlt, hkind, hu⟩ := of_segment_eq_cons hpq hlen hu
    have hi' := h.scan hi (Item.next?_of_drop hr hrest) hkind (by omega)
    have := ih hr (drop_eq_cons hrest).2 hi' hlt hq hu hlen
    rwa [Nat.add_right_comm] at this
  | @nonterminal r' Xs v u hr' hv _ ihv ihu =>
    obtain ⟨m, hpm, hmq, hseg, hu⟩ := exists_of_segment_eq_append hpq hlen hu
    have hm : m < sets.size := Nat.lt_of_le_of_lt hmq hq
    have hnext : (⟨rule, dot, origin⟩ : Item).next? g = _ := Item.next?_of_drop hr hrest
    obtain ⟨id, hid⟩ := Grammar.exists_rule?_of_mem hg hr'
    have hi' : HasItem sets m ⟨rule, dot + 1, origin⟩ := by
      rcases Nat.eq_or_lt_of_le hpm with rfl | hlt
      · -- the nonterminal is passed over at once
        rw [segment_self] at hseg
        exact h.skip hi hnext (Grammar.isNullable_iff_yields.2 (hseg ▸ .of_rule hr' hv))
      · have hstart := h.predict hi hnext
          ((Grammar.mem_alternatives_iff_rule? hg).2 ⟨r', hid, rfl⟩)
        have hrhs : r'.rhs.drop 0 = r'.rhs ++ [] := by simp
        have hend := ihv hid hrhs hstart hpm hm hseg (by omega)
        rw [Nat.zero_add] at hend
        exact h.complete hend (Item.completes_iff.2 ⟨r', hid, rfl, rfl⟩) hlt hi hnext
    have := ihu hr (drop_eq_cons hrest).2 hi' hmq hq hu hlen
    rwa [Nat.add_right_comm] at this

/-- An item leads to one that waits for what can follow its next symbols. -/
theorem exists_next_of_leftContext (h : IsReading start w sets)
    (hX : LeftContext g.rules.toList X Xs u) (hr : g.rule? rule = some r)
    (hrest : r.rhs.drop dot = Xs ++ rest) (hi : HasItem sets p ⟨rule, dot, origin⟩) (hpq : p ≤ q)
    (hq : q < sets.size) (hu : segment w p q = u) :
    ∃ i, HasItem sets q i ∧ i.next? g = some X := by
  have hlen : q ≤ w.length := h.le_length hq
  induction hX generalizing rule r dot origin p rest with
  | @here Xs Ys _ hy =>
    rw [List.append_assoc] at hrest
    have hnext : r.rhs.drop (dot + Xs.length) = X :: (Ys ++ rest) := by
      rw [← List.drop_drop, hrest, List.drop_left, List.cons_append]
    exact ⟨_, h.hasItem_of_yields hg hy hr hrest hi hpq hq hu, Item.next?_of_drop hr hnext⟩
  | @under r' Xs Ys _ _ hy hr' _ ih =>
    obtain ⟨m, hpm, hmq, hseg, hu⟩ := exists_of_segment_eq_append hpq hlen hu
    rw [List.append_assoc] at hrest
    have hi' := h.hasItem_of_yields hg hy hr hrest hi hpm (by omega) hseg
    have hrest' : r.rhs.drop (dot + Xs.length) = .nonterminal r'.lhs :: (Ys ++ rest) := by
      rw [← List.drop_drop, hrest, List.drop_left, List.cons_append]
    obtain ⟨id, hid⟩ := Grammar.exists_rule?_of_mem hg hr'
    have hstart := h.predict hi' (Item.next?_of_drop hr hrest')
      ((Grammar.mem_alternatives_iff_rule? hg).2 ⟨r', hid, rfl⟩)
    exact ih hid (show r'.rhs.drop 0 = r'.rhs ++ [] by simp) hstart hmq hu

/-- What can follow the input up to a position is waited for there. At the beginning that may be
`start` itself, for which no item waits. -/
theorem exists_next (h : IsReading start w sets) (hp : p < sets.size)
    (hX : LeftContext g.rules.toList X [.nonterminal start] (w.take p)) :
    X = .nonterminal start ∧ p = 0 ∨ ∃ i, HasItem sets p i ∧ i.next? g = some X := by
  have hlen : p ≤ w.length := h.le_length hp
  rcases leftContext_start hX with ⟨hX, hnil⟩ | ⟨r, hr, rfl, hX'⟩
  · have := congrArg List.length hnil
    rw [List.length_take, Nat.min_eq_left hlen, List.length_nil] at this
    exact .inl ⟨hX, this⟩
  · obtain ⟨id, hid⟩ := Grammar.exists_rule?_of_mem hg hr
    have hstart := h.start_mem (Nat.zero_lt_of_lt hp)
      ((Grammar.mem_alternatives_iff_rule? hg).2 ⟨r, hid, rfl⟩)
    exact .inr (h.exists_next_of_leftContext hg hX' hid (show r.rhs.drop 0 = r.rhs ++ [] by simp)
      hstart (Nat.zero_le p) hp rfl)

theorem hasItem_start (h : IsReading start w sets) (hp : p < sets.size)
    (hr : g.rule? rule = some r)
    (hA : LeftContext g.rules.toList (.nonterminal r.lhs) [.nonterminal start] (w.take p)) :
    HasItem sets p (.start p rule) := by
  have hrule := (Grammar.mem_alternatives_iff_rule? hg).2 ⟨r, hr, rfl⟩
  rcases h.exists_next hg hp hA with ⟨hX, rfl⟩ | ⟨i, hi, hnext⟩
  · exact h.start_mem hp (Symbol.nonterminal.inj hX ▸ hrule)
  · exact h.predict hi hnext hrule

theorem hasItem_iff (h : IsReading start w sets) (hp : p < sets.size) {i : Item} :
    HasItem sets p i ↔ i.IsValid g start w p := by
  refine ⟨h.valid, ?_⟩
  intro hx
  obtain ⟨r, hr, hdot, ho, -, hy, hc⟩ := hx
  have hstart := h.hasItem_start hg (Nat.lt_of_le_of_lt ho hp) hr hc
  have hrhs : r.rhs.drop 0 = r.rhs.take i.dot ++ r.rhs.drop i.dot := by simp
  have := h.hasItem_of_yields hg hy hr hrhs hstart ho hp rfl
  rwa [Nat.zero_add, List.length_take, Nat.min_eq_left hdot] at this

end IsReading

/-! ## Acceptance -/

namespace Chart.Reads

variable {chart : Chart g w.length}

theorem reached_lt (h : chart.Reads start w) : chart.reached < chart.sets.size :=
  Nat.sub_lt h.size_pos Nat.one_pos

theorem mem_last_iff (h : chart.Reads start w) {i : Item} :
    i ∈ chart.last ↔ HasItem chart.sets chart.reached i := by
  obtain ⟨s, hs⟩ : ∃ s, chart.sets[chart.reached]? = some s :=
    ⟨_, Array.getElem?_eq_getElem h.reached_lt⟩
  have hlast : chart.sets.back? = some s := Array.back?_eq_getElem?.trans hs
  simp [last, hlast, HasItem, hs]

theorem accepts_eq_true_iff (h : chart.Reads start w) {A : N} : chart.accepts A = true ↔
    chart.reached = w.length ∧
      ∃ i, HasItem chart.sets w.length i ∧ i.completes g A = true ∧ i.origin = 0 := by
  rw [accepts, Bool.and_eq_true, decide_eq_true_eq, ItemSet.hasCompleted_iff]
  refine and_congr_right fun hend => ?_
  simp only [h.mem_last_iff, hend]

/-- An input that is derived is read to its end: what follows any part of it is waited for. -/
theorem reached_eq_of_yields (h : chart.Reads start w) (hg : g.rules.size ≤ 4294967296)
    (hy : Yields g.rules.toList [.nonterminal start] w) : chart.reached = w.length := by
  rcases h.stop with hend | ⟨kind, hkind, hnone⟩
  · exact hend
  exfalso
  obtain ⟨hlt, hget⟩ := List.getElem?_eq_some_iff.1 hkind
  have hsplit : w = w.take chart.reached ++ kind :: w.drop (chart.reached + 1) := by
    rw [← hget, ← List.drop_eq_getElem_cons hlt, List.take_append_drop]
  have hd := hy.derives
  rw [hsplit, word_append] at hd
  rcases h.exists_next hg h.reached_lt hd.leftContext with ⟨hX, -⟩ | ⟨i, hi, hX⟩
  · cases hX
  · exact hnone i hi hX

theorem accepts_iff (h : chart.Reads start w) (hg : g.rules.size ≤ 4294967296) :
    chart.accepts start = true ↔ Yields g.rules.toList [.nonterminal start] w := by
  rw [h.accepts_eq_true_iff]
  constructor
  · intro hx
    obtain ⟨-, i, hi, hc, ho⟩ := hx
    have := (h.valid hi).yields hc
    rw [ho, segment_zero, List.take_length] at this
    exact this.2.2
  · intro hy
    have hend := h.reached_eq_of_yields hg hy
    obtain ⟨r, hr, rfl, hd⟩ : ∃ r ∈ g.rules.toList, r.lhs = start ∧
        Derives g.rules.toList r.rhs (word w) := by
      rcases derives_nonterminal_iff.1 hy.derives with hnil | hr
      · cases w <;> simp [word] at hnil
      · exact hr
    obtain ⟨id, hid⟩ := Grammar.exists_rule?_of_mem hg hr
    have hlt : w.length < chart.sets.size :=
      Nat.lt_of_le_of_lt (Nat.le_of_eq hend.symm) h.reached_lt
    refine ⟨hend, ⟨id, r.rhs.length, 0⟩, (h.hasItem_iff hg hlt).2 ?_,
      Item.completes_iff.2 ⟨r, hid, rfl, rfl⟩, rfl⟩
    refine ⟨r, hid, Nat.le_refl _, Nat.zero_le _, Nat.le_refl _, ?_, .refl _⟩
    rw [List.take_length, segment_zero, List.take_length]
    exact hd.yields

end Chart.Reads

end EarleyForest
