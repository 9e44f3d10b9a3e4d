import EarleyForest.Chart.ItemSet

/-!
# Closing an item set

What the walk over a growing set leaves behind: every item of the closed set has been dealt with
(`handled_close`), and whatever passes from items to those that they put beside them holds of all of
it (`Hereditary.close`).
-/

namespace EarleyForest

variable {T N : Type} [DecidableEq N] [SearchKey N] {g : Grammar T N} {n : Nat}

/-! ## Items -/

namespace Item

variable {i : Item} {A : N}

theorem isProper_iff : i.isProper g n = true ↔
    ∃ r, g.rule? i.rule = some r ∧ i.dot ≤ r.rhs.length ∧ i.origin ≤ n := by
  simp [isProper, Option.any_eq_true]

theorem next?_eq_some_iff {X : Symbol T N} : i.next? g = some X ↔
    ∃ r, g.rule? i.rule = some r ∧ r.rhs[i.dot]? = some X := by
  simp [next?, Option.bind_eq_some_iff]

theorem completes_iff : i.completes g A = true ↔
    ∃ r, g.rule? i.rule = some r ∧ r.lhs = A ∧ i.dot = r.rhs.length := by
  simp only [completes, completed?, decide_eq_true_eq, Option.bind_eq_some_iff]
  grind

theorem waitsFor_iff : i.waitsFor g A = true ↔ i.next? g = some (.nonterminal A) := by
  unfold waitsFor
  split <;> simp_all

theorem waitsForKind_iff [DecidableEq T] {kind : T} :
    i.waitsForKind g kind = true ↔ i.next? g = some (.terminal kind) := by
  unfold waitsForKind
  split <;> simp_all

theorem isProper_advance {X : Symbol T N} (h : i.isProper g n = true) (hX : i.next? g = some X) :
    i.advance.isProper g n = true := by
  obtain ⟨r, hr, -, ho⟩ := isProper_iff.1 h
  obtain ⟨r', hr', hX⟩ := next?_eq_some_iff.1 hX
  cases hr.symm.trans hr'
  exact isProper_iff.2 ⟨r, hr, (List.getElem?_eq_some_iff.1 hX).1, ho⟩

theorem completes_of_next?_eq_none (h : i.isProper g n = true) (hX : i.next? g = none)
    (hA : i.lhs? g = some A) : i.completes g A = true := by
  obtain ⟨r, hr, hd, -⟩ := isProper_iff.1 h
  simp only [lhs?, hr, Option.map_some, Option.some.injEq] at hA
  simp only [next?, hr, Option.bind_some, List.getElem?_eq_none_iff] at hX
  exact completes_iff.2 ⟨r, hr, hA, Nat.le_antisymm hd hX⟩

theorem next?_eq_none_of_completes (h : i.completes g A = true) :
    i.next? g = none ∧ i.lhs? g = some A := by
  obtain ⟨r, hr, hA, hd⟩ := completes_iff.1 h
  simp [next?, lhs?, hr, hA, hd]

end Item

namespace ItemSet

variable {earlier : Array (ItemSet g n)} {s t : ItemSet g n} {i : Item} {A : N}

/-! ## Sets only grow -/

theorem prefix_add (s : ItemSet g n) (i : Item) : s.items.toList <+: (s.add i).items.toList := by
  unfold add
  split
  · exact List.prefix_rfl
  · split
    · simp
    · exact List.prefix_rfl

theorem prefix_foldl {α : Type} {f : ItemSet g n → α → ItemSet g n}
    (hf : ∀ s a, s.items.toList <+: (f s a).items.toList) (as : List α) (s : ItemSet g n) :
    s.items.toList <+: (as.foldl f s).items.toList := by
  induction as generalizing s with
  | nil => exact List.prefix_rfl
  | cons a as ih => exact (hf s a).trans (ih (f s a))

theorem prefix_addAdvanced (s : ItemSet g n) (items : Array Item) (p : Item → Bool) :
    s.items.toList <+: (s.addAdvanced items p).items.toList := by
  unfold addAdvanced
  rw [← Array.foldl_toList]
  refine prefix_foldl (fun s i => ?_) _ s
  split
  · exact s.prefix_add _
  · exact List.prefix_rfl

theorem prefix_advanceOwn (A : N) (k : Nat) (s : ItemSet g n) :
    s.items.toList <+: (s.advanceOwn A k).items.toList := by
  fun_induction advanceOwn A k s with
  | case1 k s _ i ih =>
    refine List.IsPrefix.trans ?_ ih
    split
    · exact s.prefix_add _
    · exact List.prefix_rfl
  | case2 => exact List.prefix_rfl

theorem prefix_extend (s : ItemSet g n) (earlier : Array (ItemSet g n)) (i : Item) :
    s.items.toList <+: (s.extend earlier i).items.toList := by
  unfold extend
  split
  · exact List.prefix_rfl
  · dsimp only
    split
    · exact (prefix_foldl prefix_add _ s).trans (prefix_add _ _)
    · exact prefix_foldl prefix_add _ s
  · split
    · exact List.prefix_rfl
    · split
      · exact s.prefix_addAdvanced _ _
      · exact s.prefix_advanceOwn _ _

theorem mem_of_prefix (h : s.items.toList <+: t.items.toList) (hi : i ∈ s) : i ∈ t :=
  Array.mem_toList_iff.1 (h.subset (Array.mem_toList_iff.2 hi))

/-! ## What an item calls for -/

/-- The set has what the item `i` calls for at the position behind the closed sets `earlier`. At the
end of a rule begun right here the waiting items need no attention: a rule recognised over nothing
has a nullable left-hand side, and before it every item is advanced at once. -/
structure Handled (earlier : Array (ItemSet g n)) (s : ItemSet g n) (i : Item) : Prop where
  predict : ∀ A, i.next? g = some (.nonterminal A) → ∀ rule ∈ g.alternatives A,
    (Item.start earlier.size rule).isProper g n = true → .start earlier.size rule ∈ s
  skip : ∀ A, i.next? g = some (.nonterminal A) → g.isNullable A = true → i.advance ∈ s
  complete : ∀ A source, i.completes g A = true → earlier[i.origin]? = some source →
    ∀ j ∈ source, j.next? g = some (.nonterminal A) → j.advance ∈ s

theorem Handled.mono (h : Handled earlier s i) (hst : s.items.toList <+: t.items.toList) :
    Handled earlier t i where
  predict A hA rule hr hp := mem_of_prefix hst (h.predict A hA rule hr hp)
  skip A hA hn := mem_of_prefix hst (h.skip A hA hn)
  complete A source hc hs j hj hw := mem_of_prefix hst (h.complete A source hc hs j hj hw)

theorem handled_extend (hi : i ∈ s) : Handled earlier (s.extend earlier i) i := by
  have hproper := s.proper i hi
  refine ⟨fun A hA rule hr hp => ?_, fun A hA hn => ?_, fun A source hc hs j hj hw => ?_⟩
  · simp only [extend, hA]
    have : Item.start earlier.size rule ∈
        s.addAll ((g.alternatives A).map (.start earlier.size)) :=
      mem_addAll.2 (.inr ⟨List.mem_map_of_mem hr, hp⟩)
    split
    · exact mem_add.2 (.inl this)
    · exact this
  · simp only [extend, hA, hn, if_true]
    exact mem_add.2 (.inr ⟨rfl, Item.isProper_advance hproper hA⟩)
  · obtain ⟨hnext, hlhs⟩ := Item.next?_eq_none_of_completes hc
    simp only [extend, hnext, hlhs, hs]
    exact mem_addAdvanced_waiting.2 (.inr ⟨j, hj, Item.waitsFor_iff.2 hw, rfl,
      Item.isProper_advance (source.proper j hj) hw⟩)

theorem prefix_closeFrom (earlier : Array (ItemSet g n)) (k : Nat) (s : ItemSet g n) :
    s.items.toList <+: (s.closeFrom earlier k).items.toList := by
  fun_induction closeFrom earlier k s with
  | case1 k s _ i ih => exact (s.prefix_extend earlier i).trans ih
  | case2 => exact List.prefix_rfl

/-- The walk deals with the items from index `k` on; those before it have been dealt with. -/
theorem handled_closeFrom {k : Nat}
    (h : ∀ i ∈ s.items.toList.take k, Handled earlier s i) (hi : i ∈ s.closeFrom earlier k) :
    Handled earlier (s.closeFrom earlier k) i := by
  fun_induction closeFrom earlier k s with
  | case1 k s hk j ih =>
    refine ih (fun i hi => ?_) hi
    obtain ⟨added, hadded⟩ := s.prefix_extend earlier j
    have hk' : k < s.items.toList.length := by simpa using hk
    rw [← hadded, List.take_append_of_le_length hk', List.take_succ_eq_append_getElem hk'] at hi
    rcases List.mem_append.1 hi with hi | hi
    · exact (h i hi).mono (s.prefix_extend earlier j)
    · obtain rfl : i = j := by simpa using hi
      exact handled_extend (Array.getElem_mem hk)
  | case2 k s hk =>
    refine h i ?_
    rw [List.take_of_length_le (by simpa using hk)]
    exact Array.mem_toList_iff.2 hi

/-! ## The closed set -/

theorem mem_close_of_mem (hi : i ∈ s) : i ∈ s.close earlier :=
  mem_of_prefix (prefix_closeFrom earlier 0 s) hi

theorem handled_close (hi : i ∈ s.close earlier) : Handled earlier (s.close earlier) i :=
  handled_closeFrom (by simp) hi

/-- `P` passes from items to those that rules put beside them into the set behind the closed sets
`earlier`. -/
structure Hereditary (earlier : Array (ItemSet g n)) (P : Item → Prop) : Prop where
  predict : ∀ i A rule, P i → i.next? g = some (.nonterminal A) → rule ∈ g.alternatives A →
    P (.start earlier.size rule)
  skip : ∀ i A, P i → i.next? g = some (.nonterminal A) → g.isNullable A = true → P i.advance
  complete : ∀ i A source j, P i → i.completes g A = true → earlier[i.origin]? = some source →
    j ∈ source → j.next? g = some (.nonterminal A) → P j.advance
  completeOwn : ∀ i A j, P i → i.completes g A = true → earlier[i.origin]? = none → P j →
    j.next? g = some (.nonterminal A) → P j.advance

variable {P : Item → Prop}

theorem forall_mem_add (hs : ∀ j ∈ s, P j) (hi : P i) : ∀ j ∈ s.add i, P j := by
  intro j hj
  rcases mem_add.1 hj with hj | ⟨rfl, -⟩
  · exact hs j hj
  · exact hi

theorem forall_mem_addAll {items : List Item} (hs : ∀ j ∈ s, P j) (hi : ∀ j ∈ items, P j) :
    ∀ j ∈ s.addAll items, P j := by
  intro j hj
  rcases mem_addAll.1 hj with hj | ⟨hj, -⟩
  · exact hs j hj
  · exact hi j hj

theorem forall_mem_advanceOwn {k : Nat} (hs : ∀ j ∈ s, P j)
    (hA : ∀ j, P j → j.next? g = some (.nonterminal A) → P j.advance) :
    ∀ j ∈ s.advanceOwn A k, P j := by
  fun_induction advanceOwn A k s with
  | case1 k s hk i ih =>
    refine ih ?_
    split
    · have hi : i ∈ s := (mem_waiting.1 (Array.getElem_mem hk)).1
      exact forall_mem_add hs (hA i (hs i hi) (Item.waitsFor_iff.1 ‹_›))
    · exact hs
  | case2 => exact hs

theorem Hereditary.extend (h : Hereditary earlier P) (hs : ∀ j ∈ s, P j) (hi : i ∈ s) :
    ∀ j ∈ s.extend earlier i, P j := by
  unfold ItemSet.extend
  split
  · exact hs
  · rename_i A hA
    have predicted : ∀ j ∈ s.addAll ((g.alternatives A).map (.start earlier.size)), P j := by
      refine forall_mem_addAll hs fun j hj => ?_
      obtain ⟨rule, hr, rfl⟩ := List.mem_map.1 hj
      exact h.predict i A rule (hs i hi) hA hr
    dsimp only
    split
    · exact forall_mem_add predicted (h.skip i A (hs i hi) hA ‹_›)
    · exact predicted
  · rename_i hnext
    split
    · exact hs
    rename_i A hlhs
    have hc := Item.completes_of_next?_eq_none (s.proper i hi) hnext hlhs
    split
    · rename_i source hsource
      intro j hj
      rcases mem_addAdvanced_waiting.1 hj with hj | ⟨j', hj', hw, rfl, -⟩
      · exact hs j hj
      · exact h.complete i A source j' (hs i hi) hc hsource hj' (Item.waitsFor_iff.1 hw)
    · exact forall_mem_advanceOwn hs fun j hj => h.completeOwn i A j (hs i hi) hc ‹_› hj

theorem Hereditary.close (h : Hereditary earlier P) (hs : ∀ j ∈ s, P j) :
    ∀ j ∈ s.close earlier, P j := by
  unfold ItemSet.close
  fun_induction closeFrom earlier 0 s with
  | case1 k s hk i ih => exact ih (h.extend hs (Array.getElem_mem hk))
  | case2 => exact hs

end ItemSet

end EarleyForest
