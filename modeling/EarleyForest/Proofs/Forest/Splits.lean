import EarleyForest.Forest.Splits
import EarleyForest.Proofs.Chart.Exactness

/-!
# The splits of a rule

`IsSplit rules w Xs split i k`: the symbols `Xs`, one behind the other, derive the parts of `w` from
`i` to `k` between the boundaries `split`. The splits that are found in the chart of a reading are
exactly those of the right-hand side (`Reads.mem_splits_iff`), in strictly ascending order
(`pairwise_splits`).
-/

namespace EarleyForest

variable {T N : Type}

/-- The symbols derive the parts of `w` between the boundaries, which lead from `i` to `k`. -/
inductive IsSplit (rules : List (Rule T N)) (w : List T) :
    List (Symbol T N) → List Nat → Nat → Nat → Prop where
  | nil (i : Nat) : IsSplit rules w [] [i] i i
  | cons {X : Symbol T N} {Xs : List (Symbol T N)} {split : List Nat} {i j k : Nat} (hij : i ≤ j)
    (hX : Yields rules [X] (segment w i j)) (h : IsSplit rules w Xs split j k) :
    IsSplit rules w (X :: Xs) (i :: split) i k

namespace IsSplit

variable {rules : List (Rule T N)} {w : List T} {X : Symbol T N} {Xs : List (Symbol T N)}
  {split : List Nat} {i j k : Nat}

theorem le (h : IsSplit rules w Xs split i k) : i ≤ k := by
  induction h with
  | nil => exact Nat.le_refl _
  | cons hij _ _ ih => omega

theorem exists_eq_cons (h : IsSplit rules w Xs split i k) : ∃ s, split = i :: s := by
  cases h with
  | nil => exact ⟨[], rfl⟩
  | @cons _ _ s => exact ⟨s, rfl⟩

theorem snoc (h : IsSplit rules w Xs split i j) (hjk : j ≤ k)
    (hX : Yields rules [X] (segment w j k)) :
    IsSplit rules w (Xs ++ [X]) (split ++ [k]) i k := by
  induction h with
  | nil => exact .cons hjk hX (.nil k)
  | cons hij hY _ ih => exact .cons hij hY (ih hjk hX)

theorem exists_of_snoc (h : IsSplit rules w (Xs ++ [X]) split i k) :
    ∃ j s, split = s ++ [k] ∧ j ≤ k ∧ IsSplit rules w Xs s i j ∧
      Yields rules [X] (segment w j k) := by
  induction Xs generalizing split i with
  | nil =>
    cases h with
    | cons hij hX h =>
      cases h
      exact ⟨i, [i], rfl, hij, .nil i, hX⟩
  | cons Y Xs ih =>
    cases h with
    | cons hij hY h =>
      obtain ⟨m, s, rfl, hmk, hs, hX⟩ := ih h
      exact ⟨m, i :: s, rfl, hmk, .cons hij hY hs, hX⟩

theorem yields (h : IsSplit rules w Xs split i k) : Yields rules Xs (segment w i k) := by
  induction h with
  | nil =>
    rw [segment_self]
    exact .nil
  | cons hij hX hs ih =>
    rw [← segment_append hij hs.le]
    exact hX.append ih

end IsSplit

/-- What symbols derive one behind the other can be split among them. -/
theorem exists_isSplit {rules : List (Rule T N)} {w : List T} {Xs : List (Symbol T N)} {i k : Nat}
    (hy : Yields rules Xs (segment w i k)) (hik : i ≤ k) (hk : k ≤ w.length) :
    ∃ split, IsSplit rules w Xs split i k := by
  induction Xs generalizing i with
  | nil =>
    have hlen := length_segment (i := i) hk
    rw [hy.eq_nil, List.length_nil] at hlen
    obtain rfl : i = k := by omega
    exact ⟨[i], .nil i⟩
  | cons X Xs ih =>
    obtain ⟨u, v, huv, hX, hXs⟩ :=
      (show Yields rules ([X] ++ Xs) (segment w i k) from hy).exists_append
    obtain ⟨j, hij, hjk, rfl, rfl⟩ := exists_of_segment_eq_append hik hk huv
    obtain ⟨split, hs⟩ := ih hXs hjk
    exact ⟨i :: split, .cons hij hX hs⟩

/-- A terminal derives just the one kind. -/
theorem yields_terminal_iff {rules : List (Rule T N)} {w : List T} {kind : T} {i j : Nat}
    (hij : i ≤ j) (hj : j ≤ w.length) :
    Yields rules [.terminal kind] (segment w i j) ↔ j = i + 1 ∧ w[i]? = some kind := by
  constructor
  · intro hy
    obtain ⟨-, hkind, hnil⟩ := of_segment_eq_cons hij hj hy.eq_singleton
    have hlen := length_segment (i := i) hj
    rw [hy.eq_singleton, List.length_singleton] at hlen
    exact ⟨by omega, hkind⟩
  · intro hx
    obtain ⟨rfl, hkind⟩ := hx
    exact segment_succ hkind ▸ .terminal .nil

/-! ## The order of boundary lists -/

namespace Chart

theorem eq_or_lex_of_lexLe {a b : List Nat} (h : lexLe a b = true) :
    a = b ∨ List.Lex (· < ·) a b := by
  induction a generalizing b with
  | nil =>
    cases b with
    | nil => exact .inl rfl
    | cons => exact .inr .nil
  | cons x a ih =>
    cases b with
    | nil => cases h
    | cons y b =>
      simp only [lexLe, Bool.or_eq_true, Bool.and_eq_true, decide_eq_true_eq] at h
      rcases h with h | ⟨rfl, h⟩
      · exact .inr (.rel h)
      · exact (ih h).imp (congrArg _) .cons

theorem lexLe_trans {a b c : List Nat} (h : lexLe a b = true) (h' : lexLe b c = true) :
    lexLe a c = true := by
  induction a generalizing b c with
  | nil => rfl
  | cons x a ih =>
    cases b with
    | nil => cases h
    | cons y b =>
      cases c with
      | nil => cases h'
      | cons z c =>
        simp only [lexLe, Bool.or_eq_true, Bool.and_eq_true, decide_eq_true_eq] at *
        rcases h with h | ⟨rfl, h⟩
        · omega
        · exact h'.imp_right fun ⟨hy, h'⟩ => ⟨hy, ih h h'⟩

theorem lexLe_total (a b : List Nat) : (lexLe a b || lexLe b a) = true := by
  induction a generalizing b with
  | nil => rfl
  | cons x a ih =>
    cases b with
    | nil => rfl
    | cons y b =>
      have htotal := ih b
      simp only [lexLe, Bool.or_eq_true, Bool.and_eq_true, decide_eq_true_eq] at htotal ⊢
      by_cases hxy : x = y
      · exact htotal.imp (fun h => .inr ⟨hxy, h⟩) fun h => .inr ⟨hxy.symm, h⟩
      · omega

theorem pairwise_mergeSort_lexLe (l : List (List Nat)) :
    (l.mergeSort lexLe).Pairwise fun a b => lexLe a b = true :=
  @List.pairwise_mergeSort _ lexLe (fun _ _ _ => lexLe_trans) lexLe_total l

variable [DecidableEq N] [SearchKey N] {g : Grammar T N} {n : Nat} [DecidableEq T]
  {chart : Chart g n} {origins : N → Nat → Std.ExtTreeSet Nat} {kinds : Array T} {rule : RuleId}
  {rhs : List (Symbol T N)} {origin dot stop : Nat}

omit [DecidableEq N] [SearchKey N] [DecidableEq T] in
theorem nodup_toList (s : Std.ExtTreeSet Nat) : s.toList.Nodup :=
  Std.ExtTreeSet.distinct_toList.imp fun h hab => h (Std.LawfulEqCmp.compare_eq_iff_eq.2 hab)

theorem nodup_boundaries (X : Symbol T N) :
    (chart.boundaries origins kinds rule origin dot stop X).Nodup := by
  unfold boundaries
  have single (k : Nat) (p : Nat → Bool) : ([k].filter p).Nodup :=
    (List.nodup_cons.2 ⟨List.not_mem_nil, List.nodup_nil⟩).filter _
  cases X with
  | terminal kind =>
    dsimp only
    split
    · exact single _ _
    · exact List.nodup_nil
  | nonterminal A =>
    dsimp only
    split
    · exact single _ _
    · exact List.Pairwise.filter _ (nodup_toList _)

theorem exists_of_mem_splitsFrom {behind split : List Nat}
    (h : split ∈ chart.splitsFrom origins kinds rule origin rhs dot stop behind) :
    ∃ s, s.length = dot ∧ split = s ++ stop :: behind := by
  induction dot generalizing stop behind with
  | zero =>
    unfold splitsFrom at h
    split at h
    · exact ⟨[], rfl, List.mem_singleton.1 h⟩
    · cases h
  | succ dot ih =>
    unfold splitsFrom at h
    split at h
    · cases h
    · obtain ⟨p, -, h⟩ := List.mem_flatMap.1 h
      obtain ⟨s, hs, rfl⟩ := ih h
      exact ⟨s ++ [p], by simp [hs], by simp⟩

theorem nodup_splitsFrom (behind : List Nat) :
    (chart.splitsFrom origins kinds rule origin rhs dot stop behind).Nodup := by
  induction dot generalizing stop behind with
  | zero =>
    unfold splitsFrom
    split <;> simp
  | succ dot ih =>
    unfold splitsFrom
    split
    · exact List.nodup_nil
    · rename_i X _
      refine List.pairwise_flatMap.2 ⟨fun p _ => ih _, ?_⟩
      refine (nodup_boundaries X).imp fun {p q} hpq s hs t ht hst => hpq ?_
      -- the boundary in front of `stop` tells the lists apart
      obtain ⟨s', hs', rfl⟩ := exists_of_mem_splitsFrom hs
      obtain ⟨t', ht', rfl⟩ := exists_of_mem_splitsFrom ht
      exact (List.cons_eq_cons.1 (List.append_inj hst (hs'.trans ht'.symm)).2).1

/-- The splits of a rule ascend. -/
theorem pairwise_splits {start : Nat} :
    (chart.splits origins kinds rule rhs start stop).Pairwise (List.Lex (· < ·)) := by
  unfold splits
  have hnodup := (List.mergeSort_perm
    (chart.splitsFrom origins kinds rule start rhs rhs.length stop []) lexLe).nodup_iff.2
    (nodup_splitsFrom [])
  exact ((pairwise_mergeSort_lexLe _).and hnodup).imp fun ⟨hle, hne⟩ =>
    (eq_or_lex_of_lexLe hle).resolve_left hne

/-! ## The splits in the chart of a reading -/

section Reading

variable {start : N} {w : List T} {chart : Chart g w.length} {r : Rule T N} {A : N} {p i : Nat}

omit [DecidableEq T] in
theorem lookupOrigins_eq_origins : lookupOrigins chart.originTable = chart.origins :=
  funext fun A => funext fun p => chart.lookupOrigins_originTable A p

namespace Reads

variable (h : chart.Reads start w) (hg : g.rules.size ≤ 4294967296)
include h hg

omit [DecidableEq T] in
/-- Where a nonterminal that is called for at `p` is recognised from `p` on. -/
theorem mem_origins_iff (hstop : stop < chart.sets.size)
    (hcontext : LeftContext g.rules.toList (.nonterminal A) [.nonterminal start] (w.take p)) :
    p ∈ chart.origins A stop ↔
      p ≤ stop ∧ Yields g.rules.toList [.nonterminal A] (segment w p stop) := by
  have horigins : p ∈ chart.origins A stop ↔
      ∃ i, HasItem chart.sets stop i ∧ i.completes g A = true ∧ i.origin = p := by
    simp [Chart.origins, HasItem, Array.getElem?_eq_getElem hstop, ItemSet.mem_origins]
  rw [horigins]
  constructor
  · intro hx
    obtain ⟨i, hi, hc, rfl⟩ := hx
    obtain ⟨hp, -, hy⟩ := (h.valid hi).yields hc
    exact ⟨hp, hy⟩
  · intro hx
    obtain ⟨hp, hy⟩ := hx
    obtain ⟨r, hr, rfl, hy⟩ := hy.exists_rule
    obtain ⟨id, hid⟩ := Grammar.exists_rule?_of_mem hg hr
    refine ⟨⟨id, r.rhs.length, p⟩, (h.hasItem_iff hg hstop).2 ?_,
      Item.completes_iff.2 ⟨r, hid, rfl, rfl⟩, rfl⟩
    exact ⟨r, hid, Nat.le_refl _, hp, h.le_length hstop,
      by rwa [List.take_length], hcontext⟩

variable (hr : g.rule? rule = some r)
  (hcontext : LeftContext g.rules.toList (.nonterminal r.lhs) [.nonterminal start] (w.take origin))
include hr hcontext

omit [DecidableEq T] in
/-- The chart tells whether the symbols in front of the dot fill the range. -/
theorem contains_iff (hdot : dot ≤ r.rhs.length) :
    chart.contains stop ⟨rule, dot, origin⟩ = true ↔ stop < chart.sets.size ∧
      origin ≤ stop ∧ Yields g.rules.toList (r.rhs.take dot) (segment w origin stop) := by
  rw [Chart.contains_iff]
  constructor
  · intro hi
    obtain ⟨r', hr', -, ho, -, hy, -⟩ := h.valid hi
    cases hr.symm.trans hr'
    exact ⟨hi.lt_size, ho, hy⟩
  · intro hx
    obtain ⟨hstop, ho, hy⟩ := hx
    exact (h.hasItem_iff hg hstop).2
      ⟨r, hr, hdot, ho, h.le_length hstop, hy, hcontext⟩

omit [DecidableEq T] in
/-- The test that a boundary has to pass. In front of the first symbol it is stricter in form
only. -/
theorem fits_iff (hdot : dot ≤ r.rhs.length) :
    ((if dot = 0 then p = origin else origin ≤ p) &&
      chart.contains p ⟨rule, dot, origin⟩) = true ↔ p < chart.sets.size ∧ origin ≤ p ∧
        Yields g.rules.toList (r.rhs.take dot) (segment w origin p) := by
  rw [Bool.and_eq_true, h.contains_iff hg hr hcontext hdot]
  refine and_iff_right_of_imp fun ⟨hp, ho, hy⟩ => ?_
  split
  · subst dot
    have hl := length_segment (i := origin) (h.le_length hp)
    rw [hy.eq_nil, List.length_nil] at hl
    simp only [decide_eq_true_eq]
    omega
  · simpa using ho

omit [DecidableEq T] hg in
/-- The item in front of a nonterminal shows that it is called for. -/
theorem leftContext_of_yields (hX : r.rhs[dot]? = some (.nonterminal A))
    (hp : p < chart.sets.size) (ho : origin ≤ p)
    (hy : Yields g.rules.toList (r.rhs.take dot) (segment w origin p)) :
    LeftContext g.rules.toList (.nonterminal A) [.nonterminal start] (w.take p) := by
  have hdot : dot ≤ r.rhs.length := Nat.le_of_lt (List.getElem?_eq_some_iff.1 hX).1
  have hitem : Item.IsValid g start w p ⟨rule, dot, origin⟩ :=
    ⟨r, hr, hdot, ho, h.le_length hp, hy, hcontext⟩
  exact hitem.leftContext (Item.next?_eq_some_iff.2 ⟨r, hr, hX⟩)

theorem mem_boundaries_iff (hstop : stop < chart.sets.size) {X : Symbol T N}
    (hX : r.rhs[dot]? = some X) :
    p ∈ chart.boundaries chart.origins w.toArray rule origin dot stop X ↔
      origin ≤ p ∧ p ≤ stop ∧ Yields g.rules.toList (r.rhs.take dot) (segment w origin p) ∧
        Yields g.rules.toList [X] (segment w p stop) := by
  have hlen : stop ≤ w.length := h.le_length hstop
  have hdot : dot ≤ r.rhs.length := Nat.le_of_lt (List.getElem?_eq_some_iff.1 hX).1
  cases X with
  | terminal kind =>
    simp only [boundaries, List.getElem?_toArray, Bool.and_eq_true, decide_eq_true_eq]
    constructor
    · intro hp
      split at hp
      · rename_i hkind
        obtain ⟨hp, hfit⟩ := List.mem_filter.1 hp
        obtain rfl := List.mem_singleton.1 hp
        obtain ⟨-, ho, hy⟩ := (h.fits_iff hg hr hcontext hdot).1 hfit
        exact ⟨ho, Nat.sub_le .., hy, (yields_terminal_iff (Nat.sub_le ..) hlen).2
          ⟨(Nat.sub_add_cancel hkind.1).symm, hkind.2⟩⟩
      · cases hp
    · intro hx
      obtain ⟨ho, hp, hy, hX⟩ := hx
      obtain ⟨rfl, hkind⟩ := (yields_terminal_iff hp hlen).1 hX
      rw [if_pos ⟨Nat.succ_pos p, hkind⟩]
      exact List.mem_filter.2 ⟨List.mem_singleton_self p,
        (h.fits_iff hg hr hcontext hdot).2 ⟨Nat.lt_of_le_of_lt hp hstop, ho, hy⟩⟩
  | nonterminal A =>
    have hmem : p ∈ chart.boundaries chart.origins w.toArray rule origin dot stop
        (.nonterminal A) ↔ p ∈ chart.origins A stop ∧ p < chart.sets.size ∧ origin ≤ p ∧
          Yields g.rules.toList (r.rhs.take dot) (segment w origin p) := by
      rw [← h.fits_iff hg hr hcontext hdot]
      simp only [boundaries]
      split
      · simp +contextual
      · simp
    rw [hmem]
    constructor
    · intro hx
      obtain ⟨hA, hp, ho, hy⟩ := hx
      have hcalled := h.leftContext_of_yields hr hcontext hX hp ho hy
      obtain ⟨hle, hyA⟩ := (h.mem_origins_iff hg hstop hcalled).1 hA
      exact ⟨ho, hle, hy, hyA⟩
    · intro hx
      obtain ⟨ho, hle, hy, hyA⟩ := hx
      have hp := Nat.lt_of_le_of_lt hle hstop
      have hcalled := h.leftContext_of_yields hr hcontext hX hp ho hy
      exact ⟨(h.mem_origins_iff hg hstop hcalled).2 ⟨hle, hyA⟩, hp, ho, hy⟩

theorem mem_splitsFrom_iff (hstop : stop < chart.sets.size) (hdot : dot ≤ r.rhs.length)
    {behind split : List Nat} :
    split ∈ chart.splitsFrom chart.origins w.toArray rule origin r.rhs dot stop behind ↔
      ∃ s, split = s ++ behind ∧ IsSplit g.rules.toList w (r.rhs.take dot) s origin stop := by
  induction dot generalizing stop behind with
  | zero =>
    simp only [splitsFrom, List.take_zero]
    constructor
    · intro hs
      split at hs
      · subst stop
        exact ⟨[origin], List.mem_singleton.1 hs, .nil origin⟩
      · cases hs
    · intro hx
      obtain ⟨s, rfl, hs⟩ := hx
      cases hs
      simp
  | succ dot ih =>
    have hX := List.getElem?_eq_getElem hdot
    rw [splitsFrom, hX, List.take_succ_eq_append_getElem hdot]
    simp only [List.mem_flatMap, h.mem_boundaries_iff hg hr hcontext hstop hX]
    constructor
    · intro hx
      obtain ⟨p, ⟨-, hp, -, hX⟩, hs⟩ := hx
      obtain ⟨s, rfl, hs'⟩ := (ih (Nat.lt_of_le_of_lt hp hstop) (Nat.le_of_lt hdot)).1 hs
      exact ⟨s ++ [stop], by simp, hs'.snoc hp hX⟩
    · intro hx
      obtain ⟨s, rfl, hs⟩ := hx
      obtain ⟨p, s, rfl, hp, hs, hX⟩ := hs.exists_of_snoc
      refine ⟨p, ⟨hs.le, hp, hs.yields, hX⟩, ?_⟩
      exact (ih (Nat.lt_of_le_of_lt hp hstop) (Nat.le_of_lt hdot)).2 ⟨s, by simp, hs⟩

/-- The splits that are found are those of the right-hand side over the range. -/
theorem mem_splits_iff (hstop : stop < chart.sets.size) {split : List Nat} :
    split ∈ chart.splits chart.origins w.toArray rule r.rhs origin stop ↔
      IsSplit g.rules.toList w r.rhs split origin stop := by
  rw [splits, List.mem_mergeSort, h.mem_splitsFrom_iff hg hr hcontext hstop (Nat.le_refl _)]
  simp

end Reads

end Reading

end Chart

end EarleyForest
