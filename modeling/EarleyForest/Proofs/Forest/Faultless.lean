import EarleyForest.Forest.Enumeration
import EarleyForest.Forest.Memo
import EarleyForest.Proofs.Forest.Soundness

/-!
# Forests that are never at fault

In a sound forest every walk has levels enough, meets no empty nonterminal and no missing token. So
unfolding can only blame the choices that it follows (`Sound.failsBy_unfold`), and it succeeds when
the alternatives are chosen among those that are there (`Sound.exists_unfold`). Asking a priced
forest gives what the forest gives.
-/

namespace EarleyForest

variable {T N : Type}

/-! ## Computations that blame no forest -/

/-- If the computation fails, its error is in `P`. -/
def FailsBy {ε α : Type} (P : ε → Prop) (x : Except ε α) : Prop := ∀ e, x = .error e → P e

section

variable {ε ε' α β : Type} {P : ε → Prop} {x : Except ε α}

theorem failsBy_ok (a : α) : FailsBy P (.ok a : Except ε α) := fun _ h => by cases h

theorem failsBy_error {e : ε} (h : P e) : FailsBy P (.error e : Except ε α) := by
  rintro _ ⟨⟩
  exact h

theorem FailsBy.bind (h : FailsBy P x) {k : α → Except ε β} (hk : ∀ a, FailsBy P (k a)) :
    FailsBy P (x >>= k) := by
  intro e he
  rcases bind_eq_error_iff.1 he with he | ⟨a, -, he⟩
  · exact h e he
  · exact hk a e he

theorem FailsBy.map (h : FailsBy P x) (k : α → β) : FailsBy P (x.map k) :=
  fun e he => h e (map_eq_error_iff.1 he)

theorem FailsBy.mapError {Q : ε' → Prop} {k : ε → ε'} (h : FailsBy P x) (hk : ∀ e, P e → Q (k e)) :
    FailsBy Q (x.mapError k) := by
  cases x with
  | ok a => exact failsBy_ok a
  | error e => exact failsBy_error (hk e (h e rfl))

theorem failsBy_foldlM {k : β → α → Except ε β} {l : List α} (b : β)
    (hk : ∀ a ∈ l, ∀ b, FailsBy P (k b a)) : FailsBy P (l.foldlM k b) := by
  intro e he
  obtain ⟨a, ha, c, hc⟩ := exists_of_foldlM_eq_error he
  exact hk a ha c e hc

theorem failsBy_unfoldAll {σ : Type}
    {unfold : NodeId → Progress σ → Except ε (ParseTree T N × Progress σ)} {ids : List NodeId}
    (progress : Progress σ) (h : ∀ id ∈ ids, ∀ progress, FailsBy P (unfold id progress)) :
    FailsBy P (unfoldAll unfold ids progress) := by
  induction ids generalizing progress with
  | nil => exact failsBy_ok _
  | cons id ids ih =>
    refine (h id List.mem_cons_self progress).bind fun ⟨t, progress⟩ => ?_
    refine (ih progress fun id' hid => h id' (List.mem_cons_of_mem _ hid)).bind fun _ => ?_
    exact failsBy_ok _

end

/-- The cursor is to blame: it does not describe a derivation. -/
def ForestError.IsForeign (e : ForestError N) : Prop := ∃ fault, e = .invalidDirections fault

theorem isForeign_invalidDirections (fault : DirectionsFault) :
    (.invalidDirections fault : ForestError N).IsForeign := ⟨fault, rfl⟩

theorem unfoldAll_cons {ε σ : Type} {progress progress' progress'' : Progress σ}
    {unfold : NodeId → Progress σ → Except ε (ParseTree T N × Progress σ)} {id : NodeId}
    {ids : List NodeId} {t : ParseTree T N} {ts : List (ParseTree T N)}
    (ht : unfold id progress = .ok (t, progress'))
    (hts : unfoldAll unfold ids progress' = .ok (ts, progress'')) :
    unfoldAll unfold (id :: ids) progress = .ok (t :: ts, progress'') := by
  simp only [unfoldAll, ht, bind, Except.bind, hts]
  rfl

/-- Several nodes can be unfolded when each of them can, whatever the state. -/
theorem exists_unfoldAll {ε σ : Type} {P : σ → Prop} {ids : List NodeId} {progress : Progress σ}
    {unfold : NodeId → Progress σ → Except ε (ParseTree T N × Progress σ)}
    (h : ∀ id ∈ ids, ∀ progress : Progress σ, P progress.state →
      ∃ t progress', unfold id progress = .ok (t, progress') ∧ P progress'.state)
    (hP : P progress.state) :
    ∃ ts progress', unfoldAll unfold ids progress = .ok (ts, progress') ∧ P progress'.state := by
  induction ids generalizing progress with
  | nil => exact ⟨[], progress, rfl, hP⟩
  | cons id ids ih =>
    obtain ⟨t, progress', ht, hP'⟩ := h id List.mem_cons_self progress hP
    obtain ⟨ts, progress'', hts, hP''⟩ := ih (fun id' hid => h id' (List.mem_cons_of_mem _ hid)) hP'
    exact ⟨t :: ts, progress'', unfoldAll_cons ht hts, hP''⟩

namespace Forest

variable [DecidableEq N] [SearchKey N] {g : Grammar T N} {f : Forest g}

variable {σ : Type} {choose : NodeId → Nat → σ → Except (ForestError N) (Nat × σ)} {depth : Nat}
  {id : NodeId} {A : N} {i j : Nat} {as : List Alternative}

/-! ## Steps of an unfolding -/

theorem unfold_terminal {token : Nat} {t : Token T} (hn : f.node? id = some (.terminal token))
    (ht : f.tokens[token]? = some t) (progress : Progress σ) :
    f.unfold choose (depth + 1) id progress = .ok (.leaf t, progress) := by
  simp only [unfold, hn, ht]

theorem unfold_nonterminal (hn : f.node? id = some (.nonterminal A i j as)) (has : as ≠ [])
    (progress : Progress σ) :
    f.unfold choose (depth + 1) id progress = (do
      let (k, state) ← choose id as.length progress.state
      match as[k]? with
      | none => .error (.invalidDirections (.missingAlternative id k))
      | some a =>
        let (children, progress) ← unfoldAll (f.unfold choose depth) a.children
          ⟨state, progress.weight + g.cost a.rule⟩
        return (.branch A a.rule i j children, progress)) := by
  have hempty : as.isEmpty = false := by simpa using has
  simp only [unfold, hn, hempty]
  rfl

namespace Sound

variable (hf : f.Sound)
include hf

/-- With levels enough an unfolding fails only where a choice does. -/
theorem failsBy_unfold
    (hchoose : ∀ id count state, FailsBy ForestError.IsForeign (choose id count state))
    (hid : id < f.size) (hdepth : f.EndsWithin depth id) (progress : Progress σ) :
    FailsBy ForestError.IsForeign (f.unfold choose depth id progress) := by
  induction depth generalizing id progress with
  | zero => exact hdepth.elim
  | succ depth ih =>
    rcases hf.node_cases hid with ⟨token, t, hn, ht⟩ | ⟨A, i, j, as, hn, hne⟩
    · rw [unfold_terminal hn ht]
      exact failsBy_ok _
    · rw [unfold_nonterminal hn hne]
      refine (hchoose _ _ _).bind fun ⟨k, state⟩ => ?_
      dsimp only
      split
      · exact failsBy_error (isForeign_invalidDirections _)
      · rename_i a ha
        refine (failsBy_unfoldAll _ fun child hc progress => ?_).bind fun _ => failsBy_ok _
        have hc := mem_children_of_getElem? hn ha hc
        exact ih (hf.child_lt id child hc) (hdepth child hc) progress

/-- An unfolding succeeds that chooses among the alternatives that are there. `P` is what the
choices keep of their state. -/
theorem exists_unfold (P : σ → Prop) (hchoose : ∀ {id : NodeId} {A : N} {i j : Nat}
    {as : List Alternative} {state : σ}, f.node? id = some (.nonterminal A i j as) → P state →
      ∃ k state', choose id as.length state = .ok (k, state') ∧ k < as.length ∧ P state')
    (hid : id < f.size) (hdepth : f.EndsWithin depth id) (progress : Progress σ)
    (hP : P progress.state) :
    ∃ t progress', f.unfold choose depth id progress = .ok (t, progress') ∧ P progress'.state := by
  induction depth generalizing id progress with
  | zero => exact hdepth.elim
  | succ depth ih =>
    rcases hf.node_cases hid with ⟨token, t, hn, ht⟩ | ⟨A, i, j, as, hn, hne⟩
    · exact ⟨.leaf t, progress, unfold_terminal hn ht progress, hP⟩
    · obtain ⟨k, state, hk, hlt, hP'⟩ := hchoose hn hP
      have ha := List.getElem?_eq_getElem hlt
      have hstart : P (⟨state, progress.weight + g.cost as[k].rule⟩ : Progress σ).state := hP'
      obtain ⟨ts, progress', hts, hP''⟩ := exists_unfoldAll (fun child hmem progress hP => by
        have hc := mem_children_of_getElem? hn ha hmem
        exact ih (hf.child_lt id child hc) (hdepth child hc) progress hP) hstart
      refine ⟨.branch A as[k].rule i j ts, progress', ?_, hP''⟩
      rw [unfold_nonterminal hn hne, hk]
      simp only [bind, Except.bind, ha, hts]
      rfl

end Sound

/-! ## Requests to a sound forest -/

/-- The best alternative of a node is one that it has. -/
theorem exists_best {prices : PriceTable} (hprices : f.price = .ok prices)
    (hn : f.node? id = some (.nonterminal A i j as)) :
    ∃ k, prices[id]?.bind Price.best? = some k ∧ k < as.length := by
  obtain ⟨p, hp⟩ := exists_price_of_lt hprices (lt_size hn)
  obtain ⟨k, a, -, hk, ha, -⟩ := exists_best_of_price hprices hn hp
  exact ⟨k, by rw [hp]; exact hk, (List.getElem?_eq_some_iff.1 ha).1⟩

theorem EndsWithin.depthBound (h : f.EndsWithin f.size id) (count : Nat) :
    f.EndsWithin (f.depthBound count) id :=
  h.mono (Nat.le_succ_of_le (Nat.le_mul_of_pos_left _ (Nat.succ_pos _)))

omit [DecidableEq N] [SearchKey N] in
theorem failsBy_chooseAhead (id : NodeId) (count : Nat) (trail : Trail) :
    FailsBy ForestError.IsForeign
      (chooseAhead id count trail : Except (ForestError N) (Nat × Trail)) := by
  unfold chooseAhead
  split
  · exact failsBy_ok _
  · split
    · exact failsBy_ok _
    · split
      · exact failsBy_ok _
      · exact failsBy_error (isForeign_invalidDirections _)

namespace Sound

variable (hf : f.Sound) {root : NodeId}
include hf

theorem exists_cheapestFrom {prices : PriceTable} (hprices : f.price = .ok prices)
    (hroot : root < f.size) : ∃ parse, f.cheapestFrom prices root = .ok parse := by
  have hchoose {id : NodeId} {A : N} {i j : Nat} {as : List Alternative} {state : Unit}
      (hn : f.node? id = some (.nonterminal A i j as)) (_ : True) :
      ∃ k state', f.chooseBest prices id as.length state = .ok (k, state') ∧ k < as.length ∧
        True := by
    obtain ⟨k, hk, hlt⟩ := exists_best hprices hn
    exact ⟨k, state, by simp only [chooseBest, hk], hlt, trivial⟩
  obtain ⟨t, progress, ht, -⟩ := hf.exists_unfold (fun _ => True) hchoose hroot
    ((hf.endsWithin hroot).mono (Nat.le_succ _)) ⟨(), 0⟩ trivial
  exact ⟨⟨t, progress.weight⟩, by rw [cheapestFrom, ht]; rfl⟩

theorem exists_firstFrom (hroot : root < f.size) : ∃ next, f.firstFrom root [] = .ok next := by
  have hchoose {id : NodeId} {A : N} {i j : Nat} {as : List Alternative} {trail : Trail}
      (hn : f.node? id = some (.nonterminal A i j as)) (htrail : trail.ahead = []) :
      ∃ k trail', (chooseAhead id as.length trail : Except (ForestError N) (Nat × Trail)) =
        .ok (k, trail') ∧ k < as.length ∧ trail'.ahead = [] := by
    have hpos := List.length_pos_iff.2 (hf.alternatives_ne_nil hn)
    unfold chooseAhead
    split
    · exact ⟨0, trail, rfl, hpos, htrail⟩
    · rw [htrail]
      exact ⟨0, _, rfl, hpos, rfl⟩
  obtain ⟨t, progress, ht, -⟩ := hf.exists_unfold (fun trail : Trail => trail.ahead = [])
    hchoose hroot ((hf.endsWithin hroot).depthBound 0) ⟨⟨[], #[]⟩, 0⟩ rfl
  exact ⟨⟨⟨t, progress.weight⟩, ⟨progress.state.recorded.toList⟩⟩, by
    simp only [firstFrom, List.length_nil, ht]
    rfl⟩

theorem failsBy_firstFrom (hroot : root < f.size) (choices : List Choice) :
    FailsBy ForestError.IsForeign (f.firstFrom root choices) :=
  (hf.failsBy_unfold failsBy_chooseAhead hroot
    ((hf.endsWithin hroot).depthBound _) _).bind fun _ => failsBy_ok _

theorem exists_rootPrice (hroot : f.root? = some root) {prices : PriceTable}
    (hprices : f.price = .ok prices) : ∃ p, f.rootPrice prices = some p := by
  obtain ⟨p, hp⟩ := exists_price_of_lt hprices (hf.root_lt root hroot)
  exact ⟨p, by rw [rootPrice, hroot]; exact hp⟩

end Sound

end Forest

/-! ## Priced forests -/

section

variable [DecidableEq N] [SearchKey N]

/-- Prices that were kept are those of the forest. -/
theorem PricedForest.price_fst {g : Grammar T N} (p : PricedForest g) :
    p.price.1 = p.forest.price := by
  unfold price
  split
  · rename_i table htable
    exact (p.price_eq table htable).symm
  · split
    · rename_i h
      exact h.symm
    · rename_i h
      exact h.symm

/-- Asking for prices leaves the forest as it is. -/
theorem PricedForest.price_snd_forest {g : Grammar T N} (p : PricedForest g) :
    p.price.2.forest = p.forest := by
  unfold price
  split
  · rfl
  · split <;> rfl

theorem PricedForest.count_fst {g : Grammar T N} (p : PricedForest g) :
    p.count.1 = p.forest.count := by
  simp only [count, price_fst, price_snd_forest, Forest.count]

theorem PricedForest.minCost_fst {g : Grammar T N} (p : PricedForest g) :
    p.minCost.1 = p.forest.minCost := by
  simp only [minCost, price_fst, price_snd_forest, Forest.minCost]

theorem PricedForest.cheapest_fst {g : Grammar T N} (p : PricedForest g) :
    p.cheapest.1 = p.forest.cheapest := by
  unfold cheapest Forest.cheapest
  cases p.forest.root? with
  | none => rfl
  | some root =>
    simp only [price_fst, price_snd_forest]
    rfl

end

end EarleyForest
