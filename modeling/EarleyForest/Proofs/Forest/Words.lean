import EarleyForest.Forest.Words
import EarleyForest.Proofs.Forest.Blame

/-!
# All sums of a request in words

Behind a check that goes through, every sum with an alternative is a word (`raiseLast_reverse`). So
where all of them are made as words a request comes to its end with what it gives otherwise, and it
stops only in the report of a choice that is out of range (`resumesWords_exact`).
-/

namespace EarleyForest

variable {T N : Type} [DecidableEq N] [SearchKey N] {g : Grammar T N} {f : Forest g}

namespace Forest

variable {root : NodeId} {ids ids' : List NodeId} {s : List Choice} {d : Directions}

/-! ## Raising a choice -/

omit [DecidableEq N] [SearchKey N] in
theorem bumpLast_concat (l : List (Choice × Nat)) (c : Choice) (count : Nat) :
    bumpLast (l ++ [(c, count)]) =
      if c.alternative + 1 < count then
        some (l.map Prod.fst ++ [{ c with alternative := c.alternative + 1 }])
      else bumpLast l := by
  induction l with
  | nil => simp [bumpLast]
  | cons x l ih =>
    rw [List.cons_append, bumpLast, ih, bumpLast]
    by_cases hc : c.alternative + 1 < count
    · simp [hc]
    · simp [hc]

omit [DecidableEq N] [SearchKey N] in
/-- Choices that are in range are raised without a sum that is no word. -/
theorem raiseLast_reverse {l : List (Choice × Nat)}
    (h : ∀ x ∈ l, x.1.alternative + 1 < 18446744073709551616) :
    (raiseLast l.reverse : Except (Stop N) (Option (List Choice))) = .ok (bumpLast l) := by
  induction l using List.reverseRecOn with
  | nil => rfl
  | append_singleton l x ih =>
    obtain ⟨c, count⟩ := x
    have hc : c.alternative + 1 < 18446744073709551616 := h (c, count) (by simp)
    rw [List.reverse_concat, raiseLast, nextWord?, if_pos hc, bumpLast_concat]
    dsimp only
    split
    · simp
    · exact ih fun x hx => h x (List.mem_append_left _ hx)

/-- Choices that lead on take alternatives that are there. -/
theorem Leads.lt_countAt (h : f.Leads ids s ids') : ∀ c ∈ s, c.alternative < f.countAt c := by
  induction h with
  | refl => exact List.forall_mem_nil _
  | leaf _ _ ih => exact ih
  | @branch id k A i j as a ids ids' s hn ha _ ih =>
    refine List.forall_mem_append.2 ⟨fun c hc => ?_, ih⟩
    unfold recordChoice at hc
    split at hc
    · rw [List.mem_singleton.1 hc, countAt, alternatives_eq hn]
      exact (List.getElem?_eq_some_iff.1 ha).1
    · cases hc

/-! ## The whole request -/

theorem firstWords_iff (hroot : f.EndsWithin f.size root) {choices : List Choice}
    {result : Except (Stop N) (NextParse T N)} : f.FirstWords root choices result ↔
      result = (f.firstFrom root choices).mapError .fails := by
  have hmakes {made : Except (ForestError N) (ParseTree T N × Progress Trail)} :
      f.Makes chooseAhead root ⟨⟨choices, #[]⟩, 0⟩ made ↔
        made = f.unfold chooseAhead (f.depthBound choices.length) root ⟨⟨choices, #[]⟩, 0⟩ :=
    makes_iff (hroot.depthBound choices.length)
  simp only [FirstWords, hmakes, exists_eq_left, firstFrom]
  cases f.unfold chooseAhead (f.depthBound choices.length) root ⟨⟨choices, #[]⟩, 0⟩ <;> rfl

/-- With all sums in words a request gives what it gives otherwise. -/
theorem resumesWords_iff (hroot : f.root? = some root) (hends : f.EndsWithin f.size root)
    (hcounts : ∀ id, (f.alternatives id).length < 18446744073709551616)
    {result : Except (Stop N) (Option (NextParse T N))} :
    f.ResumesWords root d result ↔ result = f.nextParse (some d) := by
  simp only [ResumesWords, replays_iff hends, exists_eq_left]
  cases hreplay : f.replay root d with
  | error e => rw [nextParse_of_replay_error hroot hreplay]
  | ok counts =>
    obtain ⟨hleads, rfl⟩ := leads_of_replay hreplay
    have hwords : ∀ x ∈ d.choices.zip (d.choices.map f.countAt),
        x.1.alternative + 1 < 18446744073709551616 := by
      intro x hx
      have hc := hleads.lt_countAt x.1 (List.of_mem_zip hx).1
      have hlt : f.countAt x.1 < 18446744073709551616 := hcounts x.1.node
      omega
    have hsuccessor : f.successor root d =
        .ok (bumpLast (d.choices.zip (d.choices.map f.countAt))) := by
      rw [successor, hreplay]
      rfl
    simp only [raiseLast_reverse (N := N) hwords, nextParse, hroot, hsuccessor, bind, Except.bind]
    cases bumpLast (d.choices.zip (d.choices.map f.countAt)) with
    | none => rfl
    | some choices =>
      simp only [firstWords_iff hends, exists_eq_left]
      cases f.firstFrom root choices <;> rfl

/-- A cursor of any numbers is handed in, all sums are made as words, and no node has more
alternatives than a word can count. The request comes to its end with one result, what the next
derivation is asked for gives. It stops at a sum just if the cursor leads to an ambiguous node and
takes an alternative there that is out of range and has no word behind it, and any other alternative
that is out of range is reported with the number behind it. -/
theorem resumesWords_exact (f : Forest g) (hf : f.InRange) {root : NodeId}
    (hroot : f.root? = some root) (hacyclic : f.AcyclicFrom root)
    (hcounts : ∀ id, (f.alternatives id).length < 18446744073709551616) (d : Directions) :
    (∀ result, f.ResumesWords root d result ↔ result = f.nextParse (some d)) ∧
      (f.nextParse (some d) = .error .overflow ↔
        ∃ c, f.Blames root d c ∧ 18446744073709551615 ≤ c.alternative) ∧
      ∀ c, f.Blames root d c → c.alternative < 18446744073709551615 →
        f.nextParse (some d) = .error (.fails (.invalidDirections
          (.noSuchAlternative c.node (f.countAt c) (c.alternative + 1)))) := by
  have hends := endsWithin_root hf (hf.root_lt root hroot) hacyclic
  refine ⟨fun _ => resumesWords_iff hroot hends hcounts, nextParse_eq_overflow_iff hroot hends,
    fun c hc hlt => ?_⟩
  rw [nextParse_of_replay_error hroot (hc.replay_eq hends), outOfRange_eq_fails hlt]

theorem acyclicFrom_twins : twins.AcyclicFrom 0 :=
  (acyclic_of_wellFounded (wellFounded_children_of_price price_twins)).acyclicFrom 0

theorem forall_length_lt_twins (id : NodeId) :
    (twins.alternatives id).length < 18446744073709551616 := by
  have hnodes : twins.arena.nodes = #[.nonterminal 'S' 0 1 [⟨.ofNat 0, [1, 1]⟩],
      .nonterminal 'A' 0 1 [⟨.ofNat 1, [2]⟩, ⟨.ofNat 2, []⟩], .terminal 0] := by decide +kernel
  rw [alternatives, node?, hnodes]
  rcases id with _ | _ | _ | id <;> simp [Node.alternatives]

/-- The last word as the choice at the second occurrence of the node stops the request. A choice
that is out of range by one is only turned down. -/
theorem resumesWords_exact_twins : twins.InRange ∧ twins.root? = some 0 ∧ twins.AcyclicFrom 0 ∧
    (∀ id, (twins.alternatives id).length < 18446744073709551616) ∧
    (∀ result, twins.ResumesWords 0 ⟨[⟨1, 0⟩, ⟨1, 18446744073709551615⟩]⟩ result ↔
      result = .error .overflow) ∧
    ∀ result, twins.ResumesWords 0 ⟨[⟨1, 0⟩, ⟨1, 2⟩]⟩ result ↔
      result = .error (.fails (.invalidDirections (.noSuchAlternative 1 2 3))) := by
  have exact := resumesWords_exact twins inRange_twins root_twins acyclicFrom_twins
    forall_length_lt_twins
  have hS : twins.node? 0 = some (.nonterminal 'S' 0 1 [⟨.ofNat 0, [1, 1]⟩]) := by decide +kernel
  have hA : twins.node? 1 = some (.nonterminal 'A' 0 1 [⟨.ofNat 1, [2]⟩, ⟨.ofNat 2, []⟩]) := by
    decide +kernel
  have htoken : twins.node? 2 = some (.terminal 0) := by decide +kernel
  have hleads : twins.Leads [0] [⟨1, 0⟩] [1] :=
    .branch (k := 0) hS rfl (.branch (k := 0) hA rfl (.leaf htoken (.refl [1])))
  have hcount (k : Nat) : twins.countAt ⟨1, k⟩ = 2 := by
    rw [countAt, alternatives_eq hA]
    rfl
  have hblames {k : Nat} (hk : 2 ≤ k) : twins.Blames 0 ⟨[⟨1, 0⟩, ⟨1, k⟩]⟩ ⟨1, k⟩ :=
    ⟨_, _, _, rfl, hleads, by simp [hcount], by simpa [hcount] using hk⟩
  refine ⟨inRange_twins, root_twins, acyclicFrom_twins, forall_length_lt_twins, ?_, ?_⟩
  · obtain ⟨hiff, hstops, -⟩ := exact ⟨[⟨1, 0⟩, ⟨1, 18446744073709551615⟩]⟩
    rw [← hstops.2 ⟨_, hblames (by decide), Nat.le_refl _⟩]
    exact hiff
  · obtain ⟨hiff, -, hreports⟩ := exact ⟨[⟨1, 0⟩, ⟨1, 2⟩]⟩
    have hreport := hreports _ (hblames (Nat.le_refl 2)) (by decide)
    rw [hcount] at hreport
    rw [← hreport]
    exact hiff

/-- So a cursor can stop a request, though all its numbers are words. -/
theorem exists_resumesWords_overflow : twins.InRange ∧ twins.root? = some 0 ∧
    twins.AcyclicFrom 0 ∧ twins.ResumesWords 0 ⟨[⟨1, 18446744073709551615⟩]⟩ (.error .overflow) ∧
    ¬ ∀ d : Directions, AreWords d.choices →
      ∃ result, twins.ResumesWords 0 d result ∧ result ≠ .error .overflow := by
  have hends := endsWithin_root inRange_twins (inRange_twins.root_lt 0 root_twins) acyclicFrom_twins
  have hiff {result : Except (Stop Char) (Option (NextParse Char Char))} :
      twins.ResumesWords 0 ⟨[⟨1, 18446744073709551615⟩]⟩ result ↔ result = .error .overflow := by
    rw [resumesWords_iff root_twins hends forall_length_lt_twins, nextParse_twins_lastWord]
  refine ⟨inRange_twins, root_twins, acyclicFrom_twins, hiff.2 rfl, fun h => ?_⟩
  obtain ⟨result, hresult, hne⟩ := h ⟨[⟨1, 18446744073709551615⟩]⟩ (by simp [AreWords])
  exact hne (hiff.1 hresult)

end Forest

end EarleyForest
