import EarleyForest.Grammar.Cycle
import EarleyForest.Proofs.Outcomes
import Mathlib.Data.List.Chain
import Mathlib.Data.List.Nodup

/-!
# The search for cycles

`mem_leadsTo` says what one step of the search is. Whatever the search puts aside as lying on no
cycle is accessible: no chain of steps from it goes on for ever (`searchCycle_accessible`). So a
search that finds no cycle leaves none (`wellFounded_leadsTo`). What it reports is a cycle
(`isCycle_of_findCycle`), since each nonterminal of the path leads to the next inner one. The path
never gets longer than there are rules, and the bound on the depth is never met
(`findCycleWithin_eq`).
-/

namespace EarleyForest

variable {T N : Type} [DecidableEq N]

/-! ## Steps -/

omit [DecidableEq N] in
theorem mem_soleSymbols {nullable : N → Bool} {before : Bool} {rhs : List (Symbol T N)} {B : N} :
    B ∈ soleSymbols nullable before rhs ↔ before = true ∧ ∃ u v, rhs = u ++ .nonterminal B :: v ∧
      (∀ X ∈ u, X.isNonterminal nullable = true) ∧ ∀ X ∈ v, X.isNonterminal nullable = true := by
  induction rhs generalizing before with
  | nil => simp [soleSymbols]
  | cons X rhs ih =>
    have tail : B ∈ soleSymbols nullable (before && X.isNonterminal nullable) rhs ↔
        before = true ∧ ∃ u v, X :: rhs = X :: u ++ .nonterminal B :: v ∧
          (∀ Y ∈ X :: u, Y.isNonterminal nullable = true) ∧
          ∀ Y ∈ v, Y.isNonterminal nullable = true := by
      rw [ih, Bool.and_eq_true, and_assoc]
      refine and_congr_right fun _ => ?_
      simp only [List.cons_append, List.cons.injEq, true_and, List.forall_mem_cons]
      constructor
      · intro hx
        obtain ⟨hX, u, v, h, hu, hv⟩ := hx
        exact ⟨u, v, h, ⟨hX, hu⟩, hv⟩
      · intro hx
        obtain ⟨u, v, h, ⟨hX, hu⟩, hv⟩ := hx
        exact ⟨hX, u, v, h, hu, hv⟩
    have head : B ∈ soleSymbols nullable before (X :: rhs) ↔
        B ∈ soleSymbols nullable (before && X.isNonterminal nullable) rhs ∨
          before = true ∧ X = .nonterminal B ∧ ∀ Y ∈ rhs, Y.isNonterminal nullable = true := by
      cases X with
      | terminal => simp [soleSymbols]
      | nonterminal A =>
        simp only [soleSymbols]
        split <;> rename_i h <;> simp only [Bool.and_eq_true, List.all_eq_true] at h
        · simp only [List.mem_cons, Symbol.nonterminal.injEq]
          grind
        · grind
    rw [head, tail]
    constructor
    · rintro (⟨hb, u, v, h⟩ | ⟨hb, rfl, h⟩)
      · exact ⟨hb, X :: u, v, h⟩
      · exact ⟨hb, [], rhs, rfl, by simp, h⟩
    · intro hx
      obtain ⟨hb, u, v, h, hu, hv⟩ := hx
      cases u with
      | nil =>
        obtain ⟨rfl, rfl⟩ := List.cons_eq_cons.1 h
        exact .inr ⟨hb, rfl, hv⟩
      | cons Y u =>
        obtain ⟨rfl, h⟩ := List.cons_eq_cons.1 h
        exact .inl ⟨hb, u, v, by rw [h], hu, hv⟩

/-- One step leads from the left-hand side of a rule to a nonterminal on its right-hand side whose
neighbours are all nullable. -/
theorem mem_leadsTo {rules : List (Rule T N)} {nullable : N → Bool} {A B : N} :
    B ∈ leadsTo rules nullable A ↔ ∃ r ∈ rules, r.lhs = A ∧ ∃ u v,
      r.rhs = u ++ .nonterminal B :: v ∧ (∀ X ∈ u, X.isNonterminal nullable = true) ∧
        ∀ X ∈ v, X.isNonterminal nullable = true := by
  rw [leadsTo, List.mem_flatMap]
  refine exists_congr fun r => and_congr_right fun _ => ?_
  split
  · simp [*, mem_soleSymbols]
  · simp [*]

/-- What leads anywhere is the left-hand side of a rule. -/
theorem lhs_mem_of_leadsTo {rules : List (Rule T N)} {nullable : N → Bool} (A : N)
    (hA : leadsTo rules nullable A ≠ []) : A ∈ rules.map Rule.lhs := by
  obtain ⟨B, hB⟩ := List.exists_mem_of_ne_nil _ hA
  obtain ⟨r, hr, rfl, -⟩ := mem_leadsTo.1 hB
  exact List.mem_map_of_mem hr

/-! ## The search -/

variable {next : N → List N} {heads : List N}

/-- The search from `A` puts `A` aside, and only what is accessible. `heads` holds all that lead
anywhere, and the path cannot be longer. -/
theorem searchCycle_accessible (hheads : ∀ A, next A ≠ [] → A ∈ heads) {depth : Nat}
    {path done done' : List N} {A : N} (h : searchCycle next depth path done A = .ok done')
    (hpath : ∀ B ∈ path, B ∈ heads) (hnodup : path.Nodup) (hA : A ∉ path)
    (hdepth : heads.length < depth + path.length)
    (hdone : ∀ B ∈ done, Acc (fun B A => B ∈ next A) B) :
    A ∈ done' ∧ (∀ B ∈ done, B ∈ done') ∧ ∀ B ∈ done', Acc (fun B A => B ∈ next A) B := by
  induction depth generalizing path done done' A with
  | zero =>
    have := hnodup.length_le_of_subset hpath
    omega
  | succ depth ih =>
    rw [searchCycle, map_eq_ok_iff] at h
    obtain ⟨last, hwalk, rfl⟩ := h
    let I : List N → List N → Prop := fun seen now => (∀ B ∈ seen, B ∈ now) ∧
      (∀ B ∈ done, B ∈ now) ∧ ∀ B ∈ now, Acc (fun B A => B ∈ next A) B
    have hI : I (next A) last := by
      refine foldlM_invariant hwalk ⟨by simp, fun _ hB => hB, hdone⟩ ?_
      rintro seen B now now' hB ⟨hseen, hnow, hacc⟩ hstep
      split at hstep
      · cases hstep
      rename_i hBpath
      split at hstep
      · obtain rfl := Except.ok.inj hstep
        exact ⟨List.forall_mem_append.2 ⟨hseen, by simpa⟩, hnow, hacc⟩
      · have hAheads : A ∈ heads := hheads A (List.ne_nil_of_mem hB)
        obtain ⟨hBnow, hkept, hacc'⟩ := ih hstep (List.forall_mem_cons.2 ⟨hAheads, hpath⟩)
          (List.nodup_cons.2 ⟨hA, hnodup⟩) hBpath (by simp only [List.length_cons]; omega) hacc
        exact ⟨List.forall_mem_append.2 ⟨fun C hC => hkept C (hseen C hC), by simpa⟩,
          fun C hC => hkept C (hnow C hC), hacc'⟩
    obtain ⟨hnext, hkept, hacc⟩ := hI
    have hAacc : Acc (fun B A => B ∈ next A) A := ⟨A, fun B hB => hacc B (hnext B hB)⟩
    exact ⟨List.mem_cons_self, fun B hB => List.mem_cons_of_mem A (hkept B hB),
      List.forall_mem_cons.2 ⟨hAacc, hacc⟩⟩

/-- When no cycle is found, no chain of steps goes on for ever. -/
theorem wellFounded_leadsTo {rules : List (Rule T N)} {nullable : N → Bool}
    (h : findCycle rules nullable = none) :
    WellFounded fun B A => B ∈ leadsTo rules nullable A := by
  rw [findCycle] at h
  split at h
  · cases h
  rename_i done hwalk
  let I : List (Rule T N) → List N → Prop := fun seen now => (∀ r ∈ seen, r.lhs ∈ now) ∧
    ∀ B ∈ now, Acc (fun B A => B ∈ leadsTo rules nullable A) B
  have hI : I rules done := by
    refine foldlM_invariant hwalk ⟨by simp, by simp⟩ ?_
    rintro seen r now now' - ⟨hseen, hacc⟩ hstep
    split at hstep
    · obtain rfl := Except.ok.inj hstep
      exact ⟨List.forall_mem_append.2 ⟨hseen, by simpa⟩, hacc⟩
    · obtain ⟨hr, hkept, hacc'⟩ := searchCycle_accessible lhs_mem_of_leadsTo hstep (by simp)
        List.nodup_nil (by simp) (by simp) hacc
      exact ⟨List.forall_mem_append.2 ⟨fun q hq => hkept _ (hseen q hq), by simpa⟩, hacc'⟩
  -- what is no left-hand side leads nowhere
  refine ⟨fun A => ⟨A, fun B hB => ?_⟩⟩
  obtain ⟨r, hr, rfl, -⟩ := mem_leadsTo.1 hB
  exact (hI.2 _ (hI.1 r hr)).inv hB

/-! ## What is reported -/

/-- Each element of the list leads to the next one and the last one to the first, and none occurs
twice. -/
structure IsCycle {α : Type} (R : α → α → Prop) (cycle : List α) : Prop where
  ne_nil : cycle ≠ []
  nodup : cycle.Nodup
  steps : (cycle ++ cycle.take 1).IsChain R

/-- Something on a cycle leads back to itself. -/
theorem IsCycle.exists_transGen {α : Type} {R : α → α → Prop} {cycle : List α}
    (h : IsCycle R cycle) : ∃ A, Relation.TransGen R A A := by
  obtain ⟨A, rest, rfl⟩ := List.exists_cons_of_ne_nil h.ne_nil
  have hsteps : (A :: (rest ++ [A])).IsChain R := h.steps
  match hrest : rest ++ [A] with
  | [] => simp at hrest
  | B :: l =>
    rw [hrest, List.isChain_cons_cons] at hsteps
    obtain ⟨hAB, hchain⟩ := hsteps
    have hlast : (B :: l).getLast (List.cons_ne_nil B l) = A := by
      simp only [← hrest, List.getLast_concat]
    exact ⟨A, .head' hAB (List.relationReflTransGen_of_exists_isChain_cons l hchain hlast)⟩

/-- When a step leads from a path, innermost first, back into it, the part of the path from there on
is a cycle. -/
theorem isCycle_dropWhile {R : N → N → Prop} {path : List N} {B : N} (hB : B ∈ path)
    (hnodup : path.Nodup) (hpath : (B :: path).IsChain fun C A => R A C) :
    IsCycle R (path.reverse.dropWhile (· ≠ B)) := by
  obtain ⟨inner, outer, rfl⟩ := List.append_of_mem hB
  obtain ⟨-, hnodup', -⟩ := List.nodup_append.1 hnodup
  have houter : ∀ C ∈ outer.reverse, decide (C ≠ B) = true := by
    intro C hC
    have : C ≠ B := by
      rintro rfl
      exact (List.nodup_cons.1 hnodup').1 (List.mem_reverse.1 hC)
    simpa using this
  have hcycle : (inner ++ B :: outer).reverse.dropWhile (· ≠ B) = (inner ++ [B]).reverse := by
    rw [List.append_cons, List.reverse_append, List.dropWhile_append_of_pos houter]
    simp
  have hback : (B :: (inner ++ [B])).IsChain fun C A => R A C := by
    rw [List.append_cons, ← List.cons_append] at hpath
    exact hpath.left_of_append
  rw [hcycle]
  refine ⟨by simp, ?_, ?_⟩
  · rw [List.append_cons] at hnodup
    exact List.nodup_reverse.2 (List.nodup_append.1 hnodup).1
  · have hclosed := List.isChain_reverse.2 hback
    simpa using hclosed

/-- The search from `A` reports a cycle, if anything. The path, with `A` at its inner end, is a chain
of steps. -/
theorem isCycle_of_searchCycle {depth : Nat} {path done cycle : List N} {A : N}
    (h : searchCycle next depth path done A = .error cycle) (hnodup : (A :: path).Nodup)
    (hpath : (A :: path).IsChain fun B A => B ∈ next A) :
    IsCycle (fun A B => B ∈ next A) cycle := by
  induction depth generalizing path done A with
  | zero => cases h
  | succ depth ih =>
    obtain ⟨B, hB, done', hstep⟩ := exists_of_foldlM_eq_error (map_eq_error_iff.1 h)
    have hpath' : (B :: A :: path).IsChain fun B A => B ∈ next A :=
      List.isChain_cons_cons.2 ⟨hB, hpath⟩
    split at hstep
    · rename_i hback
      cases hstep
      exact isCycle_dropWhile hback hnodup hpath'
    · rename_i hnew
      split at hstep
      · cases hstep
      · exact ih hstep (List.nodup_cons.2 ⟨hnew, hnodup⟩) hpath'

theorem isCycle_of_findCycle {rules : List (Rule T N)} {nullable : N → Bool} {cycle : List N}
    (h : findCycle rules nullable = some cycle) :
    IsCycle (fun A B => B ∈ leadsTo rules nullable A) cycle := by
  rw [findCycle] at h
  split at h
  · rename_i hwalk
    cases h
    obtain ⟨r, -, done, hstep⟩ := exists_of_foldlM_eq_error hwalk
    split at hstep
    · cases hstep
    · exact isCycle_of_searchCycle hstep (by simp) (.singleton _)
  · cases h

/-! ## The depth of the search -/

/-- The bound on the depth makes no difference as long as the path cannot get that long. -/
theorem searchCycle_eq (hheads : ∀ A, next A ≠ [] → A ∈ heads) {depth depth' : Nat}
    {path : List N} {A : N} (done : List N) (hpath : ∀ B ∈ path, B ∈ heads) (hnodup : path.Nodup)
    (hA : A ∉ path) (hdepth : heads.length < depth + path.length)
    (hdepth' : heads.length < depth' + path.length) :
    searchCycle next depth path done A = searchCycle next depth' path done A := by
  have hlength := hnodup.length_le_of_subset hpath
  induction depth generalizing depth' path done A with
  | zero => omega
  | succ depth ih =>
    obtain ⟨depth', rfl⟩ : ∃ d, depth' = d + 1 := Nat.exists_eq_succ_of_ne_zero (by omega)
    simp only [searchCycle]
    refine congrArg (Except.map (A :: ·)) (foldlM_congr fun B hB done => ?_)
    by_cases hback : B ∈ A :: path
    · rw [if_pos hback, if_pos hback]
    · have hAheads : A ∈ heads := hheads A (List.ne_nil_of_mem hB)
      have hpath' := List.forall_mem_cons.2 ⟨hAheads, hpath⟩
      have hnodup' := List.nodup_cons.2 ⟨hA, hnodup⟩
      have hbound {d : Nat} (h : heads.length < d + 1 + path.length) :
          heads.length < d + (A :: path).length := by
        rw [List.length_cons]
        omega
      have hsame := ih done hpath' hnodup' hback (hbound hdepth) (hbound hdepth')
        (hnodup'.length_le_of_subset hpath')
      rw [if_neg hback, if_neg hback, hsame]

/-- The search for a cycle with another bound on its depth. -/
def findCycleWithin (depth : Nat) (rules : List (Rule T N)) (nullable : N → Bool) :
    Option (List N) :=
  let walk := rules.foldlM (fun done r =>
    if r.lhs ∈ done then .ok done
    else searchCycle (leadsTo rules nullable) depth [] done r.lhs) []
  match walk with
  | .error cycle => some cycle
  | .ok _ => none

/-- The search is over before its bound is met: with any other depth above the number of rules it
gives the same. -/
theorem findCycleWithin_eq {depth : Nat} {rules : List (Rule T N)} (nullable : N → Bool)
    (h : rules.length < depth) :
    findCycleWithin depth rules nullable = findCycle rules nullable := by
  have hwalk : ∀ r : Rule T N, ∀ done,
      searchCycle (leadsTo rules nullable) depth [] done r.lhs =
        searchCycle (leadsTo rules nullable) (rules.length + 1) [] done r.lhs := by
    intro r done
    exact searchCycle_eq lhs_mem_of_leadsTo done (by simp) List.nodup_nil (by simp)
      (by simpa using h) (by simp)
  simp only [findCycleWithin, hwalk]
  rfl

end EarleyForest
