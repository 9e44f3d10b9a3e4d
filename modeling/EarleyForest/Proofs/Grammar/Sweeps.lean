import EarleyForest.Grammar.Sweeps
import EarleyForest.Proofs.Grammar.Building
import Mathlib.Logic.Function.Iterate

/-!
# What sweeps find

A sweep only makes known what derives the empty string (`Sweep.yields_of_mem_run`), and one that
changes nothing has found every rule closed (`Sweep.closed_of_unchanged`). So the sweeps end with
just the nonterminals that derive the empty string (`mem_nullableBySweeps_iff`), whatever the order
of the rules, and with those that grammars are built with (`nullable_exact`).
-/

namespace EarleyForest

variable {T N : Type} [SearchKey N] {rules : List (Rule T N)}

namespace Sweep

variable {s : Sweep N} {known : Std.ExtTreeSet N} {r : Rule T N} {A : N}

theorem admits_iff : admits known r = true ↔ ∀ X ∈ r.rhs, ∃ B ∈ known, X = .nonterminal B := by
  rw [admits, List.all_eq_true]
  refine forall₂_congr fun X _ => ?_
  cases X <;> simp [Symbol.isNonterminal]

/-- What a step of a sweep makes known derives the empty string if all that it counts on does. -/
theorem yields_of_mem_visit (hs : ∀ B ∈ s.known, Yields rules [.nonterminal B] []) (hr : r ∈ rules)
    (h : A ∈ (s.visit r).known) : Yields rules [.nonterminal A] [] := by
  obtain ⟨-, heq⟩ | ⟨-, hadmits, heq⟩ := s.visit_cases r
  · rw [heq] at h
    exact hs A h
  · rw [heq] at h
    rcases mem_insert_iff.1 h with rfl | h
    · refine .of_rule hr (yields_nil_iff.2 fun X hX => ?_)
      obtain ⟨B, hB, rfl⟩ := admits_iff.1 hadmits X hX
      exact hs B hB
    · exact hs A h

theorem yields_of_mem_foldl {visited : List (Rule T N)} (hvisited : ∀ r ∈ visited, r ∈ rules)
    (hs : ∀ B ∈ s.known, Yields rules [.nonterminal B] []) :
    ∀ B ∈ (visited.foldl visit s).known, Yields rules [.nonterminal B] [] := by
  induction visited generalizing s with
  | nil => exact hs
  | cons r visited ih =>
    obtain ⟨hr, hvisited⟩ := List.forall_mem_cons.1 hvisited
    exact ih hvisited fun B hB => yields_of_mem_visit hs hr hB

theorem yields_of_mem_run (hknown : ∀ B ∈ known, Yields rules [.nonterminal B] [])
    (h : A ∈ (run rules known).known) : Yields rules [.nonterminal A] [] :=
  yields_of_mem_foldl (s := ⟨known, false⟩) (fun _ hr => hr) hknown A h

theorem known_run_of_unchanged (h : (run rules known).changed = false) :
    (run rules known).known = known := by
  rcases foldl_visit_cases ⟨known, false⟩ rules with ⟨hsame, -⟩ | ⟨hchanged, -⟩
  · rw [run, hsame]
  · cases h.symm.trans hchanged

/-- A sweep that changes nothing has found no rule that would make its left-hand side known. -/
theorem closed_of_unchanged (h : (run rules known).changed = false) (hr : r ∈ rules)
    (hX : ∀ X ∈ r.rhs, ∃ B ∈ known, X = .nonterminal B) : r.lhs ∈ known := by
  rcases foldl_visit_cases ⟨known, false⟩ rules with ⟨-, hclosed⟩ | ⟨hchanged, -⟩
  · rcases hclosed r hr with hmem | hnot
    · exact hmem
    · cases (admits_iff.2 hX).symm.trans hnot
  · cases h.symm.trans hchanged

end Sweep

/-- The sweeps end before there are more of them than rules with unknown left-hand sides, and one
more sweep would change nothing. -/
theorem exists_sweeps (rules : List (Rule T N)) (known : Std.ExtTreeSet N) :
    ∃ n ≤ Sweep.unknownCount rules known,
      nullableBySweeps rules known = (fun known => (Sweep.run rules known).known)^[n] known ∧
        (Sweep.run rules (nullableBySweeps rules known)).changed = false := by
  fun_induction nullableBySweeps rules known with
  | case1 known hchanged _ ih =>
    obtain ⟨n, hn, heq, hend⟩ := ih
    have hlt := Sweep.unknownCount_run_lt hchanged
    exact ⟨n + 1, by omega, by rw [heq, Function.iterate_succ_apply], hend⟩
  | case2 known hunchanged =>
    rw [Bool.not_eq_true] at hunchanged
    rw [Sweep.known_run_of_unchanged hunchanged]
    exact ⟨0, Nat.zero_le _, rfl, hunchanged⟩

/-- The sweeps find just the nonterminals that derive the empty string. -/
theorem mem_nullableBySweeps_iff {A : N} :
    A ∈ nullableBySweeps rules {} ↔ Yields rules [.nonterminal A] [] := by
  obtain ⟨n, -, hn, hend⟩ := exists_sweeps rules {}
  constructor
  · -- each sweep counts on what derives the empty string only
    rw [hn]
    clear hn hend
    induction n generalizing A with
    | zero => exact fun h => absurd h Std.ExtTreeSet.not_mem_empty
    | succ n ih =>
      rw [Function.iterate_succ_apply']
      exact Sweep.yields_of_mem_run fun B hB => ih hB
  · exact Yields.of_closed fun r hr hX => Sweep.closed_of_unchanged hend hr hX

variable [DecidableEq N]

/-- Whatever the rules are, the sweeps come to an end after one for each rule at most, and they find
just the nonterminals that derive the empty string. Another order of the rules makes no difference,
nor does it make one to settle the rules nonterminal by nonterminal, and a grammar takes the same
nonterminals for nullable. -/
theorem nullable_exact (rules : List (Rule T N)) :
    (∃ n ≤ rules.length,
        nullableBySweeps rules {} = (fun known => (Sweep.run rules known).known)^[n] {} ∧
          (Sweep.run rules (nullableBySweeps rules {})).changed = false) ∧
      (∀ A, A ∈ nullableBySweeps rules {} ↔ Derives rules [.nonterminal A] []) ∧
      (∀ rules' : List (Rule T N), rules'.Perm rules →
        nullableBySweeps rules' {} = nullableBySweeps rules {}) ∧
      (∀ A, A ∈ nullableSymbols rules ↔ A ∈ nullableBySweeps rules {}) ∧
      ∀ g : Grammar T N, g.rules.toList = rules → ∀ A,
        g.isNullable A = true ↔ A ∈ nullableBySweeps rules {} := by
  refine ⟨?_, fun A => ?_, fun rules' hperm => ?_, fun A => ?_, ?_⟩
  · obtain ⟨n, hn, hsweeps⟩ := exists_sweeps rules {}
    exact ⟨n, hn.trans List.countP_le_length, hsweeps⟩
  · exact mem_nullableBySweeps_iff.trans (derives_word_iff_yields (w := [])).symm
  · refine Std.ExtTreeSet.ext_mem fun A => ?_
    rw [mem_nullableBySweeps_iff, mem_nullableBySweeps_iff]
    exact ⟨fun h => h.mono fun r => hperm.mem_iff.1, fun h => h.mono fun r => hperm.mem_iff.2⟩
  · exact mem_nullableSymbols_iff.trans mem_nullableBySweeps_iff.symm
  · rintro g rfl A
    exact Grammar.isNullable_iff_yields.trans mem_nullableBySweeps_iff.symm

/-- Each rule counts on the one behind it, so every sweep finds one nonterminal. `U` needs itself,
and `V` a nonterminal without rules. -/
def lateRules : List (Rule Char Char) :=
  [⟨'S', [.nonterminal 'A', .nonterminal 'B'], 0⟩, ⟨'A', [.nonterminal 'B'], 0⟩, ⟨'B', [], 0⟩,
    ⟨'U', [.nonterminal 'B', .nonterminal 'U'], 0⟩, ⟨'V', [.nonterminal 'W'], 0⟩]

theorem nullable_exact_lateRules : 'S' ∈ nullableBySweeps lateRules {} ∧
    'U' ∉ nullableBySweeps lateRules {} ∧ 'V' ∉ nullableBySweeps lateRules {} ∧
      nullableBySweeps lateRules.reverse {} = nullableBySweeps lateRules {} := by
  obtain ⟨-, -, hperm, hmem, -⟩ := nullable_exact lateRules
  exact ⟨(hmem 'S').1 (by decide +kernel), mt (hmem 'U').2 (by decide +kernel),
    mt (hmem 'V').2 (by decide +kernel), hperm _ lateRules.reverse_perm⟩

end EarleyForest
