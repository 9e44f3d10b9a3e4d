import EarleyForest.Grammar.Rule
import EarleyForest.SearchKey
import Std.Data.ExtTreeSet

/-!
# Nullable nonterminals by sweeps

The nonterminals that derive the empty string, found by going through all rules again and again. A
rule whose right-hand side is known to derive the empty string makes its left-hand side known, and
the rules behind it in the same sweep count on that already. The sweeps end with one that changes
nothing: each one before it takes a left-hand side from those that are not known yet.
-/

namespace EarleyForest

variable {T N : Type} [SearchKey N]

/-- The nonterminals known to derive the empty string, and whether the sweep has found any of
them. -/
structure Sweep (N : Type) [SearchKey N] where
  known : Std.ExtTreeSet N
  changed : Bool

namespace Sweep

/-- Whether the right-hand side of the rule is known to derive the empty string. -/
def admits (known : Std.ExtTreeSet N) (r : Rule T N) : Bool :=
  r.rhs.all (·.isNonterminal known.contains)

/-- Goes on with one rule. -/
def visit (s : Sweep N) (r : Rule T N) : Sweep N :=
  if r.lhs ∈ s.known then s
  else if admits s.known r then ⟨s.known.insert r.lhs, true⟩
  else s

/-- Goes once through the rules. -/
def run (rules : List (Rule T N)) (known : Std.ExtTreeSet N) : Sweep N :=
  rules.foldl visit ⟨known, false⟩

/-! ## What a sweep changes -/

variable {s : Sweep N} {r : Rule T N} {rules : List (Rule T N)} {A : N}

theorem mem_insert_iff {known : Std.ExtTreeSet N} {B : N} :
    A ∈ known.insert B ↔ A = B ∨ A ∈ known := by
  rw [Std.ExtTreeSet.mem_insert, Std.LawfulEqCmp.compare_eq_iff_eq, eq_comm]

theorem visit_cases (s : Sweep N) (r : Rule T N) :
    (r.lhs ∈ s.known ∨ admits s.known r = false) ∧ s.visit r = s ∨
      r.lhs ∉ s.known ∧ admits s.known r = true ∧
        s.visit r = ⟨s.known.insert r.lhs, true⟩ := by
  unfold visit
  split
  · exact .inl ⟨.inl ‹_›, rfl⟩
  · split
    · exact .inr ⟨‹_›, ‹_›, rfl⟩
    · rename_i hnot
      exact .inl ⟨.inr (Bool.not_eq_true _ ▸ hnot), rfl⟩

theorem mem_visit (h : A ∈ s.known) : A ∈ (s.visit r).known := by
  obtain ⟨-, heq⟩ | ⟨-, -, heq⟩ := s.visit_cases r
  · rwa [heq]
  · rw [heq]
    exact mem_insert_iff.2 (.inr h)

/-- Nothing that is known is forgotten. -/
theorem mem_foldl_visit (h : A ∈ s.known) : A ∈ (rules.foldl visit s).known := by
  induction rules generalizing s with
  | nil => exact h
  | cons r rules ih => exact ih (mem_visit h)

/-- Either the rules have changed nothing, or a left-hand side that was not known is so now. -/
theorem foldl_visit_cases (s : Sweep N) (rules : List (Rule T N)) :
    rules.foldl visit s = s ∧ (∀ r ∈ rules, r.lhs ∈ s.known ∨ admits s.known r = false) ∨
      (rules.foldl visit s).changed = true ∧
        ∃ r ∈ rules, r.lhs ∉ s.known ∧ r.lhs ∈ (rules.foldl visit s).known := by
  induction rules generalizing s with
  | nil => exact .inl ⟨rfl, nofun⟩
  | cons r rules ih =>
    rw [List.foldl_cons]
    obtain ⟨hr, heq⟩ | ⟨hnot, -, heq⟩ := s.visit_cases r
    · rw [heq]
      rcases ih s with ⟨hsame, hrules⟩ | ⟨hchanged, r', hr', hnew⟩
      · exact .inl ⟨hsame, List.forall_mem_cons.2 ⟨hr, hrules⟩⟩
      · exact .inr ⟨hchanged, r', List.mem_cons_of_mem _ hr', hnew⟩
    · have hmem : r.lhs ∈ (s.visit r).known := by
        rw [heq]
        exact mem_insert_iff.2 (.inl rfl)
      refine .inr ⟨?_, r, List.mem_cons_self, hnot, mem_foldl_visit hmem⟩
      rcases ih (s.visit r) with ⟨hsame, -⟩ | ⟨hchanged, -⟩
      · rw [hsame, heq]
      · exact hchanged

/-- The number of rules whose left-hand side is not known. -/
def unknownCount (rules : List (Rule T N)) (known : Std.ExtTreeSet N) : Nat :=
  rules.countP fun r => r.lhs ∉ known

/-- A sweep that changes something leaves fewer rules whose left-hand side is not known. -/
theorem unknownCount_run_lt {known : Std.ExtTreeSet N} (h : (run rules known).changed = true) :
    unknownCount rules (run rules known).known < unknownCount rules known := by
  have hkeep {A : N} (hA : A ∈ known) : A ∈ (run rules known).known :=
    mem_foldl_visit (s := ⟨known, false⟩) hA
  obtain ⟨r, hr, hnot, hmem⟩ : ∃ r ∈ rules, r.lhs ∉ known ∧ r.lhs ∈ (run rules known).known := by
    rcases foldl_visit_cases ⟨known, false⟩ rules with ⟨hsame, -⟩ | ⟨-, hnew⟩
    · rw [run, hsame] at h
      cases h
    · exact hnew
  generalize (run rules known).known = next at hkeep hmem
  have hle (rs : List (Rule T N)) : unknownCount rs next ≤ unknownCount rs known := by
    refine List.countP_mono_left fun r' _ hnew => ?_
    exact decide_eq_true (mt hkeep (of_decide_eq_true hnew))
  obtain ⟨before, behind, rfl⟩ := List.append_of_mem hr
  have hbefore := hle before
  have hbehind := hle behind
  unfold unknownCount at hbefore hbehind ⊢
  simp only [List.countP_append, List.countP_cons, hnot, hmem, not_true_eq_false,
    not_false_eq_true, decide_true, decide_false, if_true, Bool.false_eq_true, if_false]
  omega

end Sweep

/-- What sweeps over the rules find, given the nonterminals that are known. -/
def nullableBySweeps (rules : List (Rule T N)) (known : Std.ExtTreeSet N) : Std.ExtTreeSet N :=
  if h : (Sweep.run rules known).changed = true then
    have := Sweep.unknownCount_run_lt h
    nullableBySweeps rules (Sweep.run rules known).known
  else (Sweep.run rules known).known
termination_by Sweep.unknownCount rules known

end EarleyForest
