import EarleyForest.Proofs.Grammar.Building
import EarleyForest.Proofs.Grammar.CycleLoop
import Mathlib.Order.WellFounded

/-!
# Nonterminals that derive themselves

`A` leads to `B` when a rule for `A` mentions `B` and all other symbols in it derive the empty
string (`LeadsTo`). Whatever derives a single nonterminal has one symbol that leads there, by any
number of such steps, and all its other symbols derive the empty string (`Derives.exists_isSole`).
So one nonterminal derives another in one or more steps just if it leads there
(`derivesProperly_iff`). The steps that are searched for cycles are these (`mem_leadsTo_iff`), and
building refuses a grammar as cyclic just if some nonterminal derives itself
(`GrammarBuilder.build_detects_cycles`).
-/

namespace EarleyForest

variable {T N : Type} {rules : List (Rule T N)} {A B C : N} {Xs Ys : List (Symbol T N)}

/-! ## Symbols that stand alone -/

theorem derives_nil_iff : Derives rules Xs [] ↔ ∀ X ∈ Xs, Derives rules [X] [] := by
  have h (Zs : List (Symbol T N)) : Derives rules Zs [] ↔ Yields rules Zs [] :=
    derives_word_iff_yields (w := [])
  simp only [h]
  exact yields_nil_iff

theorem derives_append_nil_iff :
    Derives rules (Xs ++ Ys) [] ↔ Derives rules Xs [] ∧ Derives rules Ys [] := by
  simp [derives_append_iff]

/-- `B` is one of the symbols, and all others derive the empty string. -/
def IsSole (rules : List (Rule T N)) (B : N) (Xs : List (Symbol T N)) : Prop :=
  ∃ u v, Xs = u ++ .nonterminal B :: v ∧ ∀ X ∈ u ++ v, Derives rules [X] []

/-- `A` has a rule that mentions `B` and in which all other symbols derive the empty string. -/
def LeadsTo (rules : List (Rule T N)) (A B : N) : Prop :=
  ∃ r ∈ rules, r.lhs = A ∧ IsSole rules B r.rhs

theorem isSole_iff : IsSole rules B Xs ↔
    ∃ u v, Xs = u ++ .nonterminal B :: v ∧ Derives rules u [] ∧ Derives rules v [] := by
  refine exists_congr fun u => exists_congr fun v => and_congr_right fun _ => ?_
  rw [List.forall_mem_append, ← derives_nil_iff, ← derives_nil_iff]

theorem isSole_self (B : N) : IsSole rules B [.nonterminal B] := ⟨[], [], rfl, by simp⟩

/-- What stands alone in two strings side by side does so in one of them, and the other one derives
the empty string. -/
theorem isSole_append_iff : IsSole rules B (Xs ++ Ys) ↔
    IsSole rules B Xs ∧ Derives rules Ys [] ∨ Derives rules Xs [] ∧ IsSole rules B Ys := by
  simp only [isSole_iff]
  constructor
  · rintro ⟨u, v, h, hu, hv⟩
    rcases List.append_eq_append_iff.1 h with ⟨c, rfl, rfl⟩ | ⟨c, rfl, hc⟩
    · obtain ⟨hXs, hc⟩ := derives_append_nil_iff.1 hu
      exact .inr ⟨hXs, c, v, rfl, hc, hv⟩
    · cases c with
      | nil => exact .inr ⟨by simpa using hu, [], v, hc.symm, .refl _, hv⟩
      | cons X c =>
        rw [List.cons_append, List.cons_eq_cons] at hc
        obtain ⟨rfl, rfl⟩ := hc
        obtain ⟨hc, hYs⟩ := derives_append_nil_iff.1 hv
        exact .inl ⟨⟨u, c, rfl, hu, hc⟩, hYs⟩
  · rintro (⟨⟨u, v, rfl, hu, hv⟩, hYs⟩ | ⟨hXs, u, v, rfl, hu, hv⟩)
    · exact ⟨u, v ++ Ys, by simp, hu, derives_append_nil_iff.2 ⟨hv, hYs⟩⟩
    · exact ⟨Xs ++ u, v, by simp, derives_append_nil_iff.2 ⟨hXs, hu⟩, hv⟩

theorem IsSole.derives (h : IsSole rules B Xs) : Derives rules Xs [.nonterminal B] := by
  obtain ⟨u, v, rfl, hu, hv⟩ := isSole_iff.1 h
  have hB := hv.append_left [Symbol.nonterminal B]
  simpa using hu.append hB

/-- What derives a single nonterminal has one symbol that leads there, and the others vanish. -/
theorem Derives.exists_isSole (h : Derives rules Xs [.nonterminal B]) :
    ∃ C, IsSole rules C Xs ∧ Relation.ReflTransGen (LeadsTo rules) C B := by
  generalize hs : [Symbol.nonterminal B] = s at h
  induction h with
  | refl => exact ⟨B, hs ▸ isSole_self B, .refl⟩
  | step he _ ih =>
    obtain ⟨C, hC, hCB⟩ := ih hs
    obtain @⟨r, hr, a, b⟩ := he
    -- the expanded nonterminal and what follows it, as two strings side by side
    rw [show a ++ Symbol.nonterminal r.lhs :: b = a ++ ([.nonterminal r.lhs] ++ b) by simp]
    have hrhs : Derives rules r.rhs [] → Derives rules [.nonterminal r.lhs] [] :=
      (Derives.of_rule hr).trans
    rcases isSole_append_iff.1 hC with ⟨hCa, hnil⟩ | ⟨ha, hC⟩
    · obtain ⟨hr, hb⟩ := derives_append_nil_iff.1 hnil
      have hnil' := derives_append_nil_iff.2 ⟨hrhs hr, hb⟩
      exact ⟨C, isSole_append_iff.2 (.inl ⟨hCa, hnil'⟩), hCB⟩
    rcases isSole_append_iff.1 hC with ⟨hCr, hb⟩ | ⟨hnil, hCb⟩
    · have hlhs := isSole_append_iff.2 (.inl ⟨isSole_self r.lhs, hb⟩)
      exact ⟨r.lhs, isSole_append_iff.2 (.inr ⟨ha, hlhs⟩), .head ⟨r, hr, rfl, hCr⟩ hCB⟩
    · have hCb' := isSole_append_iff.2 (.inr ⟨hrhs hnil, hCb⟩)
      exact ⟨C, isSole_append_iff.2 (.inr ⟨ha, hCb'⟩), hCB⟩

/-! ## Derivations in one or more steps -/

theorem LeadsTo.derivesProperly (h : LeadsTo rules A B) :
    DerivesProperly rules [.nonterminal A] [.nonterminal B] := by
  obtain ⟨r, hr, hA, hB⟩ := h
  exact ⟨r.rhs, expands_nonterminal_iff.2 ⟨r, hr, hA, rfl⟩, hB.derives⟩

theorem DerivesProperly.derives (h : DerivesProperly rules Xs Ys) : Derives rules Xs Ys := by
  obtain ⟨w, he, hd⟩ := h
  exact .step he hd

/-- A nonterminal derives another one in one or more steps just if it leads there. -/
theorem derivesProperly_iff : DerivesProperly rules [.nonterminal A] [.nonterminal B] ↔
    Relation.TransGen (LeadsTo rules) A B := by
  constructor
  · rintro ⟨w, he, hd⟩
    obtain ⟨r, hr, hA, rfl⟩ := expands_nonterminal_iff.1 he
    obtain ⟨C, hC, hCB⟩ := hd.exists_isSole
    exact .head' ⟨r, hr, hA, hC⟩ hCB
  · intro h
    induction h with
    | single h => exact h.derivesProperly
    | tail _ h ih =>
      obtain ⟨w, he, hd⟩ := ih
      exact ⟨w, he, hd.trans h.derivesProperly.derives⟩

/-! ## What building refuses -/

theorem isNonterminal_iff {nullable : N → Bool}
    (hnullable : ∀ A, nullable A = true ↔ Derives rules [.nonterminal A] []) {X : Symbol T N} :
    X.isNonterminal nullable = true ↔ Derives rules [X] [] := by
  cases X with
  | nonterminal A => exact hnullable A
  | terminal kind =>
    have h : ¬ Derives rules (word [kind]) [] := fun h =>
      List.cons_ne_nil _ _ (derives_word_iff.1 h).symm
    simpa [Symbol.isNonterminal, word] using h

variable [DecidableEq N]

/-- The search for cycles goes from each nonterminal to those that it leads to. -/
theorem mem_leadsTo_iff {nullable : N → Bool}
    (hnullable : ∀ A, nullable A = true ↔ Derives rules [.nonterminal A] []) :
    B ∈ leadsTo rules nullable A ↔ LeadsTo rules A B := by
  simp only [mem_leadsTo, isNonterminal_iff hnullable, LeadsTo, IsSole, List.forall_mem_append]

section

variable {nullable : N → Bool}
  (hnullable : ∀ A, nullable A = true ↔ Derives rules [.nonterminal A] [])
include hnullable

/-- The cycles found are cycles of these steps. -/
theorem isCycle_leadsTo {cycle : List N} (h : findCycle rules nullable = some cycle) :
    IsCycle (LeadsTo rules) cycle := by
  obtain ⟨hne, hnodup, hsteps⟩ := isCycle_of_findCycle h
  exact ⟨hne, hnodup, hsteps.imp fun A B => (mem_leadsTo_iff hnullable).1⟩

/-- A cycle is found just if some nonterminal derives itself in one or more steps. -/
theorem exists_findCycle_iff : (∃ cycle, findCycle rules nullable = some cycle) ↔
    ∃ A, DerivesProperly rules [.nonterminal A] [.nonterminal A] := by
  simp only [derivesProperly_iff]
  constructor
  · rintro ⟨cycle, hcycle⟩
    exact (isCycle_leadsTo hnullable hcycle).exists_transGen
  · rintro ⟨A, hA⟩
    by_contra hnone
    have hwf : WellFounded fun B A => LeadsTo rules A B := by
      simp only [← mem_leadsTo_iff hnullable]
      exact wellFounded_leadsTo (by simpa [Option.eq_none_iff_forall_ne_some] using hnone)
    exact hwf.transGen.irrefl.irrefl A (Relation.transGen_swap.1 hA)

end

variable [SearchKey N]

namespace GrammarBuilder

/-- Whether a nonterminal is found to derive the empty string. -/
def isNullable (b : GrammarBuilder T N) : N → Bool :=
  (.ofList (nullableSymbols b.rules.toList) : Std.TreeSet N).contains

theorem isNullable_iff {b : GrammarBuilder T N} :
    b.isNullable A = true ↔ Derives b.rules.toList [.nonterminal A] [] := by
  simp only [isNullable, Std.TreeSet.contains_ofList, List.contains_iff_mem,
    mem_nullableSymbols_iff]
  exact (derives_word_iff_yields (w := [])).symm

/-- Given an entry point that has rules and no undefined nonterminals, building fails just if the
search finds a cycle. -/
theorem build_cases {b : GrammarBuilder T N} {entry : N} (hentry : b.entry? = some entry)
    (hrules : ∃ r ∈ b.rules, r.lhs = entry)
    (hdefined : ∀ r ∈ b.rules, ∀ A, .nonterminal A ∈ r.rhs → ∃ r' ∈ b.rules, r'.lhs = A) :
    (∃ cycle, findCycle b.rules.toList b.isNullable = some cycle ∧
        b.build = .error (.cyclic cycle)) ∨
      findCycle b.rules.toList b.isNullable = none ∧ ∃ g, b.build = .ok g := by
  have hindex (A : N) : (ruleIndex b.rules.toList).contains A = true ↔ ∃ r ∈ b.rules, r.lhs = A := by
    simp only [contains_ruleIndex, Array.mem_toList_iff]
  have hundefined : findUndefined (ruleIndex b.rules.toList).contains b.rules.toList = none := by
    refine findUndefined_eq_none_iff.2 fun r hr A hA => (hindex A).2 ?_
    exact hdefined r (Array.mem_toList_iff.1 hr) A hA
  unfold build isNullable
  simp only [hentry]
  split
  · rename_i hmissing
    exact absurd ((hindex entry).2 hrules) (by simp [hmissing])
  · split
    · rename_i A B hsome
      cases hundefined.symm.trans hsome
    · split
      · rename_i cycle hcycle
        exact .inl ⟨cycle, hcycle, rfl⟩
      · rename_i hnone
        exact .inr ⟨hnone, _, rfl⟩

/-- Given an entry point that has rules and no undefined nonterminals, building refuses the rules as
cyclic just if some nonterminal derives itself in one or more steps, and builds a grammar otherwise.
What it reports is a cycle of nonterminals, each of which has a rule that mentions the next one and
in which all else derives the empty string. The search comes to its end: its bound on the depth can
be any number above that of the rules, and the loop that keeps the path by itself ends with what is
reported. -/
theorem build_detects_cycles (b : GrammarBuilder T N) (entry : N) (hentry : b.entry? = some entry)
    (hrules : ∃ r ∈ b.rules, r.lhs = entry)
    (hdefined : ∀ r ∈ b.rules, ∀ A, .nonterminal A ∈ r.rhs → ∃ r' ∈ b.rules, r'.lhs = A) :
    ((∃ cycle, b.build = .error (.cyclic cycle)) ↔
        ∃ A, DerivesProperly b.rules.toList [.nonterminal A] [.nonterminal A]) ∧
      ((∃ g, b.build = .ok g) ↔
        ¬ ∃ A, DerivesProperly b.rules.toList [.nonterminal A] [.nonterminal A]) ∧
      (∀ cycle, b.build = .error (.cyclic cycle) → IsCycle (LeadsTo b.rules.toList) cycle) ∧
      (∀ depth, b.rules.size < depth → findCycleWithin depth b.rules.toList b.isNullable =
        findCycle b.rules.toList b.isNullable) ∧
      ∃ found, Ends (CycleSearch.round (CycleSearch.edges b.rules.toList b.isNullable))
          (CycleSearch.start b.rules.toList) found ∧
        ∀ cycle, b.build = .error (.cyclic cycle) ↔ found = some cycle := by
  have hnullable : ∀ A, b.isNullable A = true ↔ Derives b.rules.toList [.nonterminal A] [] :=
    fun A => isNullable_iff
  have hdepth : ∀ depth, b.rules.size < depth → findCycleWithin depth b.rules.toList b.isNullable =
      findCycle b.rules.toList b.isNullable := fun depth h => findCycleWithin_eq _ (by simpa using h)
  have hends := ends_findCycle b.rules.toList b.isNullable
  rw [← exists_findCycle_iff hnullable]
  rcases build_cases hentry hrules hdefined with ⟨cycle, hcycle, hbuild⟩ | ⟨hnone, g, hbuild⟩
  · refine ⟨by simp [hbuild, hcycle], by simp [hbuild, hcycle], fun cycle' h => ?_, hdepth,
      some cycle, hcycle ▸ hends, by simp [hbuild]⟩
    cases hbuild.symm.trans h
    exact isCycle_leadsTo hnullable hcycle
  · exact ⟨by simp [hbuild, hnone], by simp [hbuild, hnone], by simp [hbuild], hdepth,
      none, hnone ▸ hends, by simp [hbuild]⟩

/-- `A -> B C`, `A -> 'x'`, `B -> A` and `C -> ε`: since `C` can vanish, `A` derives itself. -/
def hiddenLoop : GrammarBuilder Char Char where
  rules := #[⟨'A', [.nonterminal 'B', .nonterminal 'C'], 0⟩, ⟨'A', [.terminal 'x'], 0⟩,
    ⟨'B', [.nonterminal 'A'], 0⟩, ⟨'C', [], 0⟩]
  entry? := some 'A'

theorem build_detects_cycles_hiddenLoop : hiddenLoop.entry? = some 'A' ∧
    (∃ r ∈ hiddenLoop.rules, r.lhs = 'A') ∧
      (∀ r ∈ hiddenLoop.rules, ∀ A, .nonterminal A ∈ r.rhs →
        ∃ r' ∈ hiddenLoop.rules, r'.lhs = A) ∧
      (∃ A, DerivesProperly hiddenLoop.rules.toList [.nonterminal A] [.nonterminal A]) ∧
        hiddenLoop.build = .error (.cyclic ['A', 'B']) ∧
        IsCycle (LeadsTo hiddenLoop.rules.toList) ['A', 'B'] := by
  have hrules : ∃ r ∈ hiddenLoop.rules, r.lhs = 'A' := by simp [hiddenLoop]
  have hdefined : ∀ r ∈ hiddenLoop.rules, ∀ A, .nonterminal A ∈ r.rhs →
      ∃ r' ∈ hiddenLoop.rules, r'.lhs = A := by
    simp [hiddenLoop]
  have hcycle : findCycle hiddenLoop.rules.toList hiddenLoop.isNullable = some ['A', 'B'] := by
    decide +kernel
  have hbuild : hiddenLoop.build = .error (.cyclic ['A', 'B']) := by
    rcases build_cases rfl hrules hdefined with ⟨cycle, h, hbuild⟩ | ⟨hnone, -⟩
    · cases hcycle.symm.trans h
      exact hbuild
    · cases hcycle.symm.trans hnone
  obtain ⟨hderives, -, hreport, -⟩ := build_detects_cycles hiddenLoop 'A' rfl hrules hdefined
  exact ⟨rfl, hrules, hdefined, hderives.1 ⟨_, hbuild⟩, hbuild, hreport _ hbuild⟩

end GrammarBuilder

end EarleyForest
