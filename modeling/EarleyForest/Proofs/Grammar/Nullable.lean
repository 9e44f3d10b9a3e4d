import EarleyForest.Grammar.Basic
import EarleyForest.Proofs.Grammar.Yields

/-!
# The nonterminals found are those that derive the empty string

A string derives the empty string when each of its symbols does (`yields_nil_iff`). What the search
finds derives the empty string (`yields_of_mem_nullableFrom`), and by what is still pending no rule
is forgotten (`Covers`), so that nothing more is to be found at its end
(`closed_nullableFrom`). Hence `Grammar.isNullable_iff_yields`.
-/

namespace EarleyForest

variable {T N : Type} {rules : List (Rule T N)}

theorem yields_nil_iff {Xs : List (Symbol T N)} :
    Yields rules Xs [] ↔ ∀ X ∈ Xs, Yields rules [X] [] := by
  constructor
  · intro h X hX
    obtain ⟨Ys, Zs, rfl⟩ := List.append_of_mem hX
    obtain ⟨u, v, huv, -, hv⟩ := h.exists_append
    obtain ⟨rfl, rfl⟩ := List.append_eq_nil_iff.1 huv.symm
    obtain ⟨u', v', huv', hX', -⟩ := (show Yields rules ([X] ++ Zs) [] from hv).exists_append
    obtain ⟨rfl, rfl⟩ := List.append_eq_nil_iff.1 huv'.symm
    exact hX'
  · intro h
    induction Xs with
    | nil => exact .nil
    | cons X Xs ih =>
      obtain ⟨hX, hXs⟩ := List.forall_mem_cons.1 h
      exact Yields.append hX (ih hXs)

/-- What follows by the rules holds of every nonterminal that derives the empty string. -/
theorem Yields.of_closed {P : N → Prop}
    (hP : ∀ r ∈ rules, (∀ X ∈ r.rhs, ∃ B, P B ∧ X = .nonterminal B) → P r.lhs) {A : N}
    (h : Yields rules [.nonterminal A] []) : P A := by
  have key : ∀ {Xs : List (Symbol T N)} {w : List T}, Yields rules Xs w → w = [] →
      ∀ X ∈ Xs, ∃ B, P B ∧ X = .nonterminal B := by
    intro Xs w h
    induction h with
    | nil => simp
    | terminal => simp
    | @nonterminal r _ _ _ hr _ _ ih ihs =>
      intro hw
      obtain ⟨hv, hw⟩ := List.append_eq_nil_iff.1 hw
      exact List.forall_mem_cons.2 ⟨⟨r.lhs, hP r hr (ih hv), rfl⟩, ihs hw⟩
  obtain ⟨B, hB, hAB⟩ := key h rfl _ List.mem_cons_self
  cases hAB
  exact hB

variable [DecidableEq N]

/-- Each rule is settled, or pending with what is not settled of its right-hand side. -/
def Covers (rules : List (Rule T N)) (known : List N) (pending : List (PendingRule T N)) : Prop :=
  ∀ r ∈ rules, r.lhs ∈ known ∨ ∃ p ∈ pending, p.lhs = r.lhs ∧
    ∀ X ∈ p.rest, X ∈ r.rhs ∧ ∀ B ∈ known, X ≠ .nonterminal B

omit [DecidableEq N] in
theorem covers_nil : Covers rules [] (rules.map fun r => ⟨r.lhs, r.rhs⟩) := by
  intro r hr
  exact .inr ⟨⟨r.lhs, r.rhs⟩, List.mem_map.2 ⟨r, hr, rfl⟩, rfl, fun X hX => ⟨hX, by simp⟩⟩

theorem mem_without {A : N} {p : PendingRule T N} {X : Symbol T N} :
    X ∈ (p.without A).rest ↔ X ∈ p.rest ∧ X ≠ .nonterminal A := by
  cases X <;> simp [PendingRule.without, Symbol.isNonterminal]

theorem mem_settle {A : N} {pending : List (PendingRule T N)} {q : PendingRule T N} :
    q ∈ settle A pending ↔ ∃ p ∈ pending, p.lhs ≠ A ∧ p.without A = q := by
  simp [settle, and_assoc]

theorem Covers.settle {A : N} {known : List N} {pending : List (PendingRule T N)}
    (h : Covers rules known pending) : Covers rules (A :: known) (settle A pending) := by
  intro r hr
  rcases h r hr with hk | ⟨p, hp, hl, hX⟩
  · exact .inl (List.mem_cons_of_mem A hk)
  by_cases hA : r.lhs = A
  · exact .inl (hA ▸ List.mem_cons_self)
  refine .inr ⟨p.without A, mem_settle.2 ⟨p, hp, hl ▸ hA, rfl⟩, hl, fun X hm => ?_⟩
  obtain ⟨hm, hne⟩ := mem_without.1 hm
  obtain ⟨hr, hk⟩ := hX X hm
  exact ⟨hr, List.forall_mem_cons.2 ⟨hne, hk⟩⟩

/-- At the end of the search no rule gives a nonterminal that is not known. -/
theorem closed_nullableFrom {known : List N} {pending : List (PendingRule T N)}
    (h : Covers rules known pending) {r : Rule T N} (hr : r ∈ rules)
    (hX : ∀ X ∈ r.rhs, ∃ B ∈ nullableFrom known pending, X = .nonterminal B) :
    r.lhs ∈ nullableFrom known pending := by
  fun_induction nullableFrom known pending with
  | case1 known pending hnone =>
    rcases h r hr with hk | ⟨p, hp, -, hrest⟩
    · exact hk
    have hne : p.rest ≠ [] := by simpa using List.find?_eq_none.1 hnone p hp
    obtain ⟨X, hXp⟩ := List.exists_mem_of_ne_nil _ hne
    obtain ⟨hXr, hXk⟩ := hrest X hXp
    obtain ⟨B, hB, rfl⟩ := hX X hXr
    exact absurd rfl (hXk B hB)
  | case2 known pending p hp _ ih => exact ih h.settle hX

theorem yields_of_mem_nullableFrom {known : List N} {pending : List (PendingRule T N)} {A : N}
    (hk : ∀ B ∈ known, Yields rules [.nonterminal B] [])
    (hp : ∀ p ∈ pending, Yields rules p.rest [] → Yields rules [.nonterminal p.lhs] [])
    (h : A ∈ nullableFrom known pending) : Yields rules [.nonterminal A] [] := by
  fun_induction nullableFrom known pending with
  | case1 => exact hk A h
  | case2 known pending p hfind _ ih =>
    have hempty : p.rest = [] := by simpa using List.find?_some hfind
    have hlhs := hp p (List.mem_of_find?_eq_some hfind) (hempty ▸ .nil)
    refine ih (List.forall_mem_cons.2 ⟨hlhs, hk⟩) (fun q hq hrest => ?_) h
    obtain ⟨q₀, hq₀, -, rfl⟩ := mem_settle.1 hq
    refine hp q₀ hq₀ (yields_nil_iff.2 fun X hX => ?_)
    by_cases hXp : X = .nonterminal p.lhs
    · exact hXp ▸ hlhs
    · exact yields_nil_iff.1 hrest X (mem_without.2 ⟨hX, hXp⟩)

theorem mem_nullableSymbols_iff {A : N} :
    A ∈ nullableSymbols rules ↔ Yields rules [.nonterminal A] [] := by
  constructor
  · refine yields_of_mem_nullableFrom (by simp) fun p hp hrest => ?_
    obtain ⟨r, hr, rfl⟩ := List.mem_map.1 hp
    exact .of_rule hr hrest
  · exact Yields.of_closed fun r hr hX => closed_nullableFrom covers_nil hr hX

theorem Grammar.isNullable_iff_yields [SearchKey N] {g : Grammar T N} {A : N} :
    g.isNullable A = true ↔ Yields g.rules.toList [.nonterminal A] [] :=
  Grammar.isNullable_iff.trans mem_nullableSymbols_iff

end EarleyForest
