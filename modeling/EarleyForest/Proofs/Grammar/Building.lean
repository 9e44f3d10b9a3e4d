import EarleyForest.Proofs.Grammar.Cycle
import EarleyForest.Proofs.Grammar.Nullable

/-!
# What the checks of a grammar guarantee

The grammars are exactly what building gives (`GrammarBuilder.build_eq_ok_iff`), so that what holds
of every grammar holds of every one that was built. No nonterminal of a grammar leads to itself
(`Grammar.wellFounded_leadsTo`).
-/

namespace EarleyForest

variable {T N : Type} [DecidableEq N] [SearchKey N]

theorem Grammar.ext {g h : Grammar T N} : g.rules = h.rules → g.entry = h.entry → g = h := by
  obtain ⟨rules, entry, index, nullable, rfl, -, -, rfl, -⟩ := g
  obtain ⟨rules', entry', index', nullable', rfl, -, -, rfl, -⟩ := h
  intro hr he
  obtain rfl : rules = rules' := hr
  obtain rfl : entry = entry' := he
  rfl

/-- A grammar is what its own rules and entry point are built into, and nothing else is built into
it. -/
theorem GrammarBuilder.build_eq_ok_iff {b : GrammarBuilder T N} {g : Grammar T N} :
    b.build = .ok g ↔ b.rules = g.rules ∧ b.entry? = some g.entry := by
  constructor
  · intro h
    unfold build at h
    split at h
    · cases h
    rename_i entry hentry
    dsimp only at h
    split at h
    · cases h
    split at h
    · cases h
    split at h
    · cases h
    cases h
    exact ⟨rfl, hentry⟩
  · intro hx
    obtain ⟨hr, he⟩ := hx
    obtain ⟨rules, entry?⟩ := b
    obtain rfl : rules = g.rules := hr
    obtain rfl : entry? = some g.entry := he
    have hindex := g.index_eq
    have hnullable := g.nullable_eq
    unfold build
    dsimp only
    split
    · rename_i h
      cases (hindex ▸ g.entry_mem).symm.trans h
    split
    · rename_i h
      cases (hindex ▸ g.findUndefined_eq).symm.trans h
    split
    · rename_i h
      cases (hnullable ▸ g.findCycle_eq).symm.trans h
    exact congrArg Except.ok (Grammar.ext rfl rfl)

omit [DecidableEq N] [SearchKey N] in
theorem findUndefined_eq_none_iff {defined : N → Bool} {rules : List (Rule T N)} :
    findUndefined defined rules = none ↔
      ∀ r ∈ rules, ∀ A, .nonterminal A ∈ r.rhs → defined A = true := by
  simp only [findUndefined, List.findSome?_eq_none_iff]
  refine forall₂_congr fun r _ => ⟨fun h A hA => ?_, fun h X hX => ?_⟩
  · simpa using h _ hA
  · cases X with
    | terminal => rfl
    | nonterminal A => exact if_pos (h A hX)

theorem Grammar.wellFounded_leadsTo (g : Grammar T N) :
    WellFounded fun B A => B ∈ leadsTo g.rules.toList g.isNullable A :=
  EarleyForest.wellFounded_leadsTo g.findCycle_eq

end EarleyForest
