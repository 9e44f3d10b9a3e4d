import EarleyForest.Grammar.Rule

/-!
# Nonterminals that derive the empty string

A nonterminal derives the empty string when one of its rules has only such nonterminals on its
right-hand side. They are found one after the other: each one found is taken out of the right-hand
sides of the other rules, and a rule with nothing left there gives the next one.
-/

namespace EarleyForest

variable {T N : Type} [DecidableEq N]

/-- A left-hand side, and what is left to settle of a right-hand side. -/
structure PendingRule (T N : Type) where
  lhs : N
  rest : List (Symbol T N)

/-- What is left of a rule once `A` is known to derive the empty string. -/
def PendingRule.without (A : N) (p : PendingRule T N) : PendingRule T N :=
  { p with rest := p.rest.filter fun X => !X.isNonterminal (· = A) }

/-- What is left of the rules for other nonterminals once `A` is known to derive the empty
string. -/
def settle (A : N) (pending : List (PendingRule T N)) : List (PendingRule T N) :=
  (pending.filter (·.lhs ≠ A)).map (·.without A)

theorem length_settle_lt {p : PendingRule T N} {pending : List (PendingRule T N)}
    (h : p ∈ pending) : (settle p.lhs pending).length < pending.length := by
  rw [settle, List.length_map]
  exact List.length_filter_lt_length_iff_exists.2 ⟨p, h, by simp⟩

/-- `known`, and all that follows from it by the rules not settled yet. -/
def nullableFrom (known : List N) (pending : List (PendingRule T N)) : List N :=
  match h : pending.find? (·.rest.isEmpty) with
  | none => known
  | some p =>
    have := length_settle_lt (List.mem_of_find?_eq_some h)
    nullableFrom (p.lhs :: known) (settle p.lhs pending)
termination_by pending.length

/-- The nonterminals that derive the empty string by `rules`. -/
def nullableSymbols (rules : List (Rule T N)) : List N :=
  nullableFrom [] (rules.map fun r => ⟨r.lhs, r.rhs⟩)

end EarleyForest
