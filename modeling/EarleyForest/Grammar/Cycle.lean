import EarleyForest.Grammar.Rule

/-!
# Nonterminals that derive themselves

`A` leads to `B` when a rule for `A` has `B` on its right-hand side and all its other symbols derive
the empty string. A cycle of such steps gives some nonterminal infinitely many derivations. Cycles
are searched depth first, in the order of the rules and of the symbols in them.
-/

namespace EarleyForest

variable {T N : Type} [DecidableEq N]

/-- The nonterminals of `rhs` whose other symbols are all nullable, where `before` says whether the
symbols in front of `rhs` are. -/
def soleSymbols (nullable : N → Bool) (before : Bool) : List (Symbol T N) → List N
  | [] => []
  | X :: after =>
    let others := soleSymbols nullable (before && X.isNonterminal nullable) after
    match X with
    | .terminal _ => others
    | .nonterminal B =>
      if before && after.all (·.isNonterminal nullable) then B :: others else others

/-- The nonterminals that `A` leads to, in the order of the rules. -/
def leadsTo (rules : List (Rule T N)) (nullable : N → Bool) (A : N) : List N :=
  rules.flatMap fun r => if r.lhs = A then soleSymbols nullable true r.rhs else []

/-- Searches for a cycle from `A`. The nonterminals of `path`, innermost first, lead to `A` one
after the other; those of `done` are known to lie on no cycle. Gives a cycle as an error, and
otherwise what is known to lie on none. A path without repetition is never longer than there are
left-hand sides, which bounds the depth. At depth zero nothing is searched any more, but `findCycle`
never comes there. -/
def searchCycle (next : N → List N) : Nat → List N → List N → N → Except (List N) (List N)
  | 0, _, done, _ => .ok done
  | depth + 1, path, done, A =>
    let walk := (next A).foldlM (fun done B =>
      if B ∈ A :: path then .error ((A :: path).reverse.dropWhile (· ≠ B))
      else if B ∈ done then .ok done
      else searchCycle next depth (A :: path) done B) done
    walk.map (A :: ·)

/-- A cycle of nonterminals of which each leads to the next and the last to the first, if there is
one. -/
def findCycle (rules : List (Rule T N)) (nullable : N → Bool) : Option (List N) :=
  let walk := rules.foldlM (fun done r =>
    if r.lhs ∈ done then .ok done
    else searchCycle (leadsTo rules nullable) (rules.length + 1) [] done r.lhs) []
  match walk with
  | .error cycle => some cycle
  | .ok _ => none

end EarleyForest
