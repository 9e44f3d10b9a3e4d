import EarleyForest.Grammar.Cycle
import EarleyForest.Loops
import EarleyForest.SearchKey
import Std.Data.TreeMap

/-!
# The search for cycles as a loop

The depth-first search of `findCycle` without recursion. The nonterminals that are open stand on a
path, each with a cursor into those that it leads to. What the search has come across is marked as
being on the path or as done, and the marks stay when it starts anew from the next rule.
-/

namespace EarleyForest

variable {T N : Type} [DecidableEq N] [SearchKey N]

/-- How far the search has come with a nonterminal that it has come across. -/
inductive PathMark where
  | onPath
  | done
deriving DecidableEq

namespace CycleSearch

/-- Adds `targets` to those that `A` leads to. -/
def addEdges (edges : Std.TreeMap N (List N)) (A : N) (targets : List N) :
    Std.TreeMap N (List N) :=
  targets.foldl (fun edges B => edges.insert A (edges.getD A [] ++ [B])) edges

/-- For each nonterminal those that it leads to, collected rule by rule. -/
def edges (rules : List (Rule T N)) (nullable : N → Bool) : Std.TreeMap N (List N) :=
  rules.foldl (fun edges r => addEdges edges r.lhs (soleSymbols nullable true r.rhs)) {}

end CycleSearch

/-- A search on its way: the open nonterminals with their cursors, innermost first, the marks, and
the rules that are left to start from. -/
structure CycleSearch (T N : Type) [SearchKey N] where
  path : List (N × Nat)
  marks : Std.TreeMap N PathMark
  starts : List (Rule T N)

namespace CycleSearch

/-- Before the first rule. -/
def start (rules : List (Rule T N)) : CycleSearch T N := ⟨[], {}, rules⟩

/-- The part of the path from `B` on, outermost first. -/
def cycleFrom (path : List (N × Nat)) (B : N) : List N :=
  let symbols := (path.map Prod.fst).reverse
  symbols.drop ((symbols.idxOf? B).getD 0)

/-- One round of the search. With a path, the innermost nonterminal goes on to the next one that it
leads to, or is done when there is none. Without one the search starts from the next rule, unless
its left-hand side is marked, and is over when no rule is left. -/
def round (edges : Std.TreeMap N (List N)) (s : CycleSearch T N) :
    CycleSearch T N ⊕ Option (List N) :=
  match s.path with
  | [] =>
    match s.starts with
    | [] => .inr none
    | r :: starts =>
      if s.marks.contains r.lhs then .inl { s with starts := starts }
      else .inl ⟨[(r.lhs, 0)], s.marks.insert r.lhs .onPath, starts⟩
  | (A, cursor) :: outer =>
    match (edges.getD A [])[cursor]? with
    | none => .inl { s with path := outer, marks := s.marks.insert A .done }
    | some B =>
      match s.marks[B]? with
      | some .onPath => .inr (some (cycleFrom s.path B))
      | some .done => .inl { s with path := (A, cursor + 1) :: outer }
      | none =>
        .inl { s with
          path := (B, 0) :: (A, cursor + 1) :: outer
          marks := s.marks.insert B .onPath }

end CycleSearch

end EarleyForest
