import EarleyForest.Forest.Splits
import EarleyForest.Lexing.Token
import EarleyForest.Loops

/-!
# The search for splits

The splits of a rule without recursion over its right-hand side: a stack holds the lists of
boundaries that reach from the right end down to some symbol, and each round takes one of them and
adds a boundary in front of that symbol, in every way that the chart allows. Kinds are read off the
tokens, which are counted from the first one that was parsed.
-/

namespace EarleyForest

variable {T N : Type} [DecidableEq N] [SearchKey N]

/-- Boundaries in front of the symbols from number `dot` on, and the one at the end. -/
structure PartialSplit where
  dot : Nat
  bounds : List Nat

namespace Chart

variable [DecidableEq T] {g : Grammar T N} {n : Nat}

/-- Where `X`, which follows the first `dot` symbols of a rule begun at `origin`, may begin when it
ends at `stop`. -/
def starts (chart : Chart g n) (origins : N → Nat → Std.ExtTreeSet Nat) (tokens : Array (Token T))
    (base : Nat) (rule : RuleId) (origin dot stop : Nat) : Symbol T N → List Nat
  | .terminal kind =>
    if stop = 0 ∨ stop - 1 < origin then []
    else if tokens[base + (stop - 1)]?.any (·.kind = kind) ∧
        chart.contains (stop - 1) ⟨rule, dot, origin⟩ then [stop - 1]
    else []
  | .nonterminal A =>
    (origins A stop).toList.filter fun start =>
      origin ≤ start && chart.contains start ⟨rule, dot, origin⟩

/-- One round of the search: what is left on the stack, and the splits found so far. At the end they
are sorted. -/
def searchStep (chart : Chart g n) (origins : N → Nat → Std.ExtTreeSet Nat)
    (tokens : Array (Token T)) (base : Nat) (rule : RuleId) (rhs : List (Symbol T N))
    (origin : Nat) : List PartialSplit × List (List Nat) →
      (List PartialSplit × List (List Nat)) ⊕ List (List Nat)
  | ([], found) => .inr (found.mergeSort lexLe)
  | (⟨_, []⟩ :: stack, found) => .inl (stack, found)
  | (⟨0, stop :: behind⟩ :: stack, found) =>
    .inl (stack, if stop = origin then found ++ [stop :: behind] else found)
  | (⟨dot + 1, stop :: behind⟩ :: stack, found) =>
    match rhs[dot]? with
    | none => .inl (stack, found)
    | some X =>
      let nexts := (chart.starts origins tokens base rule origin dot stop X).map fun start =>
        ⟨dot, start :: stop :: behind⟩
      -- the one pushed last is taken first
      .inl (nexts.reverse ++ stack, found)

/-- The search for the splits of `rule` over the tokens from `origin` up to `stop` ends with
`splits`. -/
def SearchEnds (chart : Chart g n) (tokens : Array (Token T)) (base : Nat) (rule : RuleId)
    (rhs : List (Symbol T N)) (origin stop : Nat) (splits : List (List Nat)) : Prop :=
  Ends (chart.searchStep (lookupOrigins chart.originTable) tokens base rule rhs origin)
    ([⟨rhs.length, [stop]⟩], []) splits

end Chart

end EarleyForest
