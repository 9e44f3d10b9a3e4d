import EarleyForest.Chart.Recognition

/-!
# Splits

A rule that was recognised over a range covers it with its symbols, one behind the other. A split is
the list of boundaries between them, the ends of the range included. Splits are found from the right
to the left: the chart says whether the part of the rule in front of a symbol was recognised too.
-/

namespace EarleyForest

variable {T N : Type} [DecidableEq N] [SearchKey N]

namespace Chart

variable {g : Grammar T N} {n : Nat}

/-- Where `X`, which follows the first `dot` symbols of a rule begun at `origin`, may begin when it
ends at `stop`. The first symbol begins where the rule does. -/
def boundaries [DecidableEq T] (chart : Chart g n) (origins : N → Nat → Std.ExtTreeSet Nat)
    (kinds : Array T) (rule : RuleId) (origin dot stop : Nat) (X : Symbol T N) : List Nat :=
  let fits := fun start =>
    (if dot = 0 then start = origin else origin ≤ start) && chart.contains start ⟨rule, dot, origin⟩
  match X with
  | .terminal kind =>
    if 0 < stop && kinds[stop - 1]? = some kind then [stop - 1].filter fits else []
  | .nonterminal A =>
    if dot = 0 then [origin].filter fun start => start ∈ origins A stop && fits start
    else (origins A stop).toList.filter fits

/-- The splits of the first `dot` symbols of `rhs` from `origin` to `stop`, each in front of
`behind`. -/
def splitsFrom [DecidableEq T] (chart : Chart g n) (origins : N → Nat → Std.ExtTreeSet Nat)
    (kinds : Array T) (rule : RuleId) (origin : Nat) (rhs : List (Symbol T N)) :
    Nat → Nat → List Nat → List (List Nat)
  | 0, stop, behind => if stop = origin then [stop :: behind] else []
  | dot + 1, stop, behind =>
    match rhs[dot]? with
    | none => []
    | some X =>
      (chart.boundaries origins kinds rule origin dot stop X).flatMap fun start =>
        chart.splitsFrom origins kinds rule origin rhs dot start (stop :: behind)

/-- The lexicographic order of boundary lists. -/
def lexLe : List Nat → List Nat → Bool
  | [], _ => true
  | _ :: _, [] => false
  | a :: as, b :: bs => a < b || (a = b && lexLe as bs)

/-- The splits of `rule` with the right-hand side `rhs` over the tokens from `start` up to `stop`,
in lexicographic order. Where nonterminals that end at a position begin is looked up in
`origins`. -/
def splits [DecidableEq T] (chart : Chart g n) (origins : N → Nat → Std.ExtTreeSet Nat)
    (kinds : Array T) (rule : RuleId) (rhs : List (Symbol T N)) (start stop : Nat) :
    List (List Nat) :=
  (chart.splitsFrom origins kinds rule start rhs rhs.length stop []).mergeSort lexLe

/-- What `Chart.origins` gives, worked out for all nonterminals at all positions. -/
def originTable (chart : Chart g n) : Array (Std.TreeMap N (Std.ExtTreeSet Nat)) :=
  chart.sets.map fun s => ItemSet.tableOrigins g s.items.toList

/-- Looks up a table of origins. -/
def lookupOrigins (table : Array (Std.TreeMap N (Std.ExtTreeSet Nat))) (A : N) (position : Nat) :
    Std.ExtTreeSet Nat :=
  match table[position]? with
  | some origins => origins.getD A {}
  | none => {}

theorem lookupOrigins_originTable (chart : Chart g n) (A : N) (position : Nat) :
    lookupOrigins chart.originTable A position = chart.origins A position := by
  unfold lookupOrigins originTable origins
  rw [Array.getElem?_map]
  cases chart.sets[position]? with
  | none => rfl
  | some s => exact s.getD_tableOrigins A

end Chart

end EarleyForest
