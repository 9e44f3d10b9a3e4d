import EarleyForest.Saturating
import EarleyForest.Text.Name

/-!
# Symbols and rules

A rule expands a nonterminal into a sequence of symbols and has a cost, the price for using it.
Terminals are kinds of tokens. `T` is the type of terminals and `N` that of nonterminals.
-/

namespace EarleyForest

/-- The price of using a rule. Sums of prices stop at the largest 64-bit word. -/
abbrev Cost := Saturating 18446744073709551615

/-- The number by which a rule is known: its place in its grammar, counted from zero, in 32 bits.
Places that need more bits all count as the largest number. -/
abbrev RuleId := Saturating 4294967295

/-- The number as text, such as `r2`. -/
def RuleId.render (id : RuleId) : String := "r" ++ toString id.toNat

/-- A symbol of a right-hand side. -/
inductive Symbol (T N : Type) where
  | terminal (kind : T)
  | nonterminal (symbol : N)
deriving DecidableEq, Repr

/-- A rule `lhs → rhs`. -/
structure Rule (T N : Type) where
  lhs : N
  rhs : List (Symbol T N)
  cost : Cost
deriving DecidableEq

variable {T N : Type}

namespace Symbol

/-- Whether the symbol is a nonterminal for which `p` holds. -/
def isNonterminal (p : N → Bool) : Symbol T N → Bool
  | terminal _ => false
  | nonterminal A => p A

variable [Named T] [Named N]

/-- The symbol in a rule: kinds stand in quotes. -/
def render : Symbol T N → String
  | terminal kind => "'" ++ name kind ++ "'"
  | nonterminal A => name A

end Symbol

/-- The rule with its cost, such as `E -> E 'plus' E [1]`. -/
def Rule.render [Named T] [Named N] (r : Rule T N) : String :=
  let symbols := if r.rhs.isEmpty then ["ε"] else r.rhs.map Symbol.render
  " ".intercalate (name r.lhs :: "->" :: symbols) ++ " [" ++ toString r.cost.toNat ++ "]"

end EarleyForest
