import EarleyForest.Lexing.Token

/-!
# Rejected input

Why a run of the parser gives no forest. That the input is not a sentence is the ordinary case; its
report names the furthest position reached and what would have been accepted there.
-/

namespace EarleyForest

/-- The input is not a sentence. -/
structure Rejection (T : Type) where
  /-- The index of the furthest token reached. -/
  position : Nat
  /-- That token; none where the input ended too early. -/
  found? : Option (Token T)
  span : Span
  /-- The kinds that would have been accepted, in the order in which they were found. -/
  expected : List T
deriving DecidableEq

/-- Why a run of the parser gives no forest. -/
inductive ParseError (T N : Type) where
  | rejected (rejection : Rejection T)
  | unknownStart (symbol : N)
  /-- The items of the set at `position` made the chart larger than `limit`. -/
  | chartLimitExceeded (limit position : Nat)
deriving DecidableEq

variable {T N : Type} [Named T] [Named N]

/-- The rejection in words. -/
def Rejection.message (r : Rejection T) : String :=
  let found := match r.found? with
    | some token => token.render
    | none => "end of input"
  let expected :=
    if r.expected.isEmpty then ""
    else ", expected one of: " ++ ", ".intercalate (r.expected.map name)
  "unexpected " ++ found ++ " at " ++ r.span.render ++ expected

/-- The error in words. -/
def ParseError.message : ParseError T N → String
  | rejected r => r.message
  | unknownStart A => "start symbol `" ++ name A ++ "` has no rules"
  | chartLimitExceeded limit position =>
    "chart grew past " ++ toString limit ++ " items at token " ++ toString position

end EarleyForest
