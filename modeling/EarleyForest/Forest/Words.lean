import EarleyForest.Forest.Walks

/-!
# Handing in a cursor, with all sums in words

Node and alternative numbers are 64-bit words. Here the request for the next derivation is made by
the walks with a stack, and each sum with an alternative as a word, those for finding a choice that
can be raised and for raising it too. A sum that is no word stops the request.
-/

namespace EarleyForest

variable {T N : Type} [DecidableEq N] [SearchKey N] {g : Grammar T N}

namespace Forest

/-- The choices up to the last one that can be raised, with that one raised. They are gone through
from the last one on, each with its number of alternatives. -/
def raiseLast {N : Type} : List (Choice × Nat) → Except (Stop N) (Option (List Choice))
  | [] => .ok none
  | (choice, count) :: before =>
    match nextWord? choice.alternative with
    | none => .error .overflow
    | some raised =>
      if raised < count then
        .ok (some ((before.map Prod.fst).reverse ++ [{ choice with alternative := raised }]))
      else raiseLast before

/-- The request for the first derivation that begins with `choices` ends with `result`. -/
def FirstWords (f : Forest g) (root : NodeId) (choices : List Choice)
    (result : Except (Stop N) (NextParse T N)) : Prop :=
  ∃ made, f.Makes chooseAhead root ⟨⟨choices, #[]⟩, 0⟩ made ∧
    result = (made.map fun (tree, progress) =>
      ⟨⟨tree, progress.weight⟩, ⟨progress.state.recorded.toList⟩⟩).mapError .fails

/-- The request for the derivation behind the one of the cursor ends with `result`. -/
def ResumesWords (f : Forest g) (root : NodeId) (d : Directions)
    (result : Except (Stop N) (Option (NextParse T N))) : Prop :=
  ∃ checked, f.Replays root d checked ∧
    match checked with
    | .error e => result = .error e
    | .ok counts =>
      match raiseLast (d.choices.zip counts).reverse with
      | .error e => result = .error e
      | .ok none => result = .ok none
      | .ok (some choices) => ∃ first, f.FirstWords root choices first ∧ result = first.map some

end Forest

end EarleyForest
