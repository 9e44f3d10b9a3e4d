import EarleyForest.Forest.Unfold

/-!
# Enumeration

Derivations are ordered by the alternatives taken at ambiguous nodes, compared in preorder. A cursor
names one derivation; it is checked against the forest, and then gives the next one. After the last
derivation there is none, which is no error. A cursor that comes from elsewhere may hold any numbers,
and the report of one that is out of range may stop the request.
-/

namespace EarleyForest

variable {T N : Type} [DecidableEq N] [SearchKey N]

namespace Forest

variable {g : Grammar T N}

/-! ## Checking a cursor -/

/-- The choices of a cursor that are still ahead, and how many alternatives there were for those
that were met. -/
structure Replay where
  ahead : List Choice
  counts : Array Nat

/-- What is to be visited below the node `id`, and what of the cursor is left then. The cursor has
`given` choices. -/
def replayAt (f : Forest g) (given : Nat) (replay : Replay) (id : NodeId) :
    Except (Stop N) (List NodeId × Replay) :=
  match f.node? id with
  | none => .error (.fails (.invalidDirections (.unknownNode id)))
  | some (.terminal _) => .ok ([], replay)
  | some (.nonterminal _ _ _ []) => .error (.fails (.noAlternatives (f.site id)))
  | some (.nonterminal _ _ _ [a]) => .ok (a.children, replay)
  | some (.nonterminal _ _ _ alternatives) =>
    match replay.ahead with
    | [] => .error (.fails (.invalidDirections (.endsEarly given id)))
    | choice :: ahead =>
      if choice.node ≠ id then
        .error (.fails (.invalidDirections (.wrongNode replay.counts.size choice.node id)))
      else
        match alternatives[choice.alternative]? with
        | none => .error (.outOfRange id alternatives.length choice.alternative)
        | some a => .ok (a.children, ⟨ahead, replay.counts.push alternatives.length⟩)

/-- Follows the choices of a cursor of `given` choices through the node `id` and all below it,
`depth` levels at most. -/
def replayFrom (f : Forest g) (given : Nat) : Nat → Replay → NodeId → Except (Stop N) Replay
  | 0, _, id => .error (.fails (.cycle (f.site id)))
  | depth + 1, replay, id => do
    let (children, replay) ← f.replayAt given replay id
    children.foldlM (f.replayFrom given depth) replay

/-- A derivation that follows `count` choices meets each node at most once between two of them, so
it has at most this many levels. -/
def depthBound (f : Forest g) (count : Nat) : Nat := (count + 1) * f.size + 1

/-- The numbers of alternatives at the ambiguous nodes on the derivation that the cursor describes,
in preorder. -/
def replay (f : Forest g) (root : NodeId) (d : Directions) : Except (Stop N) (List Nat) := do
  let given := d.choices.length
  let replay ← f.replayFrom given (f.depthBound given) ⟨d.choices, #[]⟩ root
  if replay.ahead.isEmpty then return replay.counts.toList
  else throw (.fails (.invalidDirections (.unusedChoices given replay.counts.size)))

/-- The choices up to the last one that can be raised, with that one raised. Behind a check that
goes through each choice is below the number with it, so no sum is above that. -/
def bumpLast : List (Choice × Nat) → Option (List Choice)
  | [] => none
  | (choice, count) :: rest =>
    match bumpLast rest with
    | some choices => some (choice :: choices)
    | none =>
      if choice.alternative + 1 < count then
        some [{ choice with alternative := choice.alternative + 1 }]
      else none

/-- The choices with which all derivations behind the one of the cursor begin that come first, or
none if it is the last one. -/
def successor (f : Forest g) (root : NodeId) (d : Directions) :
    Except (Stop N) (Option (List Choice)) := do
  let counts ← f.replay root d
  return bumpLast (d.choices.zip counts)

/-! ## The next derivation -/

/-- Choices to be followed, and all choices recorded so far. -/
structure Trail where
  ahead : List Choice
  recorded : Array Choice

/-- Takes the next choice ahead at an ambiguous node, or the first alternative when none is left,
and records it. Other nodes leave no choice. -/
def chooseAhead (id : NodeId) (count : Nat) (trail : Trail) :
    Except (ForestError N) (Nat × Trail) :=
  if count < 2 then .ok (0, trail)
  else
    match trail.ahead with
    | [] => .ok (0, ⟨[], trail.recorded.push ⟨id, 0⟩⟩)
    | choice :: ahead =>
      if choice.node = id then .ok (choice.alternative, ⟨ahead, trail.recorded.push choice⟩)
      else .error (.invalidDirections (.misplacedChoice id choice.node))

/-- A derivation and the cursor that names it. -/
structure NextParse (T N : Type) where
  parse : Parse T N
  directions : Directions

/-- The first derivation that begins with `choices`. -/
def firstFrom (f : Forest g) (root : NodeId) (choices : List Choice) :
    Except (ForestError N) (NextParse T N) := do
  let (tree, progress) ←
    f.unfold chooseAhead (f.depthBound choices.length) root ⟨⟨choices, #[]⟩, 0⟩
  return ⟨⟨tree, progress.weight⟩, ⟨progress.state.recorded.toList⟩⟩

/-- The derivation behind the one of the cursor, or the first one without a cursor. -/
def nextParse (f : Forest g) (cursor? : Option Directions) :
    Except (Stop N) (Option (NextParse T N)) :=
  match f.root? with
  | none => .ok none
  | some root =>
    match cursor? with
    | none => ((f.firstFrom root []).map some).mapError .fails
    | some d => do
      match ← f.successor root d with
      | none => return none
      | some choices => ((f.firstFrom root choices).map some).mapError .fails

end Forest

/-! ## Iteration -/

/-- An iteration over the derivations of a forest: the cursor of the last one that was given, and
whether the iteration has ended. -/
structure Parses {g : Grammar T N} (f : Forest g) where
  cursor? : Option Directions
  ended : Bool

namespace Parses

variable {g : Grammar T N} {f : Forest g}

/-- The iteration from the first derivation on. -/
def start (f : Forest g) : Parses f := ⟨none, false⟩

/-- The iteration behind the derivation of the cursor. -/
def resume (f : Forest g) (d : Directions) : Parses f := ⟨some d, false⟩

/-- The next derivation, if there is one. The iteration ends for good after the last one and after
an error. Where a sum stops the request, that is the end of it too. -/
def next (it : Parses f) : Option (Except (Stop N) (Parse T N)) × Parses f :=
  if it.ended then (none, it)
  else
    match f.nextParse it.cursor? with
    | .ok (some next) => (some (.ok next.parse), ⟨some next.directions, false⟩)
    | .ok none => (none, { it with ended := true })
    | .error e => (some (.error e), { it with ended := true })

/-- The next `count` derivations, or those that are left, and what follows. -/
def take : Nat → Parses f → List (Except (Stop N) (Parse T N)) × Parses f
  | 0, it => ([], it)
  | count + 1, it =>
    match it.next with
    | (none, it) => ([], it)
    | (some item, it) =>
      let (items, it) := take count it
      (item :: items, it)

end Parses

end EarleyForest
