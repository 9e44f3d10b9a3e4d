import EarleyForest.Forest.Enumeration
import EarleyForest.Loops

/-!
# Walks with a stack

The check of a cursor and the making of a tree without recursion over the forest. The check keeps a
stack of the nodes that are still to be visited, the next one first. The making of a tree keeps a
stack of frames: branches whose children are still being made, with those that are pending.
-/

namespace EarleyForest

variable {T N : Type} [DecidableEq N] [SearchKey N] {g : Grammar T N} {σ : Type}

namespace Forest

/-! ## The check of a cursor -/

/-- One round of the check: the next node is visited. When none is left, no choice may be left
either. -/
def replayRound (f : Forest g) (given : Nat) : List NodeId × Replay →
    (List NodeId × Replay) ⊕ Except (Stop N) (List Nat)
  | ([], replay) =>
    .inr (if replay.ahead.isEmpty then .ok replay.counts.toList
      else .error (.fails (.invalidDirections (.unusedChoices given replay.counts.size))))
  | (id :: stack, replay) =>
    match f.replayAt given replay id with
    | .error e => .inr (.error e)
    | .ok (children, replay) => .inl (children ++ stack, replay)

/-- The check of the cursor ends with `result`. -/
def Replays (f : Forest g) (root : NodeId) (d : Directions)
    (result : Except (Stop N) (List Nat)) : Prop :=
  Ends (f.replayRound d.choices.length) ([root], ⟨d.choices, #[]⟩) result

end Forest

/-! ## The making of a tree -/

/-- A branch whose children are still being made. -/
structure Frame (T N : Type) where
  symbol : N
  rule : RuleId
  start : Nat
  stop : Nat
  pending : List NodeId
  children : List (ParseTree T N)

namespace Frame

/-- The branch with the children made so far. -/
def toTree (frame : Frame T N) : ParseTree T N :=
  .branch frame.symbol frame.rule frame.start frame.stop frame.children

/-- The frame with the children `ts` made too and `pending` still to be made. -/
def add (frame : Frame T N) (ts : List (ParseTree T N)) (pending : List NodeId) : Frame T N :=
  { frame with pending := pending, children := frame.children ++ ts }

omit [DecidableEq N] [SearchKey N] in
@[simp] theorem pending_add (frame : Frame T N) (ts : List (ParseTree T N))
    (pending : List NodeId) : (frame.add ts pending).pending = pending := rfl

omit [DecidableEq N] [SearchKey N] in
@[simp] theorem add_add (frame : Frame T N) (ts ts' : List (ParseTree T N))
    (pending pending' : List NodeId) :
    (frame.add ts pending).add ts' pending' = frame.add (ts ++ ts') pending' := by
  simp only [Frame.add, List.append_assoc]

omit [DecidableEq N] [SearchKey N] in
theorem add_nil_pending (frame : Frame T N) : frame.add [] frame.pending = frame := by
  simp only [Frame.add, List.append_nil]

end Frame

/-- What is made of a node at once: a leaf, or the frame of a branch. -/
inductive Entered (T N : Type) where
  | leaf (t : ParseTree T N)
  | branch (frame : Frame T N)

namespace Forest

/-- Enters the node `id` with the alternative that `choose` gives. -/
def enter (f : Forest g) (choose : NodeId → Nat → σ → Except (ForestError N) (Nat × σ))
    (id : NodeId) (progress : Progress σ) :
    Except (ForestError N) (Entered T N × Progress σ) :=
  match f.node? id with
  | none => .error (.invalidDirections (.unknownNode id))
  | some (.terminal token) =>
    match f.tokens[token]? with
    | some t => .ok (.leaf (.leaf t), progress)
    | none => .error (.missingToken id token)
  | some (.nonterminal symbol start stop alternatives) => do
    if alternatives.isEmpty then throw (.noAlternatives (f.site id))
    let (k, state) ← choose id alternatives.length progress.state
    match alternatives[k]? with
    | none => throw (.invalidDirections (.missingAlternative id k))
    | some a =>
      return (.branch ⟨symbol, a.rule, start, stop, a.children, []⟩,
        ⟨state, progress.weight + g.cost a.rule⟩)

/-- The frame that is worked at, those of the branches around it, the next one first, and what is
carried along. -/
structure Making (T N σ : Type) where
  top : Frame T N
  around : List (Frame T N)
  progress : Progress σ

/-- One round of the making of a tree: the next pending child of the innermost frame is entered, or
its branch, which is complete, is handed to the frame around it. -/
def makeRound (f : Forest g) (choose : NodeId → Nat → σ → Except (ForestError N) (Nat × σ)) :
    Making T N σ → Making T N σ ⊕ Except (ForestError N) (ParseTree T N × Progress σ)
  | ⟨top, around, progress⟩ =>
    match top.pending with
    | child :: pending =>
      match f.enter choose child progress with
      | .error e => .inr (.error e)
      | .ok (.leaf t, progress) => .inl ⟨top.add [t] pending, around, progress⟩
      | .ok (.branch frame, progress) => .inl ⟨frame, top.add [] pending :: around, progress⟩
    | [] =>
      match around with
      | [] => .inr (.ok (top.toTree, progress))
      | next :: around => .inl ⟨next.add [top.toTree] next.pending, around, progress⟩

/-- The making of a tree from the node `id` ends with `result`. -/
def Makes (f : Forest g) (choose : NodeId → Nat → σ → Except (ForestError N) (Nat × σ))
    (id : NodeId) (progress : Progress σ)
    (result : Except (ForestError N) (ParseTree T N × Progress σ)) : Prop :=
  match f.enter choose id progress with
  | .error e => result = .error e
  | .ok (.leaf t, progress) => result = .ok (t, progress)
  | .ok (.branch frame, progress) => Ends (f.makeRound choose) ⟨frame, [], progress⟩ result

end Forest

end EarleyForest
