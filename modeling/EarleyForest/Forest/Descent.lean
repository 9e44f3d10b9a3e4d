import EarleyForest.Forest.Walks

/-!
# Going down in a forest

A derivation tree is made of a node by going down from it, with an alternative chosen at each
occurrence of a node that has some. The choices and the weight go on changing until an error stops
everything, and what they have become by then is kept. Said by recursion over what is visited this is
a relation (`Forest.Descends`), and done with a stack of frames it is a loop (`Forest.Materializes`).
-/

namespace EarleyForest

variable {T N : Type} [DecidableEq N] [SearchKey N] {g : Grammar T N} {σ : Type}

/-! ## Choosing -/

/-- Chooses an alternative, or refuses to, for a node that has so many of them. The state that is
handed from choice to choice is kept either way. -/
def Chooser (N σ : Type) := NodeId → Nat → σ → Except (ForestError N) Nat × σ

/-- An alternative of `node` is asked for, out of `count`. -/
structure Question where
  node : NodeId
  count : Nat
deriving DecidableEq, Repr

namespace Chooser

/-- Chooses in the same way and writes down what is asked. -/
def recording (choose : Chooser N σ) : Chooser N (σ × List Question) :=
  fun id count (state, asked) =>
    let (answer, state) := choose id count state
    (answer, (state, asked ++ [⟨id, count⟩]))

/-- Chooses in the same way and forgets the state with an error. -/
def forgetting (choose : Chooser N σ) (id : NodeId) (count : Nat) (state : σ) :
    Except (ForestError N) (Nat × σ) :=
  let (answer, state) := choose id count state
  answer.map (·, state)

end Chooser

namespace Progress

/-- The choices have led to another state. -/
def withState {τ : Type} (progress : Progress σ) (state : τ) : Progress τ :=
  ⟨state, progress.weight⟩

/-- The progress where questions are written down, those that have been asked. -/
def withAsked (progress : Progress σ) (asked : List Question) : Progress (σ × List Question) :=
  progress.withState (progress.state, asked)

end Progress

namespace Forest

/-- What is asked at the node `id`: nothing at tokens, and nothing where there is no alternative. -/
def question? (f : Forest g) (id : NodeId) : Option Question :=
  match f.node? id with
  | some (.nonterminal _ _ _ (a :: as)) => some ⟨id, (a :: as).length⟩
  | _ => none

/-! ## By recursion -/

/-- At the node `id` there is an error. The choice may have been made by then. -/
inductive Fails (f : Forest g) (choose : Chooser N σ) (id : NodeId) (progress : Progress σ) :
    ForestError N → Progress σ → Prop where
  | missingToken {token : Nat} (hn : f.node? id = some (.terminal token))
    (ht : f.tokens[token]? = none) : Fails f choose id progress (.missingToken id token) progress
  | noAlternatives {A : N} {i j : Nat} (hn : f.node? id = some (.nonterminal A i j [])) :
    Fails f choose id progress (.noAlternatives (f.site id)) progress
  | refused {A : N} {i j : Nat} {as : List Alternative} {e : ForestError N} {state : σ}
    (hn : f.node? id = some (.nonterminal A i j as)) (has : as ≠ [])
    (hk : choose id as.length progress.state = (.error e, state)) :
    Fails f choose id progress e (progress.withState state)
  | missingAlternative {A : N} {i j k : Nat} {as : List Alternative} {state : σ}
    (hn : f.node? id = some (.nonterminal A i j as)) (has : as ≠ [])
    (hk : choose id as.length progress.state = (.ok k, state)) (ha : as[k]? = none) :
    Fails f choose id progress (.invalidDirections (.missingAlternative id k))
      (progress.withState state)

mutual

/-- Going down from a node visits occurrences of nodes in this order, gives a tree or the first error
that is met, and leads from one progress to the other. -/
inductive Descends (f : Forest g) (choose : Chooser N σ) : NodeId → Progress σ → List NodeId →
    Except (ForestError N) (ParseTree T N) → Progress σ → Prop where
  | fail {id : NodeId} {e : ForestError N} {progress progress' : Progress σ}
    (h : f.Fails choose id progress e progress') :
    Descends f choose id progress [id] (.error e) progress'
  | leaf {id : NodeId} {token : Nat} {t : Token T} {progress : Progress σ}
    (hn : f.node? id = some (.terminal token)) (ht : f.tokens[token]? = some t) :
    Descends f choose id progress [id] (.ok (.leaf t)) progress
  | branch {id : NodeId} {A : N} {i j k : Nat} {as : List Alternative} {a : Alternative} {state : σ}
    {progress progress' : Progress σ} {visited : List NodeId}
    {result : Except (ForestError N) (List (ParseTree T N))}
    (hn : f.node? id = some (.nonterminal A i j as))
    (hk : choose id as.length progress.state = (.ok k, state)) (ha : as[k]? = some a)
    (hs : DescendsAll f choose a.children ⟨state, progress.weight + g.cost a.rule⟩ visited result
      progress') :
    Descends f choose id progress (id :: visited) (result.map (.branch A a.rule i j)) progress'

/-- Going down from several nodes, one after the other, as long as there is no error. -/
inductive DescendsAll (f : Forest g) (choose : Chooser N σ) : List NodeId → Progress σ →
    List NodeId → Except (ForestError N) (List (ParseTree T N)) → Progress σ → Prop where
  | nil {progress : Progress σ} : DescendsAll f choose [] progress [] (.ok []) progress
  | fail {id : NodeId} {ids visited : List NodeId} {e : ForestError N}
    {progress progress' : Progress σ} (h : Descends f choose id progress visited (.error e) progress') :
    DescendsAll f choose (id :: ids) progress visited (.error e) progress'
  | cons {id : NodeId} {ids visited visited' : List NodeId} {t : ParseTree T N}
    {result : Except (ForestError N) (List (ParseTree T N))} {progress mid progress' : Progress σ}
    (h : Descends f choose id progress visited (.ok t) mid)
    (hs : DescendsAll f choose ids mid visited' result progress') :
    DescendsAll f choose (id :: ids) progress (visited ++ visited') (result.map (t :: ·)) progress'

end

/-- The tree is one of the node `id`: the token, or a branch with the symbol and the range of the
node, the rule of one of its alternatives and as many children as this has. -/
inductive Shows (f : Forest g) (id : NodeId) : ParseTree T N → Prop where
  | leaf {token : Nat} {t : Token T} (hn : f.node? id = some (.terminal token))
    (ht : f.tokens[token]? = some t) : Shows f id (.leaf t)
  | branch {A : N} {i j k : Nat} {as : List Alternative} {a : Alternative}
    {ts : List (ParseTree T N)} (hn : f.node? id = some (.nonterminal A i j as))
    (ha : as[k]? = some a) (hlength : ts.length = a.children.length) :
    Shows f id (.branch A a.rule i j ts)

/-! ## With a stack -/

/-- Enters the node `id`. -/
def enterBy (f : Forest g) (choose : Chooser N σ) (id : NodeId) (progress : Progress σ) :
    Except (ForestError N) (Entered T N) × Progress σ :=
  match f.node? id with
  | none => (.error (.invalidDirections (.unknownNode id)), progress)
  | some (.terminal token) =>
    match f.tokens[token]? with
    | some t => (.ok (.leaf (.leaf t)), progress)
    | none => (.error (.missingToken id token), progress)
  | some (.nonterminal symbol start stop alternatives) =>
    if alternatives.isEmpty then (.error (.noAlternatives (f.site id)), progress)
    else
      match choose id alternatives.length progress.state with
      | (.error e, state) => (.error e, progress.withState state)
      | (.ok k, state) =>
        match alternatives[k]? with
        | none =>
          (.error (.invalidDirections (.missingAlternative id k)), progress.withState state)
        | some a =>
          (.ok (.branch ⟨symbol, a.rule, start, stop, a.children, []⟩),
            ⟨state, progress.weight + g.cost a.rule⟩)

/-- The nodes are entered one after the other, none of them with an error. -/
inductive EntersAll (f : Forest g) (choose : Chooser N σ) :
    List NodeId → Progress σ → Progress σ → Prop where
  | nil {progress : Progress σ} : EntersAll f choose [] progress progress
  | cons {id : NodeId} {ids : List NodeId} {entered : Entered T N} {progress mid progress' : Progress σ}
    (h : f.enterBy choose id progress = (.ok entered, mid))
    (hs : EntersAll f choose ids mid progress') : EntersAll f choose (id :: ids) progress progress'

/-- The nodes that are visited are entered one after the other. If there is an error, it is met at
the last of them, and all before have been entered without one. -/
def StopsAtFirst {α : Type} (f : Forest g) (choose : Chooser N σ) (visited : List NodeId)
    (progress : Progress σ) (result : Except (ForestError N) α) (progress' : Progress σ) : Prop :=
  match result with
  | .ok _ => f.EntersAll choose visited progress progress'
  | .error e => ∃ before last mid, visited = before ++ [last] ∧
      f.EntersAll choose before progress mid ∧ f.Fails choose last mid e progress'

/-- One round: the next pending child of the innermost frame is entered, or its branch, which is
complete, is handed to the frame around it. -/
def materializeRound (f : Forest g) (choose : Chooser N σ) : Making T N σ →
    Making T N σ ⊕ (Except (ForestError N) (ParseTree T N) × Progress σ)
  | ⟨top, around, progress⟩ =>
    match top.pending with
    | child :: pending =>
      match f.enterBy choose child progress with
      | (.error e, progress) => .inr (.error e, progress)
      | (.ok (.leaf t), progress) => .inl ⟨top.add [t] pending, around, progress⟩
      | (.ok (.branch frame), progress) => .inl ⟨frame, top.add [] pending :: around, progress⟩
    | [] =>
      match around with
      | [] => .inr (.ok top.toTree, progress)
      | next :: around => .inl ⟨next.add [top.toTree] next.pending, around, progress⟩

/-- The loop that makes a tree of the node `id` ends with `outcome`. -/
def Materializes (f : Forest g) (choose : Chooser N σ) (id : NodeId) (progress : Progress σ)
    (outcome : Except (ForestError N) (ParseTree T N) × Progress σ) : Prop :=
  match f.enterBy choose id progress with
  | (.error e, progress) => outcome = (.error e, progress)
  | (.ok (.leaf t), progress) => outcome = (.ok t, progress)
  | (.ok (.branch frame), progress) =>
    Ends (f.materializeRound choose) ⟨frame, [], progress⟩ outcome

end Forest

end EarleyForest
