import EarleyForest.Parser.Worklists

/-!
# A chart that is filled

The chart of a parse as one array, with a set of items for each position of the input. All sets are
there from the beginning, and the loops of the parser put their items into them: at the position
that is being closed, and at the next one when a token is read. A set that has been closed is never
put into again (`Chart.filling_exact`).
-/

namespace EarleyForest

variable {T N : Type}

/-- The items at `position`. -/
def itemsAt (sets : Array (Array Item)) (position : Nat) : Array Item := sets.getD position #[]

/-- Puts `i` behind the other items at `position`, unless it is there already. -/
def putAt (position : Nat) (sets : Array (Array Item)) (i : Item) : Array (Array Item) :=
  sets.modify position fun items => pushNew items i

/-- A chart, and where it is worked at. -/
structure Filling (N : Type) where
  sets : Array (Array Item)
  /-- The position that is being closed. -/
  position : Nat
  /-- The item there to be gone on with next. -/
  index : Nat
  /-- The walk that an item at the end of its rule has begun. -/
  completion? : Option (Completion N)

namespace Filling

/-- The items at position `p` have all been gone through. -/
def HasClosed (c : Filling N) (p : Nat) : Prop :=
  p < c.position ∨
    p = c.position ∧ c.completion? = none ∧ (itemsAt c.sets c.position)[c.index]? = none

variable [DecidableEq N] [SearchKey N]

/-- The chart for `n` tokens, with the rules of `start` at its first position. -/
def start (g : Grammar T N) (start : N) (n : Nat) : Filling N where
  sets := ((g.alternatives start).map (.start 0)).foldl (putAt 0) (Array.replicate (n + 1) #[])
  position := 0
  index := 0
  completion? := none

/-- One round. A walk begun goes on first, then the next item at the position. When there is none
left the next token is read, and the chart is filled at the end of the input or where no item waits
for the token. -/
def step [DecidableEq T] (g : Grammar T N) (w : List T) (c : Filling N) :
    Filling N ⊕ Array (Array Item) :=
  match c.completion? with
  | some walk =>
    match (itemsAt c.sets walk.position)[walk.index]? with
    | none => .inl { c with completion? := none }
    | some parent =>
      .inl { c with
        sets :=
          if parent.waitsFor g walk.symbol then putAt c.position c.sets parent.advance else c.sets
        completion? := some { walk with index := walk.index + 1 } }
  | none =>
    match (itemsAt c.sets c.position)[c.index]? with
    | some i =>
      match i.next? g with
      | some (.terminal _) => .inl { c with index := c.index + 1 }
      | some (.nonterminal A) =>
        let sets := ((g.alternatives A).map (.start c.position)).foldl (putAt c.position) c.sets
        .inl { c with
          sets := if g.isNullable A then putAt c.position sets i.advance else sets
          index := c.index + 1 }
      | none =>
        .inl { c with
          index := c.index + 1
          completion? := (i.lhs? g).map (⟨·, i.origin, 0⟩) }
    | none =>
      match w[c.position]? with
      | none => .inr c.sets
      | some kind =>
        let advanced :=
          ((itemsAt c.sets c.position).toList.filter (·.waitsForKind g kind)).map .advance
        let sets := advanced.foldl (putAt (c.position + 1)) c.sets
        if (itemsAt sets (c.position + 1)).size = 0 then .inr sets
        else .inl ⟨sets, c.position + 1, 0, none⟩

end Filling

end EarleyForest
