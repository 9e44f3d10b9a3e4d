import EarleyForest.Proofs.Forest.Faultless

/-!
# Forests that agree

Two forests agree when their nodes are the same but for the place from which tokens are counted
(`Forest.Agrees`). Whatever is asked of them is worked out in the same steps: prices are equal
(`Agrees.price`), and a cursor leads to the same next cursor and weight in both or to none, or is
turned down by both for the same reason (`Agrees.nextParse`).
-/

namespace EarleyForest

variable {T N : Type} {base base' : Nat}

/-! ## Errors that agree -/

/-- The sites are of the same node, where tokens are counted from `base` and from `base'`, or of a
node that is missing. -/
inductive NodeSite.Agrees (base base' : Nat) : NodeSite N → NodeSite N → Prop where
  | met (node : NodeId) (symbol? : Option N) (i j : Nat) :
    Agrees base base' ⟨node, symbol?, base + i, base + j⟩ ⟨node, symbol?, base' + i, base' + j⟩
  | missing (node : NodeId) : Agrees base base' ⟨node, none, 0, 0⟩ ⟨node, none, 0, 0⟩

/-- The errors are the same, where tokens are counted from `base` and from `base'`. -/
inductive ForestError.Agrees (base base' : Nat) : ForestError N → ForestError N → Prop where
  | noRoot : Agrees base base' .noRoot .noRoot
  | noAlternatives {site site' : NodeSite N} (h : site.Agrees base base' site') :
    Agrees base base' (.noAlternatives site) (.noAlternatives site')
  | cycle {site site' : NodeSite N} (h : site.Agrees base base' site') :
    Agrees base base' (.cycle site) (.cycle site')
  | missingToken (node : NodeId) (k : Nat) :
    Agrees base base' (.missingToken node (base + k)) (.missingToken node (base' + k))
  | invalidDirections (fault : DirectionsFault) :
    Agrees base base' (.invalidDirections fault) (.invalidDirections fault)

/-- The requests stop alike, where tokens are counted from `base` and from `base'`. -/
inductive Stop.Agrees (base base' : Nat) : Stop N → Stop N → Prop where
  | overflow : Agrees base base' .overflow .overflow
  | fails {e e' : ForestError N} (h : e.Agrees base base' e') :
    Agrees base base' (.fails e) (.fails e')

theorem FailsBy.alike {α : Type} {x : Except (ForestError N) α}
    (h : FailsBy ForestError.IsForeign x) : Alike (ForestError.Agrees base base') Eq x x := by
  match x with
  | .ok a => exact .ok rfl
  | .error e =>
    obtain ⟨fault, rfl⟩ := h e rfl
    exact .error (.invalidDirections fault)

theorem agrees_outOfRange (id : NodeId) (count alternative : Nat) :
    (Stop.outOfRange id count alternative : Stop N).Agrees base base'
      (.outOfRange id count alternative) := by
  unfold Stop.outOfRange
  split
  · exact .fails (.invalidDirections _)
  · exact .overflow

variable [DecidableEq N] [SearchKey N] {g : Grammar T N}

/-- The derivations are named by the same cursor and weigh the same. -/
structure Forest.NextParse.Agrees (next next' : Forest.NextParse T N) : Prop where
  directions_eq : next.directions = next'.directions
  weight_eq : next.parse.weight = next'.parse.weight

omit [DecidableEq N] [SearchKey N] in
theorem alike_unfoldAll {ε ε' σ : Type} {E : ε → ε' → Prop}
    {unfold : NodeId → Progress σ → Except ε (ParseTree T N × Progress σ)}
    {unfold' : NodeId → Progress σ → Except ε' (ParseTree T N × Progress σ)} {ids : List NodeId}
    (progress : Progress σ) (h : ∀ id progress,
      Alike E (fun x x' => x.2 = x'.2) (unfold id progress) (unfold' id progress)) :
    Alike E (fun x x' => x.2 = x'.2) (unfoldAll unfold ids progress)
      (unfoldAll unfold' ids progress) := by
  induction ids generalizing progress with
  | nil => exact .ok rfl
  | cons id ids ih =>
    refine (h id progress).bind fun x x' heq => ?_
    simp only [heq]
    exact (ih x'.2).bind fun _ _ heq => .ok heq

namespace Forest

/-- The forests have the same nodes over tokens of the same kinds, which the first counts from
`base` and the second from `base'`. -/
structure Agrees (f f' : Forest g) (base base' : Nat) : Prop where
  size_eq : f.size = f'.size
  node : ∀ id, Option.Rel (Node.Matches base base' Eq) (f.node? id) (f'.node? id)
  root?_eq : f.root? = f'.root?
  chartItems_eq : f.chartItems = f'.chartItems
  kinds : ∀ k, f.tokens[base + k]?.map Token.kind = f'.tokens[base' + k]?.map Token.kind

namespace Agrees

variable {f f' : Forest g} (h : f.Agrees f' base base')
include h

/-- A node is missing in both forests, or stands for the same in both and has the same
alternatives. -/
theorem node_cases (id : NodeId) : f.node? id = none ∧ f'.node? id = none ∨
    (∃ k, f.node? id = some (.terminal (base + k)) ∧
      f'.node? id = some (.terminal (base' + k))) ∨
    ∃ A i j as, f.node? id = some (.nonterminal A (base + i) (base + j) as) ∧
      f'.node? id = some (.nonterminal A (base' + i) (base' + j) as) := by
  have hnode := h.node id
  generalize f.node? id = node?, f'.node? id = node?' at hnode
  cases hnode with
  | none => exact .inl ⟨rfl, rfl⟩
  | some hmatch =>
    cases hmatch with
    | terminal k => exact .inr (.inl ⟨k, rfl, rfl⟩)
    | nonterminal A i j has =>
      subst has
      exact .inr (.inr ⟨A, i, j, _, rfl, rfl⟩)

theorem alternatives_eq (id : NodeId) : f.alternatives id = f'.alternatives id := by
  rcases h.node_cases id with ⟨hn, hn'⟩ | ⟨k, hn, hn'⟩ | ⟨A, i, j, as, hn, hn'⟩ <;>
    simp only [alternatives, hn, hn', Node.alternatives]

theorem children_eq (id : NodeId) : f.children id = f'.children id := by
  rw [children, children, h.alternatives_eq]

theorem site (id : NodeId) : (f.site id).Agrees base base' (f'.site id) := by
  rcases h.node_cases id with ⟨hn, hn'⟩ | ⟨k, hn, hn'⟩ | ⟨A, i, j, as, hn, hn'⟩ <;>
    simp only [Forest.site, hn, hn']
  · exact .missing id
  · exact .met id none k (k + 1)
  · exact .met id (some A) i j

/-! ## Prices -/

theorem offer (table : Array (Option Price)) (a : Alternative) :
    Alike (ForestError.Agrees base base') Eq (f.offer table a) (f'.offer table a) := by
  refine Alike.foldlM rfl fun child _ offer _ heq => ?_
  subst heq
  dsimp only
  split
  · exact .ok rfl
  · exact .error (.cycle (h.site child))

theorem priceNode (table : Array (Option Price)) (id : NodeId) :
    Alike (ForestError.Agrees base base') Eq (f.priceNode table id) (f'.priceNode table id) := by
  have hoffers : Alike (ForestError.Agrees base base') Eq
      ((f.alternatives id).mapM (f.offer table)) ((f'.alternatives id).mapM (f'.offer table)) := by
    rw [h.alternatives_eq]
    exact Alike.mapM fun a _ => h.offer table a
  rcases h.node_cases id with ⟨hn, hn'⟩ | ⟨k, hn, hn'⟩ | ⟨A, i, j, as, hn, hn'⟩ <;>
    simp only [Forest.priceNode, hn, hn']
  case inr.inl => exact .ok rfl
  all_goals
    refine hoffers.bind fun offers _ heq => ?_
    subst heq
    cases offers with
    | nil => exact .error (.noAlternatives (h.site id))
    | cons => exact .ok rfl

theorem priceFrom {depth : Nat} {path : Std.TreeSet NodeId} (table : Array (Option Price))
    (id : NodeId) : Alike (ForestError.Agrees base base') Eq
      (f.priceFrom depth path table id) (f'.priceFrom depth path table id) := by
  induction depth generalizing path table id with
  | zero => exact .error (.cycle (h.site id))
  | succ depth ih =>
    unfold Forest.priceFrom
    rw [h.children_eq]
    split
    · exact .ok rfl
    · dsimp only
      split
      · exact .error (.cycle (h.site _))
      · refine Alike.bind (Alike.foldlM rfl fun child _ table _ heq => ?_) fun table _ heq => ?_
        · exact heq ▸ ih table child
        · subst heq
          exact (h.priceNode table id).bind fun price _ heq => .ok (heq ▸ rfl)

/-- Both forests have the same prices, or both have none for the same reason. -/
theorem price : Alike (ForestError.Agrees base base') Eq f.price f'.price := by
  unfold Forest.price
  rw [h.size_eq]
  refine Alike.bind (Alike.foldlM rfl fun id _ table _ heq => heq ▸ h.priceFrom table id)
    fun table _ heq => ?_
  subst heq
  refine Alike.bind (Alike.mapM fun (price?, id) _ => ?_) fun prices _ heq => .ok (heq ▸ rfl)
  cases price? with
  | none => exact .error (.cycle (h.site id))
  | some price => exact .ok rfl

/-! ## Cursors -/

theorem replayAt (given : Nat) (replay : Replay) (id : NodeId) :
    Alike (Stop.Agrees base base') Eq (f.replayAt given replay id) (f'.replayAt given replay id) := by
  rcases h.node_cases id with ⟨hn, hn'⟩ | ⟨k, hn, hn'⟩ | ⟨A, i, j, as, hn, hn'⟩ <;>
    simp only [Forest.replayAt, hn, hn']
  · exact .error (.fails (.invalidDirections _))
  · exact .ok rfl
  · obtain _ | ⟨a, _ | ⟨a', as⟩⟩ := as
    · exact .error (.fails (.noAlternatives (h.site id)))
    · exact .ok rfl
    · dsimp only
      split
      · exact .error (.fails (.invalidDirections _))
      · split
        · exact .error (.fails (.invalidDirections _))
        · split
          · exact .error (agrees_outOfRange ..)
          · exact .ok rfl

theorem replayFrom {given depth : Nat} (replay : Replay) (id : NodeId) :
    Alike (Stop.Agrees base base') Eq
      (f.replayFrom given depth replay id) (f'.replayFrom given depth replay id) := by
  induction depth generalizing replay id with
  | zero => exact .error (.fails (.cycle (h.site id)))
  | succ depth ih =>
    refine (h.replayAt given replay id).bind fun (children, replay) _ heq => ?_
    subst heq
    exact Alike.foldlM rfl fun child _ replay _ heq => heq ▸ ih replay child

theorem successor (root : NodeId) (d : Directions) : Alike (Stop.Agrees base base') Eq
    (f.successor root d) (f'.successor root d) := by
  have hreplay : Alike (Stop.Agrees base base') Eq (f.replay root d) (f'.replay root d) := by
    unfold Forest.replay depthBound
    rw [h.size_eq]
    refine (h.replayFrom _ root).bind fun replay _ heq => ?_
    subst heq
    split
    · exact .ok rfl
    · exact .error (.fails (.invalidDirections _))
  exact hreplay.bind fun counts _ heq => .ok (heq ▸ rfl)

/-- Unfolding by the same choices meets the same nodes, and adds up the same costs. -/
theorem unfold {σ : Type} {choose : NodeId → Nat → σ → Except (ForestError N) (Nat × σ)}
    (hchoose : ∀ id count state, FailsBy ForestError.IsForeign (choose id count state)) {depth : Nat} (id : NodeId)
    (progress : Progress σ) : Alike (ForestError.Agrees base base') (fun x x' => x.2 = x'.2)
      (f.unfold choose depth id progress) (f'.unfold choose depth id progress) := by
  induction depth generalizing id progress with
  | zero => exact .error (.cycle (h.site id))
  | succ depth ih =>
    rcases h.node_cases id with ⟨hn, hn'⟩ | ⟨k, hn, hn'⟩ | ⟨A, i, j, as, hn, hn'⟩
    · simp only [Forest.unfold, hn, hn']
      exact .error (.invalidDirections _)
    · have hkind := h.kinds k
      simp only [Forest.unfold, hn, hn']
      cases ht : f.tokens[base + k]? <;> cases ht' : f'.tokens[base' + k]? <;>
        simp only [ht, ht', Option.map_none, Option.map_some, reduceCtorEq] at hkind
      · exact .error (.missingToken id k)
      · exact .ok rfl
    · by_cases has : as = []
      · subst has
        simp only [Forest.unfold, hn, hn']
        exact .error (.noAlternatives (h.site id))
      · rw [unfold_nonterminal hn has, unfold_nonterminal hn' has]
        refine (hchoose id as.length progress.state).alike.bind fun x _ heq => ?_
        subst heq
        obtain ⟨k, state⟩ := x
        dsimp only
        split
        · exact .error (.invalidDirections _)
        · refine (alike_unfoldAll _ fun child progress => ih child progress).bind ?_
          exact fun _ _ heq => .ok heq

theorem firstFrom (root : NodeId) (choices : List Choice) :
    Alike (ForestError.Agrees base base') NextParse.Agrees
      (f.firstFrom root choices) (f'.firstFrom root choices) := by
  unfold Forest.firstFrom depthBound
  rw [h.size_eq]
  refine (h.unfold failsBy_chooseAhead root _).bind fun x x' heq => .ok ?_
  have hrecorded := congrArg (fun progress => Directions.mk progress.state.recorded.toList) heq
  exact ⟨hrecorded, congrArg Progress.weight heq⟩

/-- A cursor leads to the same next cursor in both forests, or to none in both, or both turn it down
for the same reason, or it stops both requests. -/
theorem nextParse (cursor? : Option Directions) :
    Alike (Stop.Agrees base base') (Option.Rel NextParse.Agrees)
      (f.nextParse cursor?) (f'.nextParse cursor?) := by
  have hfirst (root : NodeId) (choices : List Choice) :
      Alike (Stop.Agrees base base') (Option.Rel NextParse.Agrees)
        (((f.firstFrom root choices).map some).mapError .fails)
        (((f'.firstFrom root choices).map some).mapError .fails) :=
    ((h.firstFrom root choices).map fun _ _ => .some).mapError fun _ _ => .fails
  unfold Forest.nextParse
  rw [h.root?_eq]
  split
  · exact .ok .none
  · rename_i root _
    split
    · exact hfirst root []
    · refine (h.successor root _).bind fun choices? _ heq => ?_
      subst heq
      split
      · exact .ok .none
      · exact hfirst root _

end Agrees

end Forest

end EarleyForest
