import EarleyForest.Proofs.Forest.WellFormed
import EarleyForest.Proofs.Grammar.Building
import Mathlib.Data.Finset.Card

/-!
# Acyclic forests

Going from a node of an exact forest to a child, the range gets shorter, or stays and then the
nonterminal leads to that of the child (`IsExact.child_cases`). Neither can go on for ever, since no
nonterminal of a grammar leads to itself; so exact forests are acyclic (`IsExact.acyclic`). Where
no cycle is reached from a node, going down from it comes to an end within as many levels as there
are nodes (`AcyclicFrom.endsWithin`).
-/

namespace EarleyForest

variable {T N : Type}

theorem Tiles.le {nodes : Array (Node N)} {tokens : Array (Token T)} {Xs : List (Symbol T N)}
    {ids : List NodeId} {bounds : List Nat} {i k : Nat}
    (h : Tiles nodes tokens Xs ids bounds i k) : i ≤ k := by
  induction h with
  | nil => exact Nat.le_refl _
  | terminal _ _ _ ih => omega
  | nonterminal _ hij _ ih => omega

/-- Some nodes stand for the symbols one for one, from `i` to `k`. -/
def IsTiled (nodes : Array (Node N)) (tokens : Array (Token T)) (Xs : List (Symbol T N))
    (i k : Nat) : Prop :=
  ∃ ids bounds, Tiles nodes tokens Xs ids bounds i k

theorem IsTiled.le {nodes : Array (Node N)} {tokens : Array (Token T)} {Xs : List (Symbol T N)}
    {i k : Nat} (h : IsTiled nodes tokens Xs i k) : i ≤ k := by
  obtain ⟨_, _, h⟩ := h
  exact h.le

/-- A child stands for a token or for one of the symbols; the others are laid out around it. -/
theorem Tiles.exists_of_mem {nodes : Array (Node N)} {tokens : Array (Token T)}
    {Xs : List (Symbol T N)} {ids : List NodeId} {bounds : List Nat} {i k : Nat} {child : NodeId}
    (h : Tiles nodes tokens Xs ids bounds i k) (hc : child ∈ ids) :
    (∃ token, nodes[child]? = some (.terminal token)) ∨
      ∃ B p q as, nodes[child]? = some (.nonterminal B p q as) ∧ p ≤ q ∧ ∃ Ys Zs,
        Xs = Ys ++ .nonterminal B :: Zs ∧ IsTiled nodes tokens Ys i p ∧
          IsTiled nodes tokens Zs q k := by
  induction h with
  | nil => cases hc
  | @terminal Xs id ids bounds t i k hn ht hs ih =>
    rcases List.mem_cons.1 hc with rfl | hc
    · exact .inl ⟨_, hn⟩
    · refine (ih hc).imp_right ?_
      intro hx
      obtain ⟨B, p, q, as, hn', hpq, Ys, Zs, rfl, ⟨_, _, hYs⟩, hZs⟩ := hx
      exact ⟨B, p, q, as, hn', hpq, _ :: Ys, Zs, rfl, ⟨_, _, .terminal hn ht hYs⟩, hZs⟩
  | @nonterminal A Xs id ids bounds as i j k hn hij hs ih =>
    rcases List.mem_cons.1 hc with rfl | hc
    · exact .inr ⟨A, i, j, as, hn, hij, [], Xs, rfl, ⟨_, _, .nil i⟩, _, _, hs⟩
    · refine (ih hc).imp_right ?_
      intro hx
      obtain ⟨B, p, q, as', hn', hpq, Ys, Zs, rfl, ⟨_, _, hYs⟩, hZs⟩ := hx
      exact ⟨B, p, q, as', hn', hpq, _ :: Ys, Zs, rfl, ⟨_, _, .nonterminal hn hij hYs⟩, hZs⟩

variable [DecidableEq N] [SearchKey N] {g : Grammar T N} {start : N} {f : Forest g} {w : List T}
  {base : Nat}

namespace Forest

/-- Where going down comes to an end, it never leads back. -/
theorem acyclic_of_wellFounded (h : WellFounded fun child id => child ∈ f.children id) :
    f.Acyclic := by
  intro id
  induction id using h.induction with
  | h id ih =>
    intro child hc hreach
    cases hreach with
    | refl => exact ih id hc id hc (.refl id)
    | step hc' hreach => exact ih child hc _ hc' (hreach.trans (.of_child hc))

namespace IsExact

variable (h : f.IsExact start w base)
include h

/-- Symbols laid over an empty range are all nullable. -/
theorem isNullable_of_isTiled {Xs : List (Symbol T N)} {i k : Nat}
    (ht : IsTiled f.arena.nodes f.tokens Xs i k) (hki : k ≤ i) :
    ∀ X ∈ Xs, X.isNonterminal g.isNullable = true := by
  obtain ⟨ids, bounds, ht⟩ := ht
  induction ht with
  | nil => simp
  | terminal _ _ hs =>
    have := hs.le
    omega
  | @nonterminal A Xs _ _ _ _ i j k hn hij hs ih =>
    have hjk := hs.le
    obtain rfl : i = j := by omega
    refine List.forall_mem_cons.2 ⟨?_, ih hki⟩
    obtain ⟨p, q, _, rfl, hq, hlive, -⟩ := h.node hn
    obtain rfl := Nat.add_left_cancel hq
    refine Grammar.isNullable_iff_yields.2 ?_
    rw [← segment_self w p]
    exact hlive.yields

/-- A child has a shorter range, or the same and then the nonterminal leads to its own. -/
theorem child_cases {id child : NodeId} (hc : child ∈ f.children id) :
    (∃ token, f.node? child = some (.terminal token)) ∨
      ∃ A i j as B p q bs, f.node? id = some (.nonterminal A i j as) ∧
        f.node? child = some (.nonterminal B p q bs) ∧
        (q - p < j - i ∨ q - p = j - i ∧ B ∈ leadsTo g.rules.toList g.isNullable A) := by
  obtain ⟨a, ha, hc⟩ := mem_children_iff.1 hc
  cases hn : f.node? id with
  | none => simp [alternatives, hn] at ha
  | some node =>
    rw [alternatives_eq hn] at ha
    cases node with
    | terminal => cases ha
    | nonterminal A i j as =>
      obtain ⟨r, hr, rfl, htiles⟩ := h.tiles hn ha
      refine (htiles.exists_of_mem hc).imp_right ?_
      intro hx
      obtain ⟨B, p, q, bs, hn', hpq, Ys, Zs, hrhs, hYs, hZs⟩ := hx
      refine ⟨r.lhs, i, j, as, B, p, q, bs, rfl, hn', ?_⟩
      have hip := hYs.le
      have hqj := hZs.le
      rcases Nat.lt_or_ge (q - p) (j - i) with hlt | hge
      · exact .inl hlt
      · refine .inr ⟨by omega, mem_leadsTo.2
          ⟨r, Grammar.mem_of_rule? hr, rfl, Ys, Zs, hrhs, ?_, ?_⟩⟩
        · exact h.isNullable_of_isTiled hYs (by omega)
        · exact h.isNullable_of_isTiled hZs (by omega)

/-- Going down from a node comes to an end. -/
theorem wellFounded_children : WellFounded fun child id => child ∈ f.children id := by
  have leaf {id : NodeId} {token : Nat} (hn : f.node? id = some (.terminal token)) :
      Acc (fun child id => child ∈ f.children id) id := by
    refine ⟨_, fun child hc => ?_⟩
    rw [children, alternatives_eq hn] at hc
    cases hc
  -- first on the length of the range, then on the nonterminal
  have inner (length : Nat) (A : N) : ∀ (id : NodeId) (i j : Nat) (as : List Alternative),
      f.node? id = some (.nonterminal A i j as) → j - i = length →
        Acc (fun child id => child ∈ f.children id) id := by
    induction length using Nat.strongRecOn generalizing A with
    | ind length ihlength =>
      induction A using g.wellFounded_leadsTo.induction with
      | h A ihA =>
        intro id i j as hn hlength
        refine ⟨_, fun child hc => ?_⟩
        rcases h.child_cases hc with ⟨token, ht⟩ | ⟨A', i', j', as', B, p, q, bs, hn', hB, hlt⟩
        · exact leaf ht
        · cases hn.symm.trans hn'
          rcases hlt with hlt | ⟨heq, hleads⟩
          · exact ihlength (q - p) (hlength ▸ hlt) B child p q bs hB rfl
          · exact ihA B hleads child p q bs hB (heq.trans hlength)
  refine ⟨fun id => ?_⟩
  cases hn : f.node? id with
  | none => exact ⟨_, fun child hc => by simp [children, alternatives, hn] at hc⟩
  | some node =>
    cases node with
    | terminal token => exact leaf hn
    | nonterminal A i j as => exact inner (j - i) A id i j as hn rfl

theorem acyclic : f.Acyclic := acyclic_of_wellFounded h.wellFounded_children

theorem child_lt {id child : NodeId} (hc : child ∈ f.children id) : child < f.size := by
  rcases h.child_cases hc with ⟨token, hn⟩ | ⟨_, _, _, _, _, _, _, _, -, hn, -⟩ <;>
    exact lt_size hn

end IsExact

/-! ## Levels -/

/-- Going down from the node comes to an end within the levels. -/
def EndsWithin (f : Forest g) : Nat → NodeId → Prop
  | 0, _ => False
  | depth + 1, id => ∀ child ∈ f.children id, f.EndsWithin depth child

theorem EndsWithin.mono {depth depth' : Nat} {id : NodeId} (h : f.EndsWithin depth id)
    (hle : depth ≤ depth') : f.EndsWithin depth' id := by
  induction depth generalizing depth' id with
  | zero => exact h.elim
  | succ depth ih =>
    obtain ⟨m, rfl⟩ := Nat.exists_eq_add_of_le' hle
    exact fun child hc => ih (h child hc) (Nat.le_add_left ..)

open Classical in
/-- The nodes below a node. -/
noncomputable def below (f : Forest g) (id : NodeId) : Finset Nat :=
  (Finset.range f.size).filter fun b => ∃ child ∈ f.children id, f.Reaches child b

theorem mem_below {id b : NodeId} :
    b ∈ f.below id ↔ b < f.size ∧ ∃ child ∈ f.children id, f.Reaches child b := by
  simp [below]

namespace AcyclicFrom

variable {id : NodeId} (h : f.AcyclicFrom id)
include h

theorem card_below_lt (hid : id < f.size) : (f.below id).card < f.size := by
  have hss : f.below id ⊂ Finset.range f.size := by
    refine Finset.ssubset_iff_of_subset (fun b hb => ?_) |>.2 ⟨id, Finset.mem_range.2 hid, ?_⟩
    · exact Finset.mem_range.2 (mem_below.1 hb).1
    · intro hmem
      obtain ⟨-, child, hc, hreach⟩ := mem_below.1 hmem
      exact h id (.refl id) child hc hreach
  simpa using Finset.card_lt_card hss

theorem card_below_child_lt {child : NodeId} (hc : child ∈ f.children id) (hlt : child < f.size) :
    (f.below child).card < (f.below id).card := by
  refine Finset.card_lt_card (Finset.ssubset_iff_of_subset ?_ |>.2 ⟨child, ?_, ?_⟩)
  · intro b hb
    obtain ⟨hb, child', hc', hreach⟩ := mem_below.1 hb
    exact mem_below.2 ⟨hb, child, hc, .step hc' hreach⟩
  · exact mem_below.2 ⟨hlt, child, hc, .refl child⟩
  · intro hmem
    obtain ⟨-, child', hc', hreach⟩ := mem_below.1 hmem
    exact h child (.of_child hc) child' hc' hreach

/-- Where no cycle is reached there are no more levels than nodes. -/
theorem endsWithin (hlt : ∀ id, ∀ child ∈ f.children id, child < f.size) (hid : id < f.size) :
    f.EndsWithin f.size id := by
  have hends (depth : Nat) {id : NodeId} (h : f.AcyclicFrom id)
      (hdepth : (f.below id).card < depth) : f.EndsWithin depth id := by
    induction depth generalizing id with
    | zero => exact absurd hdepth (Nat.not_lt_zero _)
    | succ depth ih =>
      intro child hc
      have hcard := h.card_below_child_lt hc (hlt id child hc)
      exact ih (h.of_child hc) (by omega)
  exact hends f.size h (h.card_below_lt hid)

end AcyclicFrom

end Forest

end EarleyForest
