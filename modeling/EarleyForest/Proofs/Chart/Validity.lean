import EarleyForest.Proofs.Chart.Closure
import EarleyForest.Proofs.Grammar.Nullable

/-!
# What an item stands for

`i.IsValid g start w p`: in a derivation from `start` that has read the first `p` kinds of `w`, the
rule of the item `i` can be at work, begun at its origin and recognised up to its dot. Items start
valid, advance over what was read (`IsValid.advance`) and lead to valid items behind their dot
(`IsValid.predict`); so what a closed set holds is valid if the sets before it are
(`hereditary_isValid`).
-/

namespace EarleyForest

variable {T N : Type}

/-! ## Segments of the input -/

/-- The part of `w` from position `i` up to `j`. -/
def segment (w : List T) (i j : Nat) : List T := (w.take j).drop i

section Segment

variable {w : List T} {i j k : Nat}

theorem segment_self (w : List T) (i : Nat) : segment w i i = [] := by
  simp [segment]

theorem segment_zero (w : List T) (i : Nat) : segment w 0 i = w.take i := rfl

theorem length_segment (hj : j ≤ w.length) : (segment w i j).length = j - i := by
  simp [segment, Nat.min_eq_left hj]

theorem take_append_segment (hij : i ≤ j) : w.take i ++ segment w i j = w.take j := by
  rw [segment, ← Nat.min_eq_left hij, ← List.take_take, Nat.min_eq_left hij]
  exact List.take_append_drop i _

theorem segment_append (hij : i ≤ j) (hjk : j ≤ k) :
    segment w i j ++ segment w j k = segment w i k := by
  have h : w.take i ++ (segment w i j ++ segment w j k) = w.take i ++ segment w i k := by
    rw [← List.append_assoc, take_append_segment hij, take_append_segment hjk,
      take_append_segment (Nat.le_trans hij hjk)]
  exact List.append_cancel_left h

theorem segment_succ {kind : T} (h : w[i]? = some kind) : segment w i (i + 1) = [kind] := by
  obtain ⟨hi, rfl⟩ := List.getElem?_eq_some_iff.1 h
  have : w.take i ++ segment w i (i + 1) = w.take i ++ [w[i]] := by
    rw [take_append_segment (Nat.le_succ i), List.take_succ_eq_append_getElem hi]
  exact List.append_cancel_left this

/-- A segment is cut in two at a position. -/
theorem exists_of_segment_eq_append {u v : List T} (hij : i ≤ j) (hj : j ≤ w.length)
    (h : segment w i j = u ++ v) :
    ∃ m, i ≤ m ∧ m ≤ j ∧ segment w i m = u ∧ segment w m j = v := by
  have hlen := congrArg List.length h
  rw [length_segment hj, List.length_append] at hlen
  have happ := segment_append (w := w) (Nat.le_add_right i u.length)
    (show i + u.length ≤ j by omega)
  have hu : (segment w i (i + u.length)).length = u.length := by
    rw [length_segment (by omega)]
    omega
  obtain ⟨h₁, h₂⟩ := List.append_inj (happ.trans h) hu
  exact ⟨i + u.length, by omega, by omega, h₁, h₂⟩

theorem of_segment_eq_cons {kind : T} {u : List T} (hij : i ≤ j) (hj : j ≤ w.length)
    (h : segment w i j = kind :: u) : i < j ∧ w[i]? = some kind ∧ segment w (i + 1) j = u := by
  obtain ⟨m, him, hmj, h₁, h₂⟩ := exists_of_segment_eq_append (u := [kind]) hij hj h
  have hlen := congrArg List.length h₁
  rw [length_segment (Nat.le_trans hmj hj), List.length_singleton] at hlen
  obtain rfl : m = i + 1 := by omega
  have hi : i < w.length := by omega
  rw [segment_succ (List.getElem?_eq_getElem hi)] at h₁
  exact ⟨hmj, by rw [List.getElem?_eq_getElem hi, List.singleton_inj.1 h₁], h₂⟩

end Segment

/-! ## Valid items -/

theorem LeftContext.trans {rules : List (Rule T N)} {X : Symbol T N} {Xs : List (Symbol T N)}
    {r : Rule T N} {v w : List T} (h : LeftContext rules (.nonterminal r.lhs) Xs v)
    (hr : r ∈ rules) (hX : LeftContext rules X r.rhs w) : LeftContext rules X Xs (v ++ w) := by
  induction h with
  | here h => exact .under h hr hX
  | under h hr' _ ih =>
    rw [List.append_assoc]
    exact .under h hr' ih

variable [DecidableEq N] [SearchKey N] {g : Grammar T N} {n : Nat} {start : N} {w : List T}
  {p q : Nat} {i j : Item} {A : N}

theorem Grammar.mem_of_rule? {id : RuleId} {r : Rule T N} (h : g.rule? id = some r) :
    r ∈ g.rules.toList :=
  Array.mem_toList_iff.2 (Array.mem_of_getElem? h)

namespace Item

/-- The first `dot` symbols of the rule derive what was read from the origin up to `p`, and what was
read before leads from `start` to its left-hand side. -/
def IsValid (g : Grammar T N) (start : N) (w : List T) (p : Nat) (i : Item) : Prop :=
  ∃ r, g.rule? i.rule = some r ∧ i.dot ≤ r.rhs.length ∧ i.origin ≤ p ∧ p ≤ w.length ∧
    Yields g.rules.toList (r.rhs.take i.dot) (segment w i.origin p) ∧
    LeftContext g.rules.toList (.nonterminal r.lhs) [.nonterminal start] (w.take i.origin)

theorem IsValid.advance {X : Symbol T N} (h : i.IsValid g start w p) (hX : i.next? g = some X)
    (hpq : p ≤ q) (hq : q ≤ w.length) (hy : Yields g.rules.toList [X] (segment w p q)) :
    i.advance.IsValid g start w q := by
  obtain ⟨r, hr, -, ho, -, hy₀, hc⟩ := h
  obtain ⟨r', hr', hX⟩ := next?_eq_some_iff.1 hX
  cases hr.symm.trans hr'
  obtain ⟨hdot, rfl⟩ := List.getElem?_eq_some_iff.1 hX
  refine ⟨r, hr, hdot, Nat.le_trans ho hpq, hq, ?_, hc⟩
  rw [Item.advance, List.take_succ_eq_append_getElem hdot, ← segment_append ho hpq]
  exact hy₀.append hy

/-- What an item waits for can follow what was read. -/
theorem IsValid.leftContext {X : Symbol T N} (h : i.IsValid g start w p)
    (hX : i.next? g = some X) :
    LeftContext g.rules.toList X [.nonterminal start] (w.take p) := by
  obtain ⟨r, hr, -, ho, -, hy, hc⟩ := h
  obtain ⟨r', hr', hX⟩ := next?_eq_some_iff.1 hX
  cases hr.symm.trans hr'
  obtain ⟨hdot, rfl⟩ := List.getElem?_eq_some_iff.1 hX
  have hin : LeftContext g.rules.toList r.rhs[i.dot]
      (r.rhs.take i.dot ++ r.rhs[i.dot] :: r.rhs.drop (i.dot + 1)) (segment w i.origin p) :=
    .here hy
  rw [← List.drop_eq_getElem_cons hdot, List.take_append_drop] at hin
  rw [← take_append_segment ho]
  exact hc.trans (Grammar.mem_of_rule? hr) hin

theorem IsValid.yields (h : i.IsValid g start w p) (hc : i.completes g A = true) :
    i.origin ≤ p ∧ p ≤ w.length ∧
      Yields g.rules.toList [.nonterminal A] (segment w i.origin p) := by
  obtain ⟨r, hr, -, ho, hp, hy, -⟩ := h
  obtain ⟨r', hr', rfl, hdot⟩ := completes_iff.1 hc
  cases hr.symm.trans hr'
  rw [hdot, List.take_length] at hy
  exact ⟨ho, hp, .of_rule (Grammar.mem_of_rule? hr) hy⟩

variable (hg : g.rules.size ≤ 4294967296)
include hg

theorem isValid_start {rule : RuleId} (hr : rule ∈ g.alternatives A) (hp : p ≤ w.length)
    (hc : LeftContext g.rules.toList (.nonterminal A) [.nonterminal start] (w.take p)) :
    (Item.start p rule).IsValid g start w p := by
  obtain ⟨r, hrule, rfl⟩ := (Grammar.mem_alternatives_iff_rule? hg).1 hr
  refine ⟨r, hrule, Nat.zero_le _, Nat.le_refl p, hp, ?_, hc⟩
  rw [Item.start, segment_self, List.take_zero]
  exact .nil

theorem IsValid.predict {rule : RuleId} (h : i.IsValid g start w p)
    (hA : i.next? g = some (.nonterminal A)) (hr : rule ∈ g.alternatives A) :
    (Item.start p rule).IsValid g start w p := by
  obtain ⟨-, -, -, -, hp, -⟩ := id h
  exact isValid_start hg hr hp (h.leftContext hA)

/-- Valid items call for valid ones, if those at earlier positions are valid. -/
theorem hereditary_isValid {earlier : Array (ItemSet g n)}
    (hearlier : ∀ (q : Nat) (source : ItemSet g n), earlier[q]? = some source →
      ∀ j : Item, j ∈ source → j.IsValid g start w q) :
    ItemSet.Hereditary earlier (IsValid g start w earlier.size) where
  predict i A rule hi hA hr := hi.predict hg hA hr
  skip i A hi hA hn := by
    obtain ⟨-, -, -, -, hp, -⟩ := id hi
    refine hi.advance hA (Nat.le_refl _) hp ?_
    rw [segment_self]
    exact Grammar.isNullable_iff_yields.1 hn
  complete i A source j hi hc hsource hj hA := by
    obtain ⟨ho, hp, hy⟩ := hi.yields hc
    exact (hearlier _ source hsource j hj).advance hA ho hp hy
  completeOwn i A j hi hc hnone hj hA := by
    obtain ⟨ho, hp, hy⟩ := hi.yields hc
    have horigin : i.origin = earlier.size :=
      Nat.le_antisymm ho (Array.getElem?_eq_none_iff.1 hnone)
    exact hj.advance hA (Nat.le_refl _) hp (horigin ▸ hy)

end Item

end EarleyForest
