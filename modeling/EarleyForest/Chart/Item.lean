import EarleyForest.Grammar.Basic
import Std.Data.TreeSet

/-!
# Items

An item is a rule that has been recognised up to a dot, together with the position at which its
recognition began. The items of a grammar over an input are finitely many: `Item.all` lists them.
-/

namespace EarleyForest

variable {T N : Type} [DecidableEq N] [SearchKey N]

/-- Rule number `rule`, recognised from `origin` on as far as the first `dot` symbols. -/
structure Item where
  rule : RuleId
  dot : Nat
  origin : Nat
deriving DecidableEq, Inhabited

namespace Item

/-- The order by rule, then dot, then origin. -/
def compare (i j : Item) : Ordering :=
  (Ord.compare i.rule.toNat j.rule.toNat).then
    ((Ord.compare i.dot j.dot).then (Ord.compare i.origin j.origin))

instance : Std.TransCmp compare :=
  inferInstanceAs (Std.TransCmp
    (compareLex (compareOn (·.rule.toNat))
      (compareLex (compareOn Item.dot) (compareOn Item.origin))))

instance : Std.LawfulEqCmp compare where
  eq_of_compare {i j} h := by
    cases i; cases j
    simp [compare, Ordering.then_eq_eq, ← Saturating.ext_iff] at h
    simp [h]

/-- The item at the start of a rule. -/
def start (origin : Nat) (rule : RuleId) : Item := ⟨rule, 0, origin⟩

/-- The item with its dot behind the next symbol. -/
def advance (i : Item) : Item := { i with dot := i.dot + 1 }

/-- The symbol behind the dot; none when the rule is recognised to its end. -/
def next? (g : Grammar T N) (i : Item) : Option (Symbol T N) :=
  (g.rule? i.rule).bind fun r => r.rhs[i.dot]?

/-- The nonterminal that the rule expands. -/
def lhs? (g : Grammar T N) (i : Item) : Option N := (g.rule? i.rule).map Rule.lhs

/-- Whether the dot stands before the nonterminal `A`. -/
def waitsFor (g : Grammar T N) (A : N) (i : Item) : Bool :=
  match i.next? g with
  | some (.nonterminal B) => B = A
  | _ => false

/-- Whether the dot stands before a nonterminal. -/
def isWaiting (g : Grammar T N) (i : Item) : Bool :=
  match i.next? g with
  | some (.nonterminal _) => true
  | _ => false

theorem isWaiting_of_waitsFor {g : Grammar T N} {A : N} {i : Item} (h : i.waitsFor g A = true) :
    i.isWaiting g = true := by
  unfold waitsFor at h
  unfold isWaiting
  split at h
  · simp [*]
  · simp at h

/-- Whether the dot stands before the terminal `kind`. -/
def waitsForKind [DecidableEq T] (g : Grammar T N) (kind : T) (i : Item) : Bool :=
  match i.next? g with
  | some (.terminal k) => k = kind
  | _ => false

/-- The nonterminal that the item has recognised; none before the end of the rule. -/
def completed? (g : Grammar T N) (i : Item) : Option N :=
  (g.rule? i.rule).bind fun r => if i.dot = r.rhs.length then some r.lhs else none

/-- Whether the item is `A` recognised to the end of a rule. -/
def completes (g : Grammar T N) (A : N) (i : Item) : Bool := i.completed? g = some A

/-- Whether the item is one of `g` over an input of `n` tokens: its dot lies in the rule and its
origin in the input. -/
def isProper (g : Grammar T N) (n : Nat) (i : Item) : Bool :=
  (g.rule? i.rule).any fun r => i.dot ≤ r.rhs.length && i.origin ≤ n

/-- The items of `g` over an input of `n` tokens, all of them. -/
def all (g : Grammar T N) (n : Nat) : List Item :=
  g.rules.toList.zipIdx.flatMap fun (r, rule) =>
    (List.range (r.rhs.length + 1)).flatMap fun dot =>
      (List.range (n + 1)).map fun origin => ⟨.ofNat rule, dot, origin⟩

theorem mem_all_of_isProper {g : Grammar T N} {n : Nat} {i : Item} (h : i.isProper g n = true) :
    i ∈ all g n := by
  obtain ⟨rule, dot, origin⟩ := i
  simp only [isProper, Option.any_eq_true, Bool.and_eq_true, decide_eq_true_eq] at h
  obtain ⟨r, hr, hd, ho⟩ := h
  simp only [all, List.mem_flatMap, List.mem_map, List.mem_range, Prod.exists,
    List.mem_zipIdx_iff_getElem?, Item.mk.injEq, Array.getElem?_toList]
  exact ⟨r, rule.toNat, hr, dot, by omega, origin, by omega, Saturating.ofNat_toNat rule, rfl, rfl⟩

end Item

end EarleyForest
