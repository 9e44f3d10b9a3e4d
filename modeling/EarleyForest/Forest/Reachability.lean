import EarleyForest.Forest.Basic

/-!
# Reachability in a forest

`f.Reaches a b`: going from nodes to their children any number of times leads from `a` to `b`. A
forest is acyclic (`f.Acyclic`) when no node is reached from one of its own children, acyclic from
`root` on (`f.AcyclicFrom root`) when this holds of the nodes reached from `root`, in range
(`f.InRange`) when all nodes and rules that it refers to exist, and has its tokens (`f.HasTokens`)
when all tokens that it refers to exist.
-/

namespace EarleyForest

variable {T N : Type} [DecidableEq N] [SearchKey N] {g : Grammar T N}

namespace Forest

/-- Going from nodes to their children leads from `a` to `b`. -/
inductive Reaches (f : Forest g) : NodeId → NodeId → Prop where
  | refl (id : NodeId) : Reaches f id id
  | step {a b c : NodeId} : b ∈ f.children a → Reaches f b c → Reaches f a c

/-- No node is reached from one of its children. -/
def Acyclic (f : Forest g) : Prop :=
  ∀ id, ∀ child ∈ f.children id, ¬ f.Reaches child id

/-- No node reached from `root` is reached from one of its children. -/
def AcyclicFrom (f : Forest g) (root : NodeId) : Prop :=
  ∀ id, f.Reaches root id → ∀ child ∈ f.children id, ¬ f.Reaches child id

/-- All nodes and rules that the forest refers to exist. -/
structure InRange (f : Forest g) : Prop where
  root_lt : ∀ root ∈ f.root?, root < f.size
  child_lt : ∀ id, ∀ child ∈ f.children id, child < f.size
  rule_lt : ∀ id, ∀ a ∈ f.alternatives id, a.rule.toNat < g.rules.size

/-- All tokens that the forest refers to exist. -/
def HasTokens (f : Forest g) : Prop :=
  ∀ id token, f.node? id = some (.terminal token) → token < f.tokens.size

variable {f : Forest g} {a b c : NodeId}

theorem mem_children_iff : b ∈ f.children a ↔ ∃ x ∈ f.alternatives a, b ∈ x.children := by
  simp [children]

theorem Reaches.trans (h : f.Reaches a b) (h' : f.Reaches b c) : f.Reaches a c := by
  induction h with
  | refl => exact h'
  | step hc _ ih => exact .step hc (ih h')

theorem Reaches.of_child (h : b ∈ f.children a) : f.Reaches a b := .step h (.refl b)

theorem AcyclicFrom.of_child (h : f.AcyclicFrom a) (hc : b ∈ f.children a) : f.AcyclicFrom b :=
  fun id hid => h id (.step hc hid)

theorem Acyclic.acyclicFrom (h : f.Acyclic) (root : NodeId) : f.AcyclicFrom root := fun id _ => h id

theorem lt_size_of_mem_alternatives {id : NodeId} {x : Alternative} (h : x ∈ f.alternatives id) :
    id < f.size := by
  cases hn : f.node? id with
  | none => simp [alternatives, hn] at h
  | some node => exact (Array.getElem?_eq_some_iff.1 hn).1

/-- Whether a forest is in range shows at the nodes that it has. -/
theorem inRange_iff : f.InRange ↔ (∀ root ∈ f.root?, root < f.size) ∧
    ∀ id < f.size, ∀ x ∈ f.alternatives id,
      x.rule.toNat < g.rules.size ∧ ∀ child ∈ x.children, child < f.size := by
  constructor
  · intro h
    exact ⟨h.root_lt, fun id _ x hx =>
      ⟨h.rule_lt id x hx, fun child hc => h.child_lt id child (mem_children_iff.2 ⟨x, hx, hc⟩)⟩⟩
  · rintro ⟨hroot, h⟩
    refine ⟨hroot, fun id child hc => ?_, fun id x hx =>
      (h id (lt_size_of_mem_alternatives hx) x hx).1⟩
    obtain ⟨x, hx, hc⟩ := mem_children_iff.1 hc
    exact (h id (lt_size_of_mem_alternatives hx) x hx).2 child hc

instance : Decidable f.InRange := decidable_of_iff' _ inRange_iff

/-- Whether a forest has its tokens shows at the nodes that it has. -/
theorem hasTokens_iff : f.HasTokens ↔ ∀ id < f.size, (match f.node? id with
    | some (.terminal token) => token < f.tokens.size
    | _ => true) = true := by
  constructor
  · intro h id _
    split
    · rename_i token hn
      exact decide_eq_true (h id token hn)
    · rfl
  · intro h id token hn
    have hid := h id (Array.getElem?_eq_some_iff.1 hn).1
    rw [hn] at hid
    exact of_decide_eq_true hid

instance : Decidable f.HasTokens := decidable_of_iff' _ hasTokens_iff

end Forest

end EarleyForest
