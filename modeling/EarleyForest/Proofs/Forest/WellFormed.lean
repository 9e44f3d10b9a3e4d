import EarleyForest.Forest.Reachability
import EarleyForest.Proofs.Forest.Exactness

/-!
# Well-formed forests

A forest is well-formed (`Forest.WellFormed`) when its root stands for the whole input, no two nodes
stand for the same thing, every node can be found and reached, and the alternatives of a node each
lay a rule over its range, in strictly ascending order. Exact forests are well-formed
(`Forest.IsExact.wellFormed`), and so is every forest that is parsed
(`Grammar.wellFormed_of_parseFrom`).
-/

namespace EarleyForest

variable {T N : Type} [DecidableEq N] [SearchKey N] {g : Grammar T N} {start : N}

namespace Forest

/-- Where the tokens below a node begin. -/
def startOf (f : Forest g) (id : NodeId) : Nat :=
  match f.node? id with
  | some node => node.span.1
  | none => 0

/-- The boundaries between the children of an alternative that ends at `stop`, the ends of the range
included. -/
def bounds (f : Forest g) (stop : Nat) (a : Alternative) : List Nat :=
  a.children.map f.startOf ++ [stop]

/-- The forest stands for derivations of the tokens from `base` on from `start`. -/
structure WellFormed (f : Forest g) (start : N) (base : Nat) : Prop where
  root : ∃ root alternatives, f.root? = some root ∧
    f.node? root = some (.nonterminal start base f.tokens.size alternatives)
  key_unique : ∀ {id id' : NodeId} {A : N} {i j : Nat} {as as' : List Alternative},
    f.node? id = some (.nonterminal A i j as) → f.node? id' = some (.nonterminal A i j as') →
      id = id'
  token_unique : ∀ {id id' : NodeId} {token : Nat}, f.node? id = some (.terminal token) →
    f.node? id' = some (.terminal token) → id = id'
  find?_eq : ∀ {id : NodeId} {A : N} {i j : Nat} {as : List Alternative},
    f.node? id = some (.nonterminal A i j as) → f.find? A i j = some id
  reachable : ∀ id < f.size, ∃ root ∈ f.root?, f.Reaches root id
  token_range : ∀ {id : NodeId} {token : Nat}, f.node? id = some (.terminal token) →
    base ≤ token ∧ token < f.tokens.size
  alternatives_ne_nil : ∀ {id : NodeId} {A : N} {i j : Nat} {as : List Alternative},
    f.node? id = some (.nonterminal A i j as) → as ≠ []
  tiles : ∀ {id : NodeId} {A : N} {i j : Nat} {as : List Alternative},
    f.node? id = some (.nonterminal A i j as) → ∀ a ∈ as, ∃ r, g.rule? a.rule = some r ∧
      r.lhs = A ∧ Tiles f.arena.nodes f.tokens r.rhs a.children (f.bounds j a) i j
  nodup : ∀ {id : NodeId} {A : N} {i j : Nat} {as : List Alternative},
    f.node? id = some (.nonterminal A i j as) → as.Nodup
  ascending : ∀ {id : NodeId} {A : N} {i j : Nat} {as : List Alternative},
    f.node? id = some (.nonterminal A i j as) →
      as.Pairwise fun a b => a.rule < b.rule ∨
        a.rule = b.rule ∧ List.Lex (· < ·) (f.bounds j a) (f.bounds j b)

variable {f : Forest g} {w : List T} {base : Nat}

theorem startOf_eq {id : NodeId} {node : Node N} (h : f.node? id = some node) :
    f.startOf id = node.span.1 := by
  rw [startOf, h]

theorem bounds_of_tiles {Xs : List (Symbol T N)} {a : Alternative} {bounds : List Nat}
    {i j : Nat} (h : Tiles f.arena.nodes f.tokens Xs a.children bounds i j) :
    f.bounds j a = bounds := by
  rw [Forest.bounds]
  generalize a.children = ids at h
  induction h with
  | nil => rfl
  | terminal h _ _ ih => rw [List.map_cons, List.cons_append, ih, f.startOf_eq h, Node.span]
  | nonterminal h _ _ ih => rw [List.map_cons, List.cons_append, ih, f.startOf_eq h, Node.span]

theorem alternatives_eq {id : NodeId} {node : Node N} (h : f.node? id = some node) :
    f.alternatives id = node.alternatives := by
  rw [alternatives, h]

theorem exists_node {id : NodeId} (hid : id < f.size) : ∃ node, f.node? id = some node :=
  ⟨_, Array.getElem?_eq_getElem hid⟩

theorem lt_size {id : NodeId} {node : Node N} (h : f.node? id = some node) : id < f.size :=
  (Array.getElem?_eq_some_iff.1 h).1

theorem mem_children_of_getElem? {id child : NodeId} {A : N} {i j k : Nat} {as : List Alternative}
    {a : Alternative} (hn : f.node? id = some (.nonterminal A i j as)) (ha : as[k]? = some a)
    (hc : child ∈ a.children) : child ∈ f.children id :=
  mem_children_iff.2 ⟨a, (alternatives_eq hn).symm ▸ List.mem_of_getElem? ha, hc⟩

theorem reaches_of_isRooted (h : Growth.IsRooted f.arena.nodes) (id : NodeId) (hid : id < f.size) :
    f.Reaches 0 id := by
  induction id using Nat.strongRecOn with
  | ind id ih =>
    rcases Nat.eq_zero_or_pos id with rfl | hpos
    · exact .refl 0
    · obtain ⟨parent, hlt, node, hn, a, ha, hmem⟩ := h id hpos hid
      refine (ih parent hlt (Nat.lt_trans hlt hid)).trans (.of_child (mem_children_iff.2 ?_))
      exact ⟨a, by rwa [alternatives_eq hn], hmem⟩

theorem lex_map_add (base : Nat) {a b : List Nat} (h : List.Lex (· < ·) a b) :
    List.Lex (· < ·) (a.map (base + ·)) (b.map (base + ·)) := by
  induction h with
  | nil => exact .nil
  | rel hlt => exact .rel (Nat.add_lt_add_left hlt base)
  | cons _ ih => exact .cons ih

namespace IsExact

variable (h : f.IsExact start w base) {id : NodeId} {A : N} {i j : Nat} {as : List Alternative}
include h

theorem tiles (hn : f.node? id = some (.nonterminal A i j as)) {a : Alternative} (ha : a ∈ as) :
    ∃ r, g.rule? a.rule = some r ∧ r.lhs = A ∧
      Tiles f.arena.nodes f.tokens r.rhs a.children (f.bounds j a) i j := by
  obtain ⟨i, j, ways, rfl, rfl, -, hways, hall⟩ := h.node hn
  obtain ⟨⟨rule, split⟩, hway, hrule, r, hr, htiles⟩ := exists_of_mem_right hall ha
  obtain ⟨r', hr', hA, -⟩ := hways.mem_iff.1 hway
  cases hr.symm.trans hr'
  refine ⟨r, hrule ▸ hr, hA, ?_⟩
  rwa [bounds_of_tiles htiles]

theorem ascending (hn : f.node? id = some (.nonterminal A i j as)) :
    as.Pairwise fun a b => a.rule < b.rule ∨
      a.rule = b.rule ∧ List.Lex (· < ·) (f.bounds j a) (f.bounds j b) := by
  obtain ⟨i, j, ways, rfl, rfl, -, hways, hall⟩ := h.node hn
  refine pairwise_of_forall₂ hall hways.ascending fun {x y a b} ha hb hlt => ?_
  obtain ⟨hrule, r, -, htiles⟩ := ha
  obtain ⟨hrule', r', -, htiles'⟩ := hb
  rw [hrule, hrule', bounds_of_tiles htiles, bounds_of_tiles htiles']
  exact hlt.imp_right fun ⟨heq, hsplit⟩ => ⟨heq, lex_map_add base hsplit⟩

theorem find?_eq (hn : f.node? id = some (.nonterminal A i j as)) : f.find? A i j = some id :=
  h.indexed.find?_iff.2 ⟨as, hn⟩

theorem alternatives_ne_nil (hn : f.node? id = some (.nonterminal A i j as)) : as ≠ [] := by
  obtain ⟨i, j, ways, -, -, -, hways, hall⟩ := h.node hn
  intro heq
  subst heq
  exact hways.ne_nil (List.forall₂_nil_right_iff.1 hall)

/-- Exact forests are well-formed. -/
theorem wellFormed : f.WellFormed start base := by
  obtain ⟨hroot, alternatives, hn⟩ := h.root
  refine ⟨⟨0, alternatives, hroot, hn⟩, fun hn hn' => ?_, fun hn hn' => ?_, h.find?_eq,
    fun id hid => ⟨0, hroot, reaches_of_isRooted h.rooted id hid⟩, h.token, h.alternatives_ne_nil,
    fun hn _ => h.tiles hn, fun hn => ?_, h.ascending⟩
  · exact Option.some.inj ((h.find?_eq hn).symm.trans (h.find?_eq hn'))
  · exact Option.some.inj
      ((h.indexed.leaves_iff.2 hn).symm.trans (h.indexed.leaves_iff.2 hn'))
  · refine (h.ascending hn).imp ?_
    rintro a _ hlt rfl
    rcases hlt with hlt | ⟨-, hlt⟩
    · exact Nat.lt_irrefl _ hlt
    · exact List.lex_irrefl Nat.lt_irrefl _ hlt

end IsExact

end Forest

/-- Every forest that is parsed is well-formed: it stands for derivations of all tokens that were
left from the symbol that was asked for. -/
theorem Grammar.wellFormed_of_parseFrom [DecidableEq T] (g : Grammar T N)
    (hg : g.rules.size < 4294967296) (config : ParserConfig) (stream : TokenStream T) (start : N)
    (f : Forest g) (h : (g.parseFrom config stream start).1 = .ok f) :
    f.tokens = stream.tokens ∧ f.WellFormed start stream.position := by
  obtain ⟨htokens, hexact⟩ := isExact_of_parseFrom hg h
  exact ⟨htokens, hexact.wellFormed⟩

theorem Grammar.wellFormed_of_parseFrom_pairs : pairs.rules.size < 4294967296 ∧
    ∃ f, (pairs.parseFrom {} secondOfTwo 'S').1 = .ok f ∧ f.WellFormed 'S' 1 := by
  have hsize : pairs.rules.size < 4294967296 := by decide
  obtain ⟨f, hf⟩ := exists_parse_secondOfTwo
  exact ⟨hsize, f, hf, (wellFormed_of_parseFrom pairs hsize {} secondOfTwo 'S' f hf).2⟩

end EarleyForest
