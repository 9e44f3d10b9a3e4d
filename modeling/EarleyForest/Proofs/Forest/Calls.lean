import EarleyForest.Forest.Calls
import EarleyForest.Proofs.Forest.Arena
import EarleyForest.Proofs.Parser.Recognition

/-!
# Forests made by hand

Whatever calls make a forest, and in whatever order, nodes are shared and stay. A call that asks for
a node gives the one that is there or makes it behind all others (`Arena.call_cases`). Calls leave
the nodes that are there as they are, but for the alternatives that they add
(`Arena.getElem?_run`), and all others are made by a call that asks for them
(`Arena.getElem?_run_cases`). So each node is made once, by the first call that asks for it
(`Forest.isMadeBy_ofCalls`).
-/

namespace EarleyForest

variable {T N : Type} [SearchKey N]

namespace Arena

variable {arena : Arena N} {c : Call N} {calls before behind : List (Call N)} {id id' : NodeId}
  {node new : Node N} {as as' : List Alternative}

theorem IsIndexed.key_unique (h : arena.IsIndexed) {A : N} {i j : Nat}
    (hn : arena.nodes[id]? = some (.nonterminal A i j as))
    (hn' : arena.nodes[id']? = some (.nonterminal A i j as')) : id = id' :=
  Option.some.inj ((h.find?_iff.2 ⟨as, hn⟩).symm.trans (h.find?_iff.2 ⟨as', hn'⟩))

theorem IsIndexed.token_unique (h : arena.IsIndexed) {token : Nat}
    (hn : arena.nodes[id]? = some (.terminal token))
    (hn' : arena.nodes[id']? = some (.terminal token)) : id = id' :=
  Option.some.inj ((h.leaves_iff.2 hn).symm.trans (h.leaves_iff.2 hn'))

/-- Nodes that stand for the same are the same. -/
theorem IsIndexed.id_unique (h : arena.IsIndexed) (hn : arena.nodes[id]? = some (node.append as))
    (hn' : arena.nodes[id']? = some (node.append as')) : id = id' := by
  cases node with
  | terminal => exact h.token_unique hn hn'
  | nonterminal => exact h.key_unique hn hn'

/-! ## One call -/

theorem getElem?_pushAlternative (arena : Arena N) (id : NodeId) (a : Alternative) (id' : NodeId) :
    (arena.pushAlternative id a).nodes[id']? =
      if id = id' then arena.nodes[id']?.map (·.append [a]) else arena.nodes[id']? :=
  getElem?_pushAlternatives

omit [SearchKey N] in
theorem addedTo_of_node? (h : c.node? = some new) (id : NodeId) : addedTo id [c] = [] := by
  cases c <;> first | rfl | cases h

omit [SearchKey N] in
theorem Call.eq_of_append {c' : Call N} {new' : Node N} (h : c.node? = some new)
    (h' : c'.node? = some new') (heq : new.append as = new'.append as') : c = c' := by
  cases c <;> cases h <;> cases c' <;> cases h' <;> cases heq <;> rfl

omit [SearchKey N] in
theorem addedTo_cons (id : NodeId) (c : Call N) (calls : List (Call N)) :
    addedTo id (c :: calls) = addedTo id [c] ++ addedTo id calls :=
  List.filterMap_append (l := [c])

/-- A call that asks for a node gives the one that is there, and nothing changes, or it makes one
behind all others. -/
theorem call_cases (h : arena.IsIndexed) (hc : c.node? = some new) :
    (∃ (id : NodeId) (old : List Alternative), arena.nodes[id]? = some (new.append old) ∧
        arena.call c = (c.answer id false, arena)) ∨
      (arena.call c).1 = c.answer arena.nodes.size true ∧ (arena.call c).2.IsIndexed ∧
        (arena.call c).2.nodes = arena.nodes.push new := by
  cases c with
  | terminal token =>
    cases hc
    rcases terminal_cases h token with ⟨hn, hsame⟩ | ⟨hid, hidx, hnodes, -⟩
    · refine .inl ⟨(arena.terminal token).1, [], hn, ?_⟩
      simp only [Arena.call, hsame, Call.answer]
    · exact .inr ⟨congrArg Answer.terminal hid, hidx, hnodes⟩
  | nonterminal A i j =>
    cases hc
    rcases nonterminal_cases h A i j with ⟨id, as, heq, hn⟩ | ⟨hid, hidx, hnodes, -⟩
    · exact .inl ⟨id, as, hn, by simp only [Arena.call, heq, Call.answer]⟩
    · exact .inr ⟨by simp only [Arena.call, hid, Call.answer], hidx, hnodes⟩
  | push => cases hc

theorem IsIndexed.call (h : arena.IsIndexed) (c : Call N) : (arena.call c).2.IsIndexed := by
  cases hc : c.node? with
  | some new =>
    rcases call_cases h hc with ⟨_, _, -, hsame⟩ | ⟨-, hidx, -⟩
    · rwa [hsame]
    · exact hidx
  | none =>
    cases c with
    | push id a => exact h.pushAlternatives id [a]
    | terminal | nonterminal => cases hc

/-- A call leaves a node as it is, but for an alternative that it adds. -/
theorem getElem?_call (h : arena.IsIndexed) (c : Call N) (hn : arena.nodes[id]? = some node) :
    (arena.call c).2.nodes[id]? = some (node.append (addedTo id [c])) := by
  cases hc : c.node? with
  | some new =>
    rw [addedTo_of_node? hc, node.append_nil]
    rcases call_cases h hc with ⟨_, _, -, hsame⟩ | ⟨-, -, hnodes⟩
    · rwa [hsame]
    · rw [hnodes]
      exact getElem?_push_eq_some_iff.2 (.inl hn)
  | none =>
    cases c with
    | push id' a =>
      refine (getElem?_pushAlternative arena id' a id).trans ?_
      by_cases heq : id' = id
      · simp [addedTo, heq, hn]
      · simp [addedTo, heq, hn, node.append_nil]
    | terminal | nonterminal => cases hc

/-- A node that was not there before has been asked for. -/
theorem node?_of_getElem?_call (h : arena.IsIndexed) (hid : arena.nodes.size ≤ id)
    (hn : (arena.call c).2.nodes[id]? = some node) : c.node? = some node := by
  have hnone : arena.nodes[id]? = none := Array.getElem?_eq_none hid
  cases hc : c.node? with
  | some new =>
    rcases call_cases h hc with ⟨_, _, -, hsame⟩ | ⟨-, -, hnodes⟩
    · rw [hsame, hnone] at hn
      cases hn
    · rw [hnodes, getElem?_push_eq_some_iff, hnone] at hn
      exact congrArg some (hn.resolve_left nofun).2
  | none =>
    cases c with
    | push id' a =>
      have hpush := (getElem?_pushAlternative arena id' a id).symm.trans hn
      simp [hnone] at hpush
    | terminal | nonterminal => cases hc

theorem size_le_call (h : arena.IsIndexed) (c : Call N) :
    arena.nodes.size ≤ (arena.call c).2.nodes.size :=
  Keeps.size_le fun _ _ hn => ⟨_, getElem?_call h c hn⟩

/-! ## Calls, one behind the other -/

theorem IsIndexed.run (h : arena.IsIndexed) (calls : List (Call N)) :
    (arena.run calls).2.IsIndexed := by
  induction calls generalizing arena with
  | nil => exact h
  | cons c calls ih => exact ih (h.call c)

theorem run_append (arena : Arena N) (before behind : List (Call N)) :
    (arena.run (before ++ behind)).2 = ((arena.run before).2.run behind).2 := by
  induction before generalizing arena with
  | nil => rfl
  | cons c before ih => exact ih (arena.call c).2

theorem Admits.of_append (h : arena.Admits (before ++ behind)) : arena.Admits before := by
  induction before generalizing arena with
  | nil => trivial
  | cons c before ih => exact ⟨h.1, ih h.2⟩

theorem getElem?_run_answers (arena : Arena N) {k : Nat} (hk : calls[k]? = some c) :
    (arena.run calls).1[k]? = some ((arena.run (calls.take k)).2.call c).1 := by
  induction calls generalizing arena k with
  | nil => cases hk
  | cons c' calls ih =>
    cases k with
    | zero =>
      obtain rfl := Option.some.inj hk
      rfl
    | succ k => exact ih (arena.call c').2 hk

/-- Calls leave a node as it is, but for the alternatives that they add. -/
theorem getElem?_run (h : arena.IsIndexed) (calls : List (Call N))
    (hn : arena.nodes[id]? = some node) :
    (arena.run calls).2.nodes[id]? = some (node.append (addedTo id calls)) := by
  induction calls generalizing arena node with
  | nil =>
    rw [show addedTo id ([] : List (Call N)) = [] from rfl, node.append_nil]
    exact hn
  | cons c calls ih =>
    rw [addedTo_cons, ← Node.append_append]
    exact ih (h.call c) (getElem?_call h c hn)

/-- Behind a call for a node it is there. -/
theorem exists_getElem?_run (h : arena.IsIndexed) (hc : c ∈ calls) (hnew : c.node? = some new) :
    ∃ (id : NodeId) (as : List Alternative),
      (arena.run calls).2.nodes[id]? = some (new.append as) := by
  obtain ⟨before, behind, rfl⟩ := List.append_of_mem hc
  have hidx := h.run before
  rw [run_append]
  show ∃ id as, (((arena.run before).2.call c).2.run behind).2.nodes[id]? = _
  rcases call_cases hidx hnew with ⟨id, old, hn, hsame⟩ | ⟨-, hidx', hnodes⟩
  · rw [hsame]
    refine ⟨id, old ++ addedTo id behind, ?_⟩
    rw [getElem?_run hidx behind hn, Node.append_append]
  · refine ⟨(arena.run before).2.nodes.size, addedTo _ behind, getElem?_run hidx' behind ?_⟩
    rw [hnodes]
    exact Array.getElem?_push_size

/-- A node was there before, or a call has asked for it. Alternatives are added to it by calls
only. -/
theorem getElem?_run_cases (h : arena.IsIndexed) (hcalls : arena.Admits calls)
    (hn : (arena.run calls).2.nodes[id]? = some node) :
    (∃ old, arena.nodes[id]? = some old ∧ node = old.append (addedTo id calls)) ∨
      arena.nodes.size ≤ id ∧ ∃ c ∈ calls, ∃ new, c.node? = some new ∧
        node = new.append (addedTo id calls) := by
  induction calls generalizing arena with
  | nil =>
    refine .inl ⟨node, hn, ?_⟩
    rw [show addedTo id ([] : List (Call N)) = [] from rfl, node.append_nil]
  | cons c calls ih =>
    obtain ⟨hrange, hcalls⟩ := hcalls
    -- no call adds to a node before it is there
    have hfresh (hid : arena.nodes.size ≤ id) : addedTo id [c] = [] := by
      cases c with
      | terminal | nonterminal => rfl
      | push id' a =>
        have hne : id' ≠ id := fun heq => Nat.not_lt_of_le hid (heq ▸ hrange)
        simp [addedTo, hne]
    rw [addedTo_cons]
    rcases ih (h.call c) hcalls hn with ⟨old, hold, rfl⟩ | ⟨hid, c', hc', new, hnew, rfl⟩
    · rcases Nat.lt_or_ge id arena.nodes.size with hlt | hge
      · have hn₀ := Array.getElem?_eq_getElem hlt
        obtain rfl := Option.some.inj ((getElem?_call h c hn₀).symm.trans hold)
        exact .inl ⟨_, hn₀, Node.append_append⟩
      · refine .inr ⟨hge, c, List.mem_cons_self, old, node?_of_getElem?_call h hge hold, ?_⟩
        rw [hfresh hge, List.nil_append]
    · have hge := Nat.le_trans (size_le_call h c) hid
      refine .inr ⟨hge, c', List.mem_cons_of_mem _ hc', new, hnew, ?_⟩
      rw [hfresh hge, List.nil_append]

theorem pushAlternative_terminal {token : Nat} (hn : arena.nodes[id]? = some (.terminal token))
    (a : Alternative) : arena.pushAlternative id a = arena := by
  have hnodes : (arena.pushAlternative id a).nodes = arena.nodes := by
    refine Array.ext_getElem? fun id' => ?_
    rw [getElem?_pushAlternative]
    split
    · subst id'
      rw [hn]
      rfl
    · rfl
  exact congrArg (Arena.mk · arena.keys arena.leaves) hnodes

/-- A call that asks for a node is answered by the node that stays. It is made by the first such
call. -/
theorem exists_answer (h : ({} : Arena N).Admits calls) {k : Nat} (hk : calls[k]? = some c)
    (hc : c.node? = some new) : ∃ (id : NodeId) (isNew : Bool) (as : List Alternative),
      (run {} calls).1[k]? = some (c.answer id isNew) ∧
        (run {} calls).2.nodes[id]? = some (new.append as) ∧
        (isNew = true ↔ c ∉ calls.take k) := by
  obtain ⟨hlt, rfl⟩ := List.getElem?_eq_some_iff.1 hk
  have hsplit : calls = calls.take k ++ calls[k] :: calls.drop (k + 1) := by simp
  have hidx := isIndexed_empty.run (calls.take k)
  have hanswer := getElem?_run_answers {} hk
  have hfinal : (run {} calls).2 =
      (((run {} (calls.take k)).2.call calls[k]).2.run (calls.drop (k + 1))).2 := by
    have happend := run_append {} (calls.take k) (calls[k] :: calls.drop (k + 1))
    rwa [← hsplit] at happend
  rcases call_cases hidx hc with ⟨id, old, hn, hsame⟩ | ⟨hmade, hidx', hnodes⟩
  · rw [hsame] at hanswer hfinal
    refine ⟨id, false, old ++ addedTo id (calls.drop (k + 1)), hanswer, ?_, ?_⟩
    · rw [hfinal, getElem?_run hidx _ hn, Node.append_append]
    · -- the node has been made by an earlier call, which must have been the same
      rcases getElem?_run_cases isIndexed_empty (hsplit ▸ h).of_append hn with
        ⟨_, hnone, -⟩ | ⟨-, c', hc', new', hnew', heq⟩
      · simp at hnone
      · obtain rfl := Call.eq_of_append hc hnew' heq
        simp [hc']
  · rw [hmade] at hanswer
    have hmade : ((run {} (calls.take k)).2.call calls[k]).2.nodes[
        (run {} (calls.take k)).2.nodes.size]? = some (new.append []) := by
      rw [hnodes, new.append_nil]
      exact Array.getElem?_push_size
    have hlast := getElem?_run hidx' (calls.drop (k + 1)) hmade
    rw [← hfinal, Node.append_append] at hlast
    refine ⟨_, true, _, hanswer, hlast, iff_of_true rfl fun hmem => ?_⟩
    obtain ⟨id, as, hn⟩ := exists_getElem?_run isIndexed_empty hmem hc
    have hkept := getElem?_call hidx calls[k] hn
    rw [Node.append_append] at hkept
    obtain rfl := hidx'.id_unique hkept hmade
    exact absurd (Array.getElem?_eq_some_iff.1 hn).1 (Nat.lt_irrefl _)

end Arena

/-! ## The forest that calls make -/

variable [DecidableEq N] {g : Grammar T N}

/-- The forest shares the nodes that `calls` asked for, with `answers`, and has kept them. -/
structure Forest.IsMadeBy (f : Forest g) (calls : List (Arena.Call N))
    (answers : List Arena.Answer) : Prop where
  find?_iff : ∀ {A : N} {i j : Nat} {id : NodeId}, f.find? A i j = some id ↔
    ∃ as, f.node? id = some (.nonterminal A i j as)
  key_unique : ∀ {id id' : NodeId} {A : N} {i j : Nat} {as as' : List Alternative},
    f.node? id = some (.nonterminal A i j as) → f.node? id' = some (.nonterminal A i j as') →
      id = id'
  token_unique : ∀ {id id' : NodeId} {token : Nat}, f.node? id = some (.terminal token) →
    f.node? id' = some (.terminal token) → id = id'
  terminal : ∀ {k token : Nat}, calls[k]? = some (.terminal token) →
    ∃ id, answers[k]? = some (.terminal id) ∧ f.node? id = some (.terminal token)
  nonterminal : ∀ {k : Nat} {A : N} {i j : Nat}, calls[k]? = some (.nonterminal A i j) →
    ∃ id isNew, answers[k]? = some (.nonterminal id isNew) ∧ f.find? A i j = some id ∧
      (isNew = true ↔ .nonterminal A i j ∉ calls.take k)
  stays : ∀ {before behind : List (Arena.Call N)} {id : NodeId} {node : Node N},
    calls = before ++ behind → (Arena.run {} before).2.nodes[id]? = some node →
      f.node? id = some (node.append (Arena.addedTo id behind))
  alternatives : ∀ {id : NodeId} {A : N} {i j : Nat} {as : List Alternative},
    f.node? id = some (.nonterminal A i j as) → as = Arena.addedTo id calls
  push_terminal : ∀ {before behind : List (Arena.Call N)} {id : NodeId} {a : Alternative}
    {token : Nat}, calls = before ++ .push id a :: behind →
      (Arena.run {} before).2.nodes[id]? = some (.terminal token) →
        (Arena.run {} (before ++ [.push id a])).2 = (Arena.run {} before).2

/-- Forests made by hand keep their nodes, and share them. -/
theorem Forest.isMadeBy_ofCalls (tokens : Array (Token T)) (calls : List (Arena.Call N))
    (root? : Option NodeId) (chartItems : Nat) (h : ({} : Arena N).Admits calls) :
    (Forest.ofCalls tokens calls root? chartItems : Forest g).IsMadeBy calls
      (Arena.run {} calls).1 := by
  have hidx := Arena.isIndexed_empty.run calls
  constructor
  case find?_iff => exact hidx.find?_iff
  case key_unique => exact hidx.key_unique
  case token_unique => exact hidx.token_unique
  case terminal =>
    intro k token hk
    obtain ⟨id, _, _, hanswer, hn, -⟩ := Arena.exists_answer h hk rfl
    exact ⟨id, hanswer, hn⟩
  case nonterminal =>
    intro k A i j hk
    obtain ⟨id, isNew, as, hanswer, hn, hnew⟩ := Arena.exists_answer h hk rfl
    exact ⟨id, isNew, hanswer, hidx.find?_iff.2 ⟨as, hn⟩, hnew⟩
  case stays =>
    rintro before behind id node rfl hn
    exact (congrArg (·.nodes[id]?) (Arena.run_append {} before behind)).trans
      (Arena.getElem?_run (Arena.isIndexed_empty.run before) behind hn)
  case alternatives =>
    intro id A i j as hn
    rcases Arena.getElem?_run_cases Arena.isIndexed_empty h hn with
      ⟨_, hnone, -⟩ | ⟨-, c, -, new, hnew, heq⟩
    · simp at hnone
    · cases c <;> cases hnew <;> cases heq
      rfl
  case push_terminal =>
    rintro before behind id a token rfl hn
    rw [Arena.run_append]
    exact Arena.pushAlternative_terminal hn a

/-- `S` over a token and `A` over it are asked for twice, with alternatives between. One is added to
the token. -/
def pairCalls : List (Arena.Call Char) :=
  [.nonterminal 'S' 0 1, .terminal 0, .push 1 ⟨0, [0]⟩, .nonterminal 'A' 0 1,
    .push 0 ⟨.ofNat 1, [2, 2]⟩, .nonterminal 'S' 0 1, .push 2 ⟨.ofNat 2, [1]⟩,
    .push 0 ⟨.ofNat 1, [2]⟩, .terminal 0]

theorem Forest.isMadeBy_ofCalls_pairCalls : ({} : Arena Char).Admits pairCalls ∧
    (Forest.ofCalls #[⟨'a', "a", default⟩] pairCalls (some 0) 0 : Forest pairs).IsMadeBy pairCalls
      [.nonterminal 0 true, .terminal 1, .pushed, .nonterminal 2 true, .pushed,
        .nonterminal 0 false, .pushed, .pushed, .terminal 1] := by
  have hcalls : ({} : Arena Char).Admits pairCalls := by decide +kernel
  have hanswers : (Arena.run {} pairCalls).1 = [.nonterminal 0 true, .terminal 1, .pushed,
      .nonterminal 2 true, .pushed, .nonterminal 0 false, .pushed, .pushed, .terminal 1] := by
    decide +kernel
  exact ⟨hcalls, hanswers ▸ isMadeBy_ofCalls _ pairCalls (some 0) 0 hcalls⟩

end EarleyForest
