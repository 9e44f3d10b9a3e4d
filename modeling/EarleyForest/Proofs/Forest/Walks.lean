import EarleyForest.Forest.Walks
import EarleyForest.Proofs.Forest.Cursors

/-!
# Walks with a stack do what the recursions do

Where going down from a node comes to an end, so do the walks with a stack from that node, and they
give what the recursions over the forest give with levels enough: the check of a cursor
(`replays_iff`) and the making of a tree, whatever makes the choices (`makes_iff`).
-/

namespace EarleyForest

variable {T N : Type} [DecidableEq N] [SearchKey N] {g : Grammar T N} {f : Forest g}

namespace Forest

variable {depth : Nat} {id : NodeId} {ids : List NodeId}

/-! ## The check of a cursor -/

section Replay

variable {given : Nat} {replay : Replay} {stack : List NodeId}
  {result : Except (Stop N) (List Nat)}

theorem one_lt_length {α : Type} {as : List α} (hne : as = [] → False)
    (hone : ∀ a, as = [a] → False) : 1 < as.length := by
  rcases as with _ | ⟨a, _ | ⟨b, as⟩⟩
  · exact absurd rfl hne
  · exact absurd rfl (hone a)
  · simp

/-- What a visit finds: a token, or an alternative that is the only one or that the next choice
takes. -/
theorem replayAt_cases {children : List NodeId} {replay' : Replay}
    (h : f.replayAt given replay id = .ok (children, replay')) :
    (∃ token, f.node? id = some (.terminal token) ∧ children = [] ∧ replay' = replay) ∨
      ∃ A i j as k a, f.node? id = some (.nonterminal A i j as) ∧ as[k]? = some a ∧
        children = a.children ∧ replay.ahead = recordChoice id k as.length ++ replay'.ahead ∧
        replay'.counts =
          replay.counts ++ ((recordChoice id k as.length).map f.countAt).toArray := by
  unfold replayAt at h
  split at h
  · cases h
  · rename_i token hn
    cases h
    exact .inl ⟨token, hn, rfl, rfl⟩
  · cases h
  · rename_i A i j a hn
    cases h
    exact .inr ⟨A, i, j, [a], 0, a, hn, rfl, rfl, by simp [recordChoice], by simp [recordChoice]⟩
  · rename_i A i j as hne hone hn
    have hcount : 1 < as.length := one_lt_length hne hone
    split at h
    · cases h
    · rename_i choice ahead hahead
      split at h
      · cases h
      · rename_i hid
        obtain rfl : choice.node = id := not_not.1 hid
        split at h
        · cases h
        · rename_i a ha
          cases h
          refine .inr ⟨A, i, j, as, choice.alternative, a, hn, ha, rfl, ?_, ?_⟩
          · simp [recordChoice, hcount, hahead]
          · simp [recordChoice, hcount, countAt, alternatives_eq hn, Node.alternatives]

theorem mem_children_of_replayAt {children : List NodeId} {replay' : Replay} {child : NodeId}
    (h : f.replayAt given replay id = .ok (children, replay')) (hc : child ∈ children) :
    child ∈ f.children id := by
  rcases replayAt_cases h with ⟨_, -, rfl, -⟩ | ⟨A, i, j, as, k, a, hn, ha, rfl, -⟩
  · cases hc
  · exact mem_children_of_getElem? hn ha hc

/-- Nodes that are pushed together are visited before the rest of the stack. -/
theorem ends_foldlM_replayFrom (h : ∀ id ∈ ids, ∀ {replay stack},
      EndsAfter (f.replayRound given) (f.replayFrom given depth replay id) (stack, ·) result →
      Ends (f.replayRound given) (id :: stack, replay) result)
    (hends : EndsAfter (f.replayRound given) (ids.foldlM (f.replayFrom given depth) replay)
      (stack, ·) result) :
    Ends (f.replayRound given) (ids ++ stack, replay) result := by
  induction ids generalizing replay with
  | nil => exact hends
  | cons id ids ih =>
    refine h id List.mem_cons_self ?_
    rw [List.foldlM_cons, endsAfter_bind] at hends
    generalize f.replayFrom given depth replay id = x at hends ⊢
    cases x with
    | error e => exact hends
    | ok replay' => exact ih (fun id' hid => h id' (List.mem_cons_of_mem _ hid)) hends

/-- A node and all below it are visited before the rest of the stack. -/
theorem ends_replayFrom (hdepth : f.EndsWithin depth id)
    (hends : EndsAfter (f.replayRound given) (f.replayFrom given depth replay id) (stack, ·)
      result) : Ends (f.replayRound given) (id :: stack, replay) result := by
  induction depth generalizing id replay stack with
  | zero => exact hdepth.elim
  | succ depth ih =>
    rw [replayFrom, endsAfter_bind] at hends
    cases hx : f.replayAt given replay id with
    | error e =>
      rw [hx] at hends
      exact hends ▸ .done (by rw [replayRound, hx])
    | ok x =>
      rw [hx] at hends
      refine .next (by rw [replayRound, hx]) (ends_foldlM_replayFrom (fun child hc _ _ => ?_) hends)
      exact ih (hdepth child (mem_children_of_replayAt hx hc))

/-- The check of a cursor with a stack comes to its end, with what the recursion gives. -/
theorem replays_iff {root : NodeId} (hroot : f.EndsWithin f.size root) (d : Directions) :
    f.Replays root d result ↔ result = f.replay root d := by
  refine Ends.iff_eq (ends_replayFrom (hroot.depthBound d.choices.length) ?_)
  cases hx : f.replayFrom d.choices.length (f.depthBound d.choices.length) ⟨d.choices, #[]⟩ root
  with
  | error e =>
    simp only [EndsAfter, Forest.replay, hx]
    rfl
  | ok last =>
    refine .done ?_
    simp only [replayRound, Forest.replay, hx, bind, Except.bind]
    cases last.ahead <;> rfl

end Replay

/-! ## The making of a tree -/

section Make

variable {σ : Type} {choose : NodeId → Nat → σ → Except (ForestError N) (Nat × σ)}
  {progress : Progress σ} {result : Except (ForestError N) (ParseTree T N × Progress σ)}

theorem unfold_succ (f : Forest g) (choose : NodeId → Nat → σ → Except (ForestError N) (Nat × σ))
    (depth : Nat) (id : NodeId) (progress : Progress σ) :
    f.unfold choose (depth + 1) id progress = (do
      match ← f.enter choose id progress with
      | (.leaf t, progress) => return (t, progress)
      | (.branch frame, progress) =>
        let (ts, progress) ← unfoldAll (f.unfold choose depth) frame.pending progress
        return ((frame.add ts []).toTree, progress)) := by
  rw [unfold, enter]
  cases f.node? id with
  | none => rfl
  | some node =>
    cases node with
    | terminal token =>
      dsimp only
      cases f.tokens[token]? <;> rfl
    | nonterminal A i j as =>
      cases as with
      | nil => rfl
      | cons a as =>
        simp only [List.isEmpty_cons]
        cases choose id (a :: as).length progress.state with
        | error e => rfl
        | ok x =>
          simp only [bind, Except.bind, pure, Except.pure]
          cases (a :: as)[x.1]? <;> rfl

/-- A branch that is entered follows the alternative that was chosen. -/
theorem enter_eq_branch {frame : Frame T N} {progress' : Progress σ}
    (h : f.enter choose id progress = .ok (.branch frame, progress')) :
    ∃ A i j as k a state, f.node? id = some (.nonterminal A i j as) ∧
      choose id as.length progress.state = .ok (k, state) ∧ as[k]? = some a ∧
      frame = ⟨A, a.rule, i, j, a.children, []⟩ ∧
      progress' = ⟨state, progress.weight + g.cost a.rule⟩ := by
  unfold enter at h
  split at h
  · cases h
  · split at h <;> cases h
  · rename_i A i j as hn
    split at h
    · cases h
    · obtain ⟨⟨k, state⟩, hk, h⟩ := bind_eq_ok_iff.1 h
      dsimp only at h
      split at h
      · cases h
      · rename_i a ha
        cases h
        exact ⟨A, i, j, as, k, a, state, hn, hk, ha, rfl, rfl⟩

theorem makeRound_leaf {top : Frame T N} {pending : List NodeId} {around : List (Frame T N)}
    {t : ParseTree T N} {progress' : Progress σ}
    (h : f.enter choose id progress = .ok (.leaf t, progress')) :
    f.makeRound choose ⟨top.add [] (id :: pending), around, progress⟩ =
      .inl ⟨top.add [t] pending, around, progress'⟩ := by
  simp only [makeRound, Frame.pending_add, h, Frame.add_add, List.nil_append]

theorem makeRound_branch {top frame : Frame T N} {pending : List NodeId}
    {around : List (Frame T N)} {progress' : Progress σ}
    (h : f.enter choose id progress = .ok (.branch frame, progress')) :
    f.makeRound choose ⟨top.add [] (id :: pending), around, progress⟩ =
      .inl ⟨frame, top.add [] pending :: around, progress'⟩ := by
  simp only [makeRound, Frame.pending_add, h, Frame.add_add, List.nil_append]

theorem makeRound_done {top frame : Frame T N} {ts : List (ParseTree T N)} {pending : List NodeId}
    {around : List (Frame T N)} :
    f.makeRound choose ⟨frame.add ts [], top.add [] pending :: around, progress⟩ =
      .inl ⟨top.add [(frame.add ts []).toTree] pending, around, progress⟩ := by
  simp only [makeRound, Frame.pending_add, Frame.add_add, List.nil_append]

/-- Children that are pending together are made one behind the other. -/
theorem ends_unfoldAll {top : Frame T N} {around : List (Frame T N)}
    (h : ∀ id ∈ ids, ∀ {top : Frame T N} {pending around progress},
      EndsAfter (f.makeRound choose) (f.unfold choose depth id progress)
        (fun x => ⟨top.add [x.1] pending, around, x.2⟩) result →
      Ends (f.makeRound choose) ⟨top.add [] (id :: pending), around, progress⟩ result)
    (hends : EndsAfter (f.makeRound choose) (unfoldAll (f.unfold choose depth) ids progress)
      (fun x => ⟨top.add x.1 [], around, x.2⟩) result) :
    Ends (f.makeRound choose) ⟨top.add [] ids, around, progress⟩ result := by
  induction ids generalizing top progress with
  | nil => exact hends
  | cons id ids ih =>
    refine h id List.mem_cons_self ?_
    rw [unfoldAll, endsAfter_bind] at hends
    generalize f.unfold choose depth id progress = x at hends ⊢
    cases x with
    | error e => exact hends
    | ok x =>
      have hmade : (top.add [x.1] ids).add [] ids = top.add [x.1] ids := Frame.add_add ..
      rw [EndsAfter, ← hmade]
      refine ih (fun id' hid => h id' (List.mem_cons_of_mem _ hid)) ?_
      dsimp only at hends
      rw [endsAfter_bind] at hends
      simp only [Frame.add_add]
      generalize unfoldAll (f.unfold choose depth) ids x.2 = y at hends ⊢
      cases y with
      | error e => exact hends
      | ok y => exact hends

/-- A pending child is made, with all below it, before the next one. -/
theorem ends_unfold {top : Frame T N} {pending : List NodeId} {around : List (Frame T N)}
    (hdepth : f.EndsWithin depth id)
    (hends : EndsAfter (f.makeRound choose) (f.unfold choose depth id progress)
      (fun x => ⟨top.add [x.1] pending, around, x.2⟩) result) :
    Ends (f.makeRound choose) ⟨top.add [] (id :: pending), around, progress⟩ result := by
  induction depth generalizing id progress top pending around with
  | zero => exact hdepth.elim
  | succ depth ih =>
    rw [unfold_succ, endsAfter_bind] at hends
    cases hx : f.enter choose id progress with
    | error e =>
      rw [hx] at hends
      exact hends ▸ .done (by simp only [makeRound, Frame.pending_add, hx])
    | ok x =>
      rw [hx] at hends
      obtain ⟨t | frame, progress'⟩ := x
      · exact .next (makeRound_leaf hx) hends
      · refine .next (makeRound_branch hx) ?_
        rw [← frame.add_nil_pending]
        refine ends_unfoldAll (fun child hc => ih (hdepth child ?_)) ?_
        · obtain ⟨A, i, j, as, k, a, state, hn, -, ha, rfl, -⟩ := enter_eq_branch hx
          exact mem_children_of_getElem? hn ha hc
        · dsimp only at hends
          rw [endsAfter_bind] at hends
          generalize unfoldAll (f.unfold choose depth) frame.pending progress' = y at hends ⊢
          cases y with
          | error e => exact hends
          | ok y => exact .next makeRound_done hends

/-- The making of a tree with a stack comes to its end, with what the recursion gives. -/
theorem makes_iff (hdepth : f.EndsWithin depth id) :
    f.Makes choose id progress result ↔ result = f.unfold choose depth id progress := by
  cases depth with
  | zero => exact hdepth.elim
  | succ depth =>
    rw [unfold_succ]
    unfold Makes
    cases hx : f.enter choose id progress with
    | error e => rfl
    | ok x =>
      obtain ⟨t | frame, progress'⟩ := x
      · rfl
      · dsimp only
        rw [← frame.add_nil_pending]
        refine Ends.iff_eq (ends_unfoldAll (fun child hc => ends_unfold (hdepth child ?_)) ?_)
        · obtain ⟨A, i, j, as, k, a, state, hn, -, ha, rfl, -⟩ := enter_eq_branch hx
          exact mem_children_of_getElem? hn ha hc
        · simp only [bind, Except.bind, Frame.add_add, List.nil_append, Frame.pending_add]
          generalize unfoldAll (f.unfold choose depth) frame.pending progress' = y
          cases y with
          | error e => rfl
          | ok y => exact .done rfl

end Make

end Forest

end EarleyForest
