import EarleyForest.Proofs.Forest.Faultless
import EarleyForest.Proofs.Forest.Records

/-!
# Cursors of derivations

Unfolding along the record of a derivation gives the derivation (`Unfolds.unfold_eq`), whether the
record is given in full or first alternatives complete it (`Takes`). The check of the record goes
through and gives the numbers of alternatives at its nodes (`Unfolds.replay_eq`).
-/

namespace EarleyForest

variable {T N : Type}

/-! ## Choices that are followed -/

/-- Following the choices `ahead`, and taking first alternatives once they are used up, records `r`
and leaves `rest`. -/
inductive Takes : List Choice → List Choice → List Choice → Prop where
  | nil (ahead : List Choice) : Takes ahead [] ahead
  | ahead {ahead r rest : List Choice} (c : Choice) (h : Takes ahead r rest) :
    Takes (c :: ahead) (c :: r) rest
  | first {r rest : List Choice} (id : NodeId) (h : Takes [] r rest) : Takes [] (⟨id, 0⟩ :: r) rest

namespace Takes

variable {ahead mid rest r s : List Choice}

theorem append (h : Takes ahead r mid) (h' : Takes mid s rest) : Takes ahead (r ++ s) rest := by
  induction h with
  | nil => exact h'
  | ahead c _ ih => exact .ahead c (ih h')
  | first id _ ih => exact .first id (ih h')

theorem exists_of_append (h : Takes ahead (r ++ s) rest) :
    ∃ mid, Takes ahead r mid ∧ Takes mid s rest := by
  induction r generalizing ahead with
  | nil => exact ⟨ahead, .nil ahead, h⟩
  | cons c r ih =>
    cases h with
    | ahead _ h =>
      obtain ⟨mid, hr, hs⟩ := ih h
      exact ⟨mid, .ahead c hr, hs⟩
    | first id h =>
      obtain ⟨mid, hr, hs⟩ := ih h
      exact ⟨mid, .first id hr, hs⟩

theorem prepend (r : List Choice) (h : Takes ahead s rest) : Takes (r ++ ahead) (r ++ s) rest := by
  induction r with
  | nil => exact h
  | cons c r ih => exact .ahead c ih

/-- Nothing comes before a record of first alternatives. -/
theorem not_precedes (h : Takes [] r rest) : ¬ Precedes s r := by
  intro hlt
  induction hlt with
  | here hlt =>
    cases h with
    | first => omega
  | later c _ ih =>
    cases h with
    | first _ h => exact ih h

/-- Where choices are recorded, the next alternative is the one taken. -/
theorem chooseAhead_eq {id : NodeId} {k count : Nat} (hk : k < count)
    (h : Takes ahead (recordChoice id k count ++ r) rest) (recorded : Array Choice) :
    ∃ mid, (Forest.chooseAhead id count ⟨ahead, recorded⟩ :
        Except (ForestError N) (Nat × Forest.Trail)) =
      .ok (k, ⟨mid, recorded ++ (recordChoice id k count).toArray⟩) ∧ Takes mid r rest := by
  unfold Forest.chooseAhead
  unfold recordChoice at h ⊢
  split
  · rename_i hcount
    rw [if_neg (by omega)] at h ⊢
    obtain rfl : k = 0 := by omega
    exact ⟨ahead, by simp, h⟩
  · rw [if_pos (by omega)] at h ⊢
    cases h with
    | ahead c h => exact ⟨_, by simp, h⟩
    | first id h => exact ⟨_, by simp, h⟩

end Takes

variable [DecidableEq N] [SearchKey N] {g : Grammar T N} {f : Forest g}

namespace Forest

mutual

/-- Unfolding along the record of a derivation gives the derivation. -/
theorem Unfolds.unfold_eq {id : NodeId} {t : ParseTree T N} {r ahead rest : List Choice}
    {depth : Nat} (recorded : Array Choice) (weight : Cost) :
    f.Unfolds id t r → f.EndsWithin depth id → Takes ahead r rest →
      ∃ weight', f.unfold chooseAhead depth id ⟨⟨ahead, recorded⟩, weight⟩ =
        .ok (t, ⟨⟨rest, recorded ++ r.toArray⟩, weight'⟩)
  | .leaf hn ht, hdepth, .nil _ => by
    match depth, hdepth with
    | depth + 1, _ => exact ⟨weight, by rw [unfold_terminal hn ht, Array.append_empty]⟩
  | .branch (a := a) hn ha hs, hdepth, htakes => by
    rename_i k as ts choices
    match depth, hdepth with
    | depth + 1, hdepth =>
      obtain ⟨hk, -⟩ := List.getElem?_eq_some_iff.1 ha
      obtain ⟨mid, hchoose, htakes⟩ := htakes.chooseAhead_eq hk recorded
      obtain ⟨weight', hall⟩ := hs.unfoldAll_eq
        (recorded ++ (recordChoice id k as.length).toArray) (weight + g.cost a.rule)
        (fun child hc => hdepth child (mem_children_of_getElem? hn ha hc)) htakes
      refine ⟨weight', ?_⟩
      rw [unfold_nonterminal hn (List.ne_nil_of_length_pos (Nat.zero_lt_of_lt hk)), hchoose]
      simp only [bind, Except.bind, ha, hall, Array.append_assoc, List.append_toArray]
      rfl

theorem UnfoldsAll.unfoldAll_eq {ids : List NodeId} {ts : List (ParseTree T N)}
    {r ahead rest : List Choice} {depth : Nat} (recorded : Array Choice) (weight : Cost) :
    f.UnfoldsAll ids ts r → (∀ id ∈ ids, f.EndsWithin depth id) → Takes ahead r rest →
      ∃ weight', unfoldAll (f.unfold chooseAhead depth) ids ⟨⟨ahead, recorded⟩, weight⟩ =
        .ok (ts, ⟨⟨rest, recorded ++ r.toArray⟩, weight'⟩)
  | .nil, _, .nil _ => ⟨weight, by rw [unfoldAll, Array.append_empty]⟩
  | .cons h hs, hdepth, htakes => by
    obtain ⟨mid, hr, hrs⟩ := htakes.exists_of_append
    obtain ⟨weight', ht⟩ := h.unfold_eq recorded weight (hdepth _ List.mem_cons_self) hr
    obtain ⟨weight'', hts⟩ := hs.unfoldAll_eq _ weight'
      (fun id hid => hdepth id (List.mem_cons_of_mem _ hid)) hrs
    exact ⟨weight'', by rw [unfoldAll_cons ht hts]; simp⟩

end

/-! ## The check of a cursor -/

/-- The number of alternatives at the node of a choice. -/
def countAt (f : Forest g) (c : Choice) : Nat := (f.alternatives c.node).length

mutual

/-- Records take alternatives that are there. -/
theorem Unfolds.lt_countAt {id : NodeId} {t : ParseTree T N} {r : List Choice} :
    f.Unfolds id t r → ∀ c ∈ r, c.alternative < f.countAt c
  | .leaf _ _ => nofun
  | .branch hn ha hs => by
    refine List.forall_mem_append.2 ⟨fun c hc => ?_, hs.lt_countAt⟩
    unfold recordChoice at hc
    split at hc
    · rw [List.mem_singleton.1 hc, countAt, alternatives_eq hn]
      exact (List.getElem?_eq_some_iff.1 ha).1
    · cases hc

theorem UnfoldsAll.lt_countAt {ids : List NodeId} {ts : List (ParseTree T N)} {r : List Choice} :
    f.UnfoldsAll ids ts r → ∀ c ∈ r, c.alternative < f.countAt c
  | .nil => nofun
  | .cons h hs => List.forall_mem_append.2 ⟨h.lt_countAt, hs.lt_countAt⟩

end

/-- A visit takes the choice that is recorded at the node. -/
theorem replayAt_nonterminal {id : NodeId} {A : N} {i j k given : Nat} {as : List Alternative}
    {a : Alternative} (hn : f.node? id = some (.nonterminal A i j as)) (ha : as[k]? = some a)
    (rest : List Choice) (counts : Array Nat) :
    f.replayAt given ⟨recordChoice id k as.length ++ rest, counts⟩ id =
      .ok (a.children,
        ⟨rest, counts ++ ((recordChoice id k as.length).map f.countAt).toArray⟩) := by
  match as with
  | [] => simp at ha
  | [b] =>
    obtain ⟨hk, rfl⟩ := List.getElem?_eq_some_iff.1 ha
    obtain rfl : k = 0 := Nat.lt_one_iff.1 hk
    simp [replayAt, hn, recordChoice]
  | b :: b' :: bs =>
    simp [replayAt, hn, recordChoice, ha, countAt, alternatives_eq hn, Node.alternatives]

mutual

/-- The check of the record of a derivation goes through. -/
theorem Unfolds.replayFrom_eq (given : Nat) {id : NodeId} {t : ParseTree T N} {r : List Choice}
    {depth : Nat} (rest : List Choice) (counts : Array Nat) :
    f.Unfolds id t r → f.EndsWithin depth id → f.replayFrom given depth ⟨r ++ rest, counts⟩ id =
      .ok ⟨rest, counts ++ (r.map f.countAt).toArray⟩
  | .leaf hn _, hdepth => by
    match depth, hdepth with
    | depth + 1, _ => simp [replayFrom, replayAt, hn, bind, Except.bind, pure, Except.pure]
  | .branch hn ha hs, hdepth => by
    match depth, hdepth with
    | depth + 1, hdepth =>
      rw [List.append_assoc, replayFrom, replayAt_nonterminal hn ha]
      refine (hs.replayFrom_eq given rest _ fun child hc =>
        hdepth child (mem_children_of_getElem? hn ha hc)).trans ?_
      simp

theorem UnfoldsAll.replayFrom_eq (given : Nat) {ids : List NodeId} {ts : List (ParseTree T N)}
    {r : List Choice} {depth : Nat} (rest : List Choice) (counts : Array Nat) :
    f.UnfoldsAll ids ts r → (∀ id ∈ ids, f.EndsWithin depth id) →
      ids.foldlM (f.replayFrom given depth) ⟨r ++ rest, counts⟩ =
        .ok ⟨rest, counts ++ (r.map f.countAt).toArray⟩
  | .nil, _ => by
    rw [List.map_nil, Array.append_empty]
    rfl
  | .cons h hs, hdepth => by
    rw [List.append_assoc, List.foldlM_cons,
      h.replayFrom_eq given _ counts (hdepth _ List.mem_cons_self)]
    refine (hs.replayFrom_eq given rest _ fun id hid =>
      hdepth id (List.mem_cons_of_mem _ hid)).trans ?_
    simp

end

section

variable {root : NodeId} {t : ParseTree T N} {r choices : List Choice}

/-- The record of a derivation is accepted. -/
theorem Unfolds.replay_eq (h : f.Unfolds root t r) (hends : f.EndsWithin f.size root) :
    f.replay root ⟨r⟩ = .ok (r.map f.countAt) := by
  have hreplay := h.replayFrom_eq r.length [] #[] (hends.depthBound r.length)
  rw [List.append_nil, Array.empty_append] at hreplay
  simp only [replay, hreplay, bind, Except.bind]
  rfl

theorem Unfolds.successor_eq (h : f.Unfolds root t r) (hends : f.EndsWithin f.size root) :
    f.successor root ⟨r⟩ = .ok (bumpLast (r.zip (r.map f.countAt))) := by
  simp only [successor, h.replay_eq hends, bind, Except.bind]
  rfl

/-- Choices that begin a record, and go on with first alternatives, lead to its derivation. -/
theorem Unfolds.firstFrom_eq (h : f.Unfolds root t r) (hends : f.EndsWithin f.size root)
    (htakes : Takes choices r []) :
    ∃ weight, f.firstFrom root choices = .ok ⟨⟨t, weight⟩, ⟨r⟩⟩ := by
  obtain ⟨weight, hunfold⟩ := h.unfold_eq #[] 0 (hends.depthBound choices.length) htakes
  refine ⟨weight, ?_⟩
  rw [firstFrom, hunfold]
  simp only [bind, Except.bind, Array.empty_append]
  rfl

/-- A derivation that is given is the first one that begins with certain choices: any at all, or
those behind the cursor. -/
theorem exists_firstFrom_of_nextParse {cursor? : Option Directions} {next : NextParse T N}
    (h : f.nextParse cursor? = .ok (some next)) : ∃ root choices, f.root? = some root ∧
      f.firstFrom root choices = .ok next ∧
      match cursor? with
      | none => choices = []
      | some d => f.successor root d = .ok (some choices) := by
  unfold nextParse at h
  split at h
  · cases h
  · rename_i root hroot
    split at h
    · obtain ⟨first, hfirst, heq⟩ := map_eq_ok_iff.1 (mapError_eq_ok_iff.1 h)
      cases heq
      exact ⟨root, [], hroot, hfirst, rfl⟩
    · obtain ⟨choices?, hsuccessor, h⟩ := bind_eq_ok_iff.1 h
      split at h
      · cases h
      · rename_i choices
        obtain ⟨first, hfirst, heq⟩ := map_eq_ok_iff.1 (mapError_eq_ok_iff.1 h)
        cases heq
        exact ⟨root, choices, hroot, hfirst, hsuccessor⟩

end

end Forest

end EarleyForest
