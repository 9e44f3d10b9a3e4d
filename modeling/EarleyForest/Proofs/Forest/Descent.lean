import EarleyForest.Forest.Descent
import EarleyForest.Proofs.Forest.Following

/-!
# Making a tree is going down

Where going down from a node comes to an end it has a result (`exists_descends`), and the loop with a
stack of frames follows it round by round: a pending child is made, with all below it, before the next
one, and an error ends everything (`Descends.continues`). So the loop ends with that result and no
other (`Descends.materializes_iff`). What is asked on the way are the questions of the nodes that are
visited (`Descends.recording`), the nodes before an error have been entered without one
(`Descends.entersAll`), and the tree shows all that are visited (`Descends.shows`). So much is put
together in `materializes_iff_descends`.
-/

namespace EarleyForest

theorem ne_nil_of_getElem? {α : Type} {l : List α} {k : Nat} {a : α} (h : l[k]? = some a) :
    l ≠ [] := List.ne_nil_of_mem (List.mem_of_getElem? h)

variable {T N : Type} [DecidableEq N] [SearchKey N] {g : Grammar T N} {f : Forest g} {σ : Type}
  {choose : Chooser N σ}

namespace Forest

variable {id : NodeId} {ids visited : List NodeId} {progress progress' : Progress σ}

/-! ## Entering a node -/

theorem Fails.enterBy_eq {e : ForestError N} (h : f.Fails choose id progress e progress') :
    f.enterBy choose id progress = (.error e, progress') := by
  cases h with
  | missingToken hn ht => simp only [enterBy, hn, ht]
  | noAlternatives hn => simp only [enterBy, hn, List.isEmpty_nil, if_true]
  | refused hn has hk => simp [enterBy, hn, has, hk]
  | missingAlternative hn has hk ha => simp [enterBy, hn, has, hk, ha]

theorem enterBy_leaf {token : Nat} {t : Token T} (hn : f.node? id = some (.terminal token))
    (ht : f.tokens[token]? = some t) :
    f.enterBy choose id progress = (.ok (.leaf (.leaf t)), progress) := by
  simp only [enterBy, hn, ht]

theorem enterBy_branch {A : N} {i j k : Nat} {as : List Alternative} {a : Alternative} {state : σ}
    (hn : f.node? id = some (.nonterminal A i j as))
    (hk : choose id as.length progress.state = (.ok k, state)) (ha : as[k]? = some a) :
    f.enterBy choose id progress = (.ok (.branch ⟨A, a.rule, i, j, a.children, []⟩),
      ⟨state, progress.weight + g.cost a.rule⟩) := by
  simp [enterBy, hn, ne_nil_of_getElem? ha, hk, ha]

/-! ## Going down comes to an end -/

/-- At every node there is an error, or a token, or an alternative that is chosen. -/
theorem exists_descends_of_children (hid : id < f.size)
    (h : ∀ as : List NodeId, (∀ child ∈ as, child ∈ f.children id) → ∀ progress,
      ∃ visited result progress', f.DescendsAll choose as progress visited result progress') :
    ∃ visited result progress', f.Descends choose id progress visited result progress' := by
  obtain ⟨node, hn⟩ : ∃ node, f.node? id = some node := ⟨_, Array.getElem?_eq_getElem hid⟩
  cases node with
  | terminal token =>
    cases ht : f.tokens[token]? with
    | none => exact ⟨_, _, _, .fail (.missingToken hn ht)⟩
    | some t => exact ⟨_, _, _, .leaf hn ht⟩
  | nonterminal A i j as =>
    by_cases has : as = []
    · subst has
      exact ⟨_, _, _, .fail (.noAlternatives hn)⟩
    · obtain ⟨answer, state, hk⟩ :
          ∃ answer state, choose id as.length progress.state = (answer, state) := ⟨_, _, rfl⟩
      cases answer with
      | error e => exact ⟨_, _, _, .fail (.refused hn has hk)⟩
      | ok k =>
        cases ha : as[k]? with
        | none => exact ⟨_, _, _, .fail (.missingAlternative hn has hk ha)⟩
        | some a =>
          obtain ⟨visited, result, progress', hs⟩ :=
            h a.children (fun child hc => mem_children_of_getElem? hn ha hc)
              ⟨state, progress.weight + g.cost a.rule⟩
          exact ⟨_, _, _, .branch hn hk ha hs⟩

theorem exists_descends {depth : Nat} (hrange : ∀ id, ∀ child ∈ f.children id, child < f.size)
    (hdepth : f.EndsWithin depth id) (hid : id < f.size) (progress : Progress σ) :
    ∃ visited result progress', f.Descends choose id progress visited result progress' := by
  induction depth generalizing id progress with
  | zero => exact hdepth.elim
  | succ depth ih =>
    refine exists_descends_of_children hid fun ids hids => ?_
    induction ids with
    | nil => exact fun progress => ⟨_, _, _, .nil⟩
    | cons child ids ihs =>
      intro progress
      rw [List.forall_mem_cons] at hids
      have hchild := hrange id child hids.1
      obtain ⟨visited, result, mid, h⟩ := ih (hdepth child hids.1) hchild progress
      cases result with
      | error e => exact ⟨_, _, _, .fail h⟩
      | ok t =>
        obtain ⟨visited', result', progress', hs⟩ := ihs hids.2 mid
        exact ⟨_, _, _, .cons h hs⟩

/-! ## The loop follows -/

variable {α β : Type} {m m' : Making T N σ} {next : α → Making T N σ}
  {result : Except (ForestError N) α}

/-- From `m` the loop goes on with what is made of the result, or ends with the error. -/
def Continues (f : Forest g) (choose : Chooser N σ) (m : Making T N σ)
    (result : Except (ForestError N) α) (next : α → Making T N σ) (progress' : Progress σ) : Prop :=
  match result with
  | .error e => Ends (f.materializeRound choose) m (.error e, progress')
  | .ok a => Passes (f.materializeRound choose) m (next a)

namespace Continues

theorem of_passes (h : Passes (f.materializeRound choose) m m')
    (h' : f.Continues choose m' result next progress') :
    f.Continues choose m result next progress' := by
  cases result with
  | error e => exact h.prepend h'
  | ok a => exact h.trans h'

/-- The loop may go on behind the result, if there is one. -/
theorem map {make : α → β} {next' : β → Making T N σ}
    (h : f.Continues choose m result next progress')
    (h' : ∀ a, Passes (f.materializeRound choose) (next a) (next' (make a))) :
    f.Continues choose m (result.map make) next' progress' := by
  cases result with
  | error e => exact h
  | ok a => exact h.trans (h' a)

end Continues

mutual

/-- A pending child is made, with all below it, before anything else. -/
theorem Descends.continues {id : NodeId} {visited : List NodeId} {progress progress' : Progress σ}
    {result : Except (ForestError N) (ParseTree T N)} :
    f.Descends choose id progress visited result progress' →
    ∀ (top : Frame T N) (pending : List NodeId) (around : List (Frame T N)),
      f.Continues choose ⟨top.add [] (id :: pending), around, progress⟩ result
        (fun t => ⟨top.add [t] pending, around, progress'⟩) progress'
  | .fail h, top, pending, around => by
    refine .done ?_
    simp only [materializeRound, Frame.pending_add, h.enterBy_eq]
  | .leaf hn ht, top, pending, around => by
    refine .tail .refl ?_
    simp only [materializeRound, Frame.pending_add, enterBy_leaf hn ht, Frame.add_add,
      List.nil_append]
  | .branch (A := A) (a := a) (i := i) (j := j) hn hk ha hs, top, pending, around => by
    have hall := hs.continues ⟨A, a.rule, i, j, a.children, []⟩ (top.add [] pending :: around)
    refine .of_passes (.tail .refl ?_) (hall.map fun ts => .tail .refl ?_)
    · simp only [materializeRound, Frame.pending_add, enterBy_branch hn hk ha, Frame.add_add,
        List.nil_append]
      rfl
    · simp only [materializeRound, Frame.pending_add, Frame.add_add, List.nil_append]
      rfl

/-- Pending children are made one after the other. -/
theorem DescendsAll.continues {ids visited : List NodeId} {progress progress' : Progress σ}
    {result : Except (ForestError N) (List (ParseTree T N))} :
    f.DescendsAll choose ids progress visited result progress' →
    ∀ (top : Frame T N) (around : List (Frame T N)),
      f.Continues choose ⟨top.add [] ids, around, progress⟩ result
        (fun ts => ⟨top.add ts [], around, progress'⟩) progress'
  | .nil, top, around => .refl
  | .fail h, top, around => h.continues top _ around
  | .cons h hs, top, around => by
    refine .of_passes (h.continues top _ around) ?_
    beta_reduce
    rw [← Frame.add_nil_pending (top.add _ _)]
    refine (hs.continues _ around).map fun ts => ?_
    rw [Frame.add_add]
    exact .refl

end

/-- The loop ends with what going down gives. -/
theorem Descends.materializes {result : Except (ForestError N) (ParseTree T N)}
    (h : f.Descends choose id progress visited result progress') :
    f.Materializes choose id progress (result, progress') := by
  unfold Materializes
  cases h with
  | fail h => rw [h.enterBy_eq]
  | leaf hn ht => rw [enterBy_leaf hn ht]
  | @branch _ A i j k as a _ _ _ _ result hn hk ha hs =>
    rw [enterBy_branch hn hk ha]
    have hall := hs.continues ⟨A, a.rule, i, j, a.children, []⟩ []
    cases result with
    | error e => exact hall
    | ok ts => exact hall.prepend (.done rfl)

theorem Materializes.unique {outcome outcome' : Except (ForestError N) (ParseTree T N) × Progress σ}
    (h : f.Materializes choose id progress outcome)
    (h' : f.Materializes choose id progress outcome') : outcome = outcome' := by
  unfold Materializes at h h'
  generalize f.enterBy choose id progress = x at h h'
  match x with
  | (.error _, _) => exact h.trans h'.symm
  | (.ok (.leaf _), _) => exact h.trans h'.symm
  | (.ok (.branch _), _) => exact Ends.unique h h'

/-- It ends with nothing else. -/
theorem Descends.materializes_iff {result : Except (ForestError N) (ParseTree T N)}
    {outcome : Except (ForestError N) (ParseTree T N) × Progress σ}
    (h : f.Descends choose id progress visited result progress') :
    f.Materializes choose id progress outcome ↔ outcome = (result, progress') :=
  ⟨fun h' => h'.unique h.materializes, fun heq => heq ▸ h.materializes⟩

/-! ## What is asked -/

theorem question?_terminal {token : Nat} (hn : f.node? id = some (.terminal token)) :
    f.question? id = none := by
  simp only [question?, hn]

theorem question?_nil {A : N} {i j : Nat} (hn : f.node? id = some (.nonterminal A i j [])) :
    f.question? id = none := by
  simp only [question?, hn]

theorem question?_nonterminal {A : N} {i j : Nat} {as : List Alternative}
    (hn : f.node? id = some (.nonterminal A i j as)) (has : as ≠ []) :
    f.question? id = some ⟨id, as.length⟩ := by
  cases as with
  | nil => exact absurd rfl has
  | cons a as => simp only [question?, hn]

omit [DecidableEq N] [SearchKey N] in
theorem recording_eq {count : Nat} {state state' : σ} {answer : Except (ForestError N) Nat}
    (h : choose id count state = (answer, state')) (asked : List Question) :
    choose.recording id count (state, asked) = (answer, (state', asked ++ [⟨id, count⟩])) := by
  simp only [Chooser.recording, h]

theorem Fails.recording {e : ForestError N} (h : f.Fails choose id progress e progress')
    (asked : List Question) : f.Fails choose.recording id (progress.withAsked asked) e
      (progress'.withAsked (asked ++ [id].filterMap f.question?)) := by
  cases h with
  | missingToken hn ht =>
    rw [List.filterMap_cons_none (question?_terminal hn), List.filterMap_nil, List.append_nil]
    exact .missingToken hn ht
  | noAlternatives hn =>
    rw [List.filterMap_cons_none (question?_nil hn), List.filterMap_nil, List.append_nil]
    exact .noAlternatives hn
  | refused hn has hk =>
    rw [List.filterMap_cons_some (question?_nonterminal hn has), List.filterMap_nil]
    exact .refused hn has (recording_eq hk asked)
  | missingAlternative hn has hk ha =>
    rw [List.filterMap_cons_some (question?_nonterminal hn has), List.filterMap_nil]
    exact .missingAlternative hn has (recording_eq hk asked) ha

mutual

/-- To write down what is asked changes nothing else, and the questions are those of the nodes that
are visited. -/
theorem Descends.recording {id : NodeId} {visited : List NodeId} {progress progress' : Progress σ}
    {result : Except (ForestError N) (ParseTree T N)} :
    f.Descends choose id progress visited result progress' → ∀ asked : List Question,
      f.Descends choose.recording id (progress.withAsked asked) visited result
        (progress'.withAsked (asked ++ visited.filterMap f.question?))
  | .fail h, asked => .fail (h.recording asked)
  | .leaf hn ht, asked => by
    rw [List.filterMap_cons_none (question?_terminal hn), List.filterMap_nil, List.append_nil]
    exact .leaf hn ht
  | .branch hn hk ha hs, asked => by
    rw [List.filterMap_cons_some (question?_nonterminal hn (ne_nil_of_getElem? ha)),
      List.append_cons]
    exact .branch hn (recording_eq hk asked) ha (hs.recording _)

theorem DescendsAll.recording {ids visited : List NodeId} {progress progress' : Progress σ}
    {result : Except (ForestError N) (List (ParseTree T N))} :
    f.DescendsAll choose ids progress visited result progress' → ∀ asked : List Question,
      f.DescendsAll choose.recording ids (progress.withAsked asked) visited result
        (progress'.withAsked (asked ++ visited.filterMap f.question?))
  | .nil, asked => by
    rw [List.filterMap_nil, List.append_nil]
    exact .nil
  | .fail h, asked => .fail (h.recording asked)
  | .cons h hs, asked => by
    rw [List.filterMap_append, ← List.append_assoc]
    exact .cons (h.recording asked) (hs.recording _)

end

/-! ## The first error -/

section Enters

variable {visited' : List NodeId} {mid : Progress σ} {result : Except (ForestError N) α}

theorem EntersAll.append (h : f.EntersAll choose visited progress mid)
    (h' : f.EntersAll choose visited' mid progress') :
    f.EntersAll choose (visited ++ visited') progress progress' := by
  induction h with
  | nil => exact h'
  | cons h _ ih => exact .cons h (ih h')

namespace StopsAtFirst

/-- Nodes that are entered before do not matter. -/
theorem append (h : f.EntersAll choose visited progress mid)
    (h' : f.StopsAtFirst choose visited' mid result progress') :
    f.StopsAtFirst choose (visited ++ visited') progress result progress' := by
  cases result with
  | ok a => exact EntersAll.append h h'
  | error e =>
    obtain ⟨before, last, mid', rfl, hbefore, hlast⟩ := h'
    exact ⟨visited ++ before, last, mid', (List.append_assoc ..).symm, h.append hbefore, hlast⟩

theorem map {make : α → β} (h : f.StopsAtFirst choose visited progress result progress') :
    f.StopsAtFirst choose visited progress (result.map make) progress' := by
  cases result <;> exact h

end StopsAtFirst

end Enters

mutual

/-- Going down stops at the first error. -/
theorem Descends.stopsAtFirst {id : NodeId} {visited : List NodeId}
    {progress progress' : Progress σ} {result : Except (ForestError N) (ParseTree T N)} :
    f.Descends choose id progress visited result progress' →
      f.StopsAtFirst choose visited progress result progress'
  | .fail h => ⟨[], id, progress, rfl, .nil, h⟩
  | .leaf hn ht => .cons (enterBy_leaf hn ht) .nil
  | .branch hn hk ha hs =>
    (StopsAtFirst.append (.cons (enterBy_branch hn hk ha) .nil) hs.stopsAtFirst).map

theorem DescendsAll.stopsAtFirst {ids visited : List NodeId} {progress progress' : Progress σ}
    {result : Except (ForestError N) (List (ParseTree T N))} :
    f.DescendsAll choose ids progress visited result progress' →
      f.StopsAtFirst choose visited progress result progress'
  | .nil => .nil
  | .fail h => h.stopsAtFirst
  | .cons h hs => (StopsAtFirst.append h.stopsAtFirst hs.stopsAtFirst).map

end

/-! ## The tree -/

theorem DescendsAll.length_eq {ts : List (ParseTree T N)}
    {result : Except (ForestError N) (List (ParseTree T N))}
    (h : f.DescendsAll choose ids progress visited result progress') (hts : result = .ok ts) :
    ts.length = ids.length := by
  induction ids generalizing progress visited result ts with
  | nil =>
    cases h
    cases hts
    rfl
  | cons id ids ih =>
    cases h with
    | fail h => cases hts
    | cons h hs =>
      obtain ⟨us, hus, rfl⟩ := map_eq_ok_iff.1 hts
      rw [List.length_cons, List.length_cons, ih hs hus]

mutual

/-- In preorder the nodes of the tree are those that are visited. -/
theorem Descends.shows {id : NodeId} {visited : List NodeId} {progress progress' : Progress σ}
    {result : Except (ForestError N) (ParseTree T N)} :
    f.Descends choose id progress visited result progress' → ∀ t, result = .ok t →
      List.Forall₂ f.Shows visited t.preorder
  | .fail _, _, ht => by cases ht
  | .leaf hn ht, _, heq => by
    cases heq
    rw [ParseTree.preorder_eq]
    exact .cons (.leaf hn ht) .nil
  | .branch hn hk ha hs, t, ht => by
    obtain ⟨ts, hts, rfl⟩ := map_eq_ok_iff.1 ht
    rw [ParseTree.preorder_eq]
    exact .cons (.branch hn ha (hs.length_eq hts)) (hs.shows ts hts)

theorem DescendsAll.shows {ids visited : List NodeId} {progress progress' : Progress σ}
    {result : Except (ForestError N) (List (ParseTree T N))} :
    f.DescendsAll choose ids progress visited result progress' → ∀ ts, result = .ok ts →
      List.Forall₂ f.Shows visited (ts.flatMap ParseTree.preorder)
  | .nil, _, hts => by
    cases hts
    exact .nil
  | .fail _, _, hts => by cases hts
  | .cons h hs, _, hts => by
    obtain ⟨us, hus, rfl⟩ := map_eq_ok_iff.1 hts
    rw [List.flatMap_cons]
    exact List.rel_append (h.shows _ rfl) (hs.shows us hus)

end

/-! ## Levels -/

/-- The result, and with a tree what has become of the state and of the weight. -/
def keep (outcome : Except (ForestError N) α × Progress σ) :
    Except (ForestError N) (α × Progress σ) :=
  outcome.1.map (·, outcome.2)

theorem enter_forgetting (f : Forest g) (choose : Chooser N σ) (id : NodeId)
    (progress : Progress σ) :
    f.enter choose.forgetting id progress = keep (f.enterBy choose id progress) := by
  unfold enter enterBy
  cases f.node? id with
  | none => rfl
  | some node =>
    cases node with
    | terminal token =>
      dsimp only
      cases f.tokens[token]? <;> rfl
    | nonterminal A i j as =>
      cases as with
      | nil => rfl
      | cons a as =>
        simp only [List.isEmpty_cons, Chooser.forgetting]
        obtain ⟨answer, state⟩ := choose id (a :: as).length progress.state
        cases answer with
        | error e => rfl
        | ok k =>
          simp only [Except.map, bind, Except.bind, pure, Except.pure]
          cases (a :: as)[k]? <;> rfl

theorem makeRound_forgetting (f : Forest g) (choose : Chooser N σ) (m : Making T N σ) :
    f.makeRound choose.forgetting m =
      Sum.map (fun m => m) keep (f.materializeRound choose m) := by
  obtain ⟨top, around, progress⟩ := m
  simp only [makeRound, materializeRound]
  cases top.pending with
  | nil => cases around <;> rfl
  | cons child pending =>
    simp only [enter_forgetting]
    match f.enterBy choose child progress with
    | (.error _, _) => rfl
    | (.ok (.leaf _), _) => rfl
    | (.ok (.branch _), _) => rfl

/-- The loop that forgets the state with an error ends where the other one does. -/
theorem Materializes.makes {outcome : Except (ForestError N) (ParseTree T N) × Progress σ}
    (h : f.Materializes choose id progress outcome) :
    f.Makes choose.forgetting id progress (keep outcome) := by
  unfold Materializes at h
  rw [Makes, enter_forgetting]
  generalize f.enterBy choose id progress = x at h
  match x with
  | (.error _, _) => exact congrArg keep h
  | (.ok (.leaf _), _) => exact congrArg keep h
  | (.ok (.branch _), _) =>
    have hends : Ends (f.materializeRound choose) _ outcome := h
    exact hends.map (I := fun _ => True) trivial (fun _ _ _ _ => trivial)
      fun m _ => makeRound_forgetting f choose m

/-- With levels enough going down is what unfolding does. -/
theorem Descends.unfold_eq {result : Except (ForestError N) (ParseTree T N)} {depth : Nat}
    (h : f.Descends choose id progress visited result progress')
    (hdepth : f.EndsWithin depth id) :
    f.unfold choose.forgetting depth id progress = result.map (·, progress') :=
  ((makes_iff hdepth).1 h.materializes.makes).symm

/-- The weight grows by the costs of the rules of the tree, up to the cap. -/
theorem Descends.weight_eq {t : ParseTree T N} {depth : Nat}
    (h : f.Descends choose id progress visited (.ok t) progress')
    (hdepth : f.EndsWithin depth id) : progress'.weight.toNat =
      min (progress.weight.toNat + g.totalCost t.rules) 18446744073709551615 := by
  have hruns := runs_of_unfold (h.unfold_eq hdepth)
  rw [hruns.weight_eq, Saturating.toNat_add, ParseTree.weight, Saturating.toNat_ofNat]
  omega

/-- **To make a tree is to go down.** Where no cycle is reached from a node, going down from it has a
result, and the loop with a stack ends with it and with nothing else. The alternatives are asked for
once at each visit of a node that has some, in the order of the visits, up to the first error. A tree
has the nodes that are visited, in preorder, and the weight has grown by the costs of its rules, up
to the cap. The unfolding by levels gives the same. -/
theorem materializes_iff_descends (f : Forest g) (hf : f.InRange) {id : NodeId}
    (hid : id < f.size) (hacyclic : f.AcyclicFrom id) (choose : Chooser N σ)
    (progress : Progress σ) :
    ∃ visited result progress', f.Descends choose id progress visited result progress' ∧
      (∀ outcome, f.Materializes choose id progress outcome ↔ outcome = (result, progress')) ∧
      (∀ asked outcome, f.Materializes choose.recording id (progress.withAsked asked) outcome ↔
        outcome = (result, progress'.withAsked (asked ++ visited.filterMap f.question?))) ∧
      f.StopsAtFirst choose visited progress result progress' ∧
      (∀ t, result = .ok t → List.Forall₂ f.Shows visited t.preorder ∧
        progress'.weight.toNat =
          min (progress.weight.toNat + g.totalCost t.rules) 18446744073709551615) ∧
      ∀ depth ≥ f.size,
        f.unfold choose.forgetting depth id progress = result.map (·, progress') := by
  have hdepth : f.EndsWithin f.size id := hacyclic.endsWithin hf.child_lt hid
  obtain ⟨visited, result, progress', h⟩ := exists_descends hf.child_lt hdepth hid progress
  refine ⟨visited, result, progress', h, fun _ => h.materializes_iff,
    fun asked _ => (h.recording asked).materializes_iff, h.stopsAtFirst, ?_, ?_⟩
  · rintro t rfl
    exact ⟨h.shows t rfl, h.weight_eq hdepth⟩
  · intro depth hle
    exact h.unfold_eq (hdepth.mono hle)

/-- Takes the first alternative and the second one by turns. -/
def byTurns : Chooser Char Nat := fun _ _ turn => (.ok (turn % 2), turn + 1)

/-- The node that stands twice below the root is visited twice, and its alternatives are asked for
each time. -/
theorem materializes_iff_descends_torn : torn.InRange ∧ 0 < torn.size ∧ torn.AcyclicFrom 0 ∧
    ∃ visited t progress', torn.Descends byTurns 0 ⟨0, 0⟩ visited (.ok t) progress' ∧
      visited.filterMap torn.question? = [⟨0, 1⟩, ⟨1, 3⟩, ⟨1, 3⟩] ∧
      t.rules = [.ofNat 0, .ofNat 2, .ofNat 1] ∧ progress'.weight.toNat = 3 := by
  have hsize : 0 < torn.size := by decide +kernel
  have hacyclic := acyclic_torn.acyclicFrom 0
  refine ⟨inRange_torn, hsize, hacyclic, ?_⟩
  obtain ⟨visited, result, progress', h, -, hasked, -⟩ :=
    materializes_iff_descends torn inRange_torn hsize hacyclic byTurns ⟨0, 0⟩
  have hmade := ((hasked [] _).2 rfl).makes
  rw [makes_iff (hacyclic.endsWithin inRange_torn.child_lt hsize)] at hmade
  have hrun : (torn.unfold byTurns.recording.forgetting torn.size 0
      (Progress.withAsked ⟨0, 0⟩ [])).toOption.any (fun (t, progress) =>
        t.rules = [.ofNat 0, .ofNat 2, .ofNat 1] ∧
          progress.state.2 = [⟨0, 1⟩, ⟨1, 3⟩, ⟨1, 3⟩] ∧ progress.weight.toNat = 3) = true := by
    decide +kernel
  rw [← hmade] at hrun
  cases result with
  | error e => cases hrun
  | ok t =>
    obtain ⟨hrules, hquestions, hweight⟩ := of_decide_eq_true hrun
    exact ⟨visited, t, progress', h, hquestions, hrules, hweight⟩

end Forest

end EarleyForest
