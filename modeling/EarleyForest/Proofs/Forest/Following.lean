import EarleyForest.Proofs.Forest.Cheapest
import EarleyForest.Proofs.Forest.Walks

/-!
# Following choices

A cursor that is accepted leads from the root to the end (`leads_of_replay`). Raising one of its
choices leads on too, to some point (`exists_raised_of_successor`), so unfolding can follow the
raised choices to their end (`stays_unfold`), and what it writes down is the record of the
derivation it gives (`Runs.exists_record`). So the two walks agree, whether or not tokens or
alternatives are missing (`walks_agree`).
-/

namespace EarleyForest

variable {T N : Type} [DecidableEq N] [SearchKey N] {g : Grammar T N} {f : Forest g}

namespace Forest

/-- The choices can be followed from where `ids` are left. -/
def Fits (f : Forest g) (ids : List NodeId) (s : List Choice) : Prop := ∃ ids', f.Leads ids s ids'

variable {id : NodeId} {ids ids' : List NodeId} {s : List Choice}

/-! ## Cursors that are accepted -/

/-- A check that goes through has followed choices to the end and counted their alternatives. -/
theorem leads_of_replayFrom {given depth : Nat} {replay replay' : Replay}
    (h : f.replayFrom given depth replay id = .ok replay') :
    ∃ r, f.Leads [id] r [] ∧ replay.ahead = r ++ replay'.ahead ∧
      replay'.counts = replay.counts ++ (r.map f.countAt).toArray := by
  induction depth generalizing id replay replay' with
  | zero => cases h
  | succ depth ih =>
    rw [replayFrom, bind_eq_ok_iff] at h
    obtain ⟨⟨children, mid⟩, hmid, h⟩ := h
    have hall {ids : List NodeId} {replay replay' : Replay}
        (h : ids.foldlM (f.replayFrom given depth) replay = .ok replay') :
        ∃ r, f.Leads ids r [] ∧ replay.ahead = r ++ replay'.ahead ∧
          replay'.counts = replay.counts ++ (r.map f.countAt).toArray := by
      induction ids generalizing replay with
      | nil =>
        cases h
        exact ⟨[], .refl [], rfl, by simp⟩
      | cons id ids ihs =>
        rw [List.foldlM_cons, bind_eq_ok_iff] at h
        obtain ⟨mid, hmid, h⟩ := h
        obtain ⟨r, hr, hahead, hcounts⟩ := ih hmid
        obtain ⟨s, hs, hahead', hcounts'⟩ := ihs h
        exact ⟨r ++ s, hr.cons hs, by rw [hahead, hahead', List.append_assoc],
          by simp [hcounts', hcounts]⟩
    obtain ⟨r, hr, hahead, hcounts⟩ := hall h
    rcases replayAt_cases hmid with ⟨token, hn, rfl, rfl⟩ |
      ⟨A, i, j, as, k, a, hn, ha, rfl, hahead', hcounts'⟩
    · exact ⟨r, .leaf hn hr, hahead, hcounts⟩
    · refine ⟨_, .branch hn ha (by rwa [List.append_nil]), ?_, ?_⟩
      · rw [hahead', hahead, List.append_assoc]
      · simp [hcounts, hcounts']

/-- A cursor that is accepted leads from the root to the end. -/
theorem leads_of_replay {root : NodeId} {d : Directions} {counts : List Nat}
    (h : f.replay root d = .ok counts) :
    f.Leads [root] d.choices [] ∧ counts = d.choices.map f.countAt := by
  obtain ⟨last, hlast, h⟩ := bind_eq_ok_iff.1 h
  obtain ⟨r, hr, hahead, hcounts⟩ := leads_of_replayFrom hlast
  dsimp only at hahead h
  split at h
  · rename_i hempty
    rw [List.isEmpty_iff.1 hempty, List.append_nil] at hahead
    cases h
    exact ⟨hahead ▸ hr, by simp [hcounts, hahead]⟩
  · cases h

/-- One choice of a cursor that is accepted is raised. The choices up to it can be followed from the
root. -/
theorem exists_raised_of_successor {root : NodeId} {d : Directions} {choices : List Choice}
    (h : f.successor root d = .ok (some choices)) : ∃ q c u, d.choices = q ++ c :: u ∧
      choices = q ++ [⟨c.node, c.alternative + 1⟩] ∧ f.Fits [root] choices := by
  obtain ⟨counts, hcounts, h⟩ := bind_eq_ok_iff.1 h
  obtain ⟨hleads, rfl⟩ := leads_of_replay hcounts
  have h := Except.ok.inj h
  rcases bumpLast_cases (f := f) d.choices with ⟨hnone, -⟩ | ⟨q, c, u, hd, hc, -, hsome⟩
  · cases hnone.symm.trans h
  · cases hsome.symm.trans h
    exact ⟨q, c, u, hd, rfl, (hd ▸ hleads).exists_raised hc⟩

/-! ## Unfolding along choices -/

/-- Nothing is left to be followed behind the last node. -/
theorem Fits.eq_nil (h : f.Fits [] s) : s = [] := by
  obtain ⟨ids', h⟩ := h
  cases h
  rfl

theorem Fits.of_terminal {token : Nat} (h : f.Fits (id :: ids) s)
    (hn : f.node? id = some (.terminal token)) : f.Fits ids s := by
  obtain ⟨ids', h⟩ := h
  cases h with
  | refl => exact ⟨ids, .refl ids⟩
  | leaf _ h => exact ⟨ids', h⟩
  | branch hn' _ _ => cases hn.symm.trans hn'

/-- At a node the choice can be made that is to be followed. -/
theorem Fits.chooseAhead {A : N} {i j : Nat} {as : List Alternative} {trail : Trail}
    (h : f.Fits (id :: ids) trail.ahead) (hn : f.node? id = some (.nonterminal A i j as))
    (has : as ≠ []) :
    ∃ k a trail', as[k]? = some a ∧ (Forest.chooseAhead id as.length trail :
        Except (ForestError N) (Nat × Trail)) = .ok (k, trail') ∧
      f.Fits (a.children ++ ids) trail'.ahead := by
  obtain ⟨ids', h⟩ := h
  obtain ⟨ahead, recorded⟩ := trail
  generalize hahead : (⟨ahead, recorded⟩ : Trail).ahead = s at h
  cases h with
  | refl =>
    obtain ⟨a, as, rfl⟩ := List.exists_cons_of_ne_nil has
    obtain rfl : ahead = [] := hahead
    unfold Forest.chooseAhead
    split
    · exact ⟨0, a, _, rfl, rfl, _, .refl _⟩
    · exact ⟨0, a, _, rfl, rfl, _, .refl _⟩
  | leaf hn' _ => cases hn.symm.trans hn'
  | @branch _ k _ _ _ as' a _ _ s hn' ha h =>
    cases hn.symm.trans hn'
    obtain rfl : ahead = recordChoice id k as.length ++ s := hahead
    have htakes := (Takes.nil s).prepend (recordChoice id k as.length)
    obtain ⟨mid, hchoose, hmid⟩ :=
      htakes.chooseAhead_eq (N := N) (List.getElem?_eq_some_iff.1 ha).1 recorded
    cases hmid
    exact ⟨k, a, _, ha, hchoose, ids', h⟩

/-- A computation that blames no choice, and leaves choices that can be followed from where `ids`
are left. -/
def Stays {α : Type} (f : Forest g) (ids : List NodeId)
    (x : Except (ForestError N) (α × Progress Trail)) : Prop :=
  match x with
  | .error e => ∀ fault, e ≠ .invalidDirections fault
  | .ok (_, progress) => f.Fits ids progress.state.ahead

theorem Stays.bind {α β : Type} {x : Except (ForestError N) (α × Progress Trail)}
    {k : α × Progress Trail → Except (ForestError N) (β × Progress Trail)} (h : f.Stays ids x)
    (hk : ∀ a progress, f.Fits ids progress.state.ahead → f.Stays ids' (k (a, progress))) :
    f.Stays ids' (x >>= k) := by
  cases x with
  | error e => exact h
  | ok x => exact hk _ _ h

theorem stays_unfoldAll
    {unfold : NodeId → Progress Trail → Except (ForestError N) (ParseTree T N × Progress Trail)}
    {progress : Progress Trail} (hunfold : ∀ id ∈ ids, ∀ {ids progress},
      f.Fits (id :: ids) progress.state.ahead → f.Stays ids (unfold id progress))
    (h : f.Fits (ids ++ ids') progress.state.ahead) :
    f.Stays ids' (unfoldAll unfold ids progress) := by
  induction ids generalizing progress with
  | nil => exact h
  | cons id ids ih =>
    refine (hunfold id List.mem_cons_self h).bind fun t progress h => ?_
    exact (ih (fun id' hid => hunfold id' (List.mem_cons_of_mem _ hid)) h).bind fun _ _ h => h

/-- Choices that can be followed are followed. -/
theorem stays_unfold (hlt : ∀ id, ∀ child ∈ f.children id, child < f.size) {depth : Nat}
    {progress : Progress Trail} (hid : id < f.size) (hdepth : f.EndsWithin depth id)
    (h : f.Fits (id :: ids) progress.state.ahead) :
    f.Stays ids (f.unfold Forest.chooseAhead depth id progress) := by
  induction depth generalizing id ids progress with
  | zero => exact hdepth.elim
  | succ depth ih =>
    obtain ⟨node, hn⟩ := exists_node hid
    cases node with
    | terminal token =>
      cases ht : f.tokens[token]? with
      | none =>
        simp only [unfold, hn, ht]
        exact fun _ h => by cases h
      | some t =>
        rw [unfold_terminal hn ht]
        exact h.of_terminal hn
    | nonterminal A i j as =>
      cases as with
      | nil =>
        simp only [unfold, hn]
        exact fun _ h => by cases h
      | cons b bs =>
        obtain ⟨k, a, trail, ha, hchoose, h⟩ := h.chooseAhead hn (List.cons_ne_nil b bs)
        rw [unfold_nonterminal hn (List.cons_ne_nil b bs), hchoose]
        simp only [bind, Except.bind, ha]
        have hchild {child : NodeId} (hc : child ∈ a.children) : child ∈ f.children id :=
          mem_children_of_getElem? hn ha hc
        exact (stays_unfoldAll (fun child hc _ _ h =>
          ih (hlt id child (hchild hc)) (hdepth child (hchild hc)) h) h).bind fun _ _ h => h

/-! ## What an unfolding records -/

omit [DecidableEq N] [SearchKey N] in
/-- What is recorded is the choice taken, which is the one ahead or the first one. -/
theorem takes_of_chooseAhead {k count : Nat} {trail trail' : Trail}
    (h : (chooseAhead id count trail : Except (ForestError N) (Nat × Trail)) = .ok (k, trail')) :
    trail'.recorded = trail.recorded ++ (recordChoice id k count).toArray ∧
      Takes trail.ahead (recordChoice id k count) trail'.ahead := by
  unfold chooseAhead at h
  unfold recordChoice
  split at h
  · cases h
    rw [if_neg (by omega)]
    exact ⟨by simp, .nil _⟩
  · rw [if_pos (by omega)]
    split at h
    · rename_i hahead
      cases h
      rw [hahead]
      exact ⟨by simp, .first id (.nil [])⟩
    · rename_i choice ahead hahead
      split at h
      · rename_i hid
        cases h
        rw [hahead, ← hid]
        exact ⟨by simp, .ahead choice (.nil ahead)⟩
      · cases h

mutual

/-- Unfolding along choices records those of the derivation that it gives. -/
theorem Runs.exists_record {t : ParseTree T N} {progress progress' : Progress Trail} {id : NodeId} :
    f.Runs chooseAhead id progress t progress' → ∃ r, f.Unfolds id t r ∧
      progress'.state.recorded = progress.state.recorded ++ r.toArray ∧
      Takes progress.state.ahead r progress'.state.ahead
  | .leaf hn ht => ⟨[], .leaf hn ht, by simp, .nil _⟩
  | .branch hn hk ha hs => by
    obtain ⟨hrecorded, htakes⟩ := takes_of_chooseAhead hk
    obtain ⟨r, hr, hrecorded', htakes'⟩ := hs.exists_recordAll
    exact ⟨_, .branch hn ha hr, by simp [hrecorded', hrecorded], htakes.append htakes'⟩

theorem RunsAll.exists_recordAll {ids : List NodeId} {ts : List (ParseTree T N)}
    {progress progress' : Progress Trail} :
    f.RunsAll chooseAhead ids progress ts progress' → ∃ r, f.UnfoldsAll ids ts r ∧
      progress'.state.recorded = progress.state.recorded ++ r.toArray ∧
      Takes progress.state.ahead r progress'.state.ahead
  | .nil => ⟨[], .nil, by simp, .nil _⟩
  | .cons h hs => by
    obtain ⟨r, hr, hrecorded, htakes⟩ := h.exists_record
    obtain ⟨rs, hrs, hrecorded', htakes'⟩ := hs.exists_recordAll
    exact ⟨r ++ rs, .cons hr hrs, by simp [hrecorded', hrecorded], htakes.append htakes'⟩

end

end Forest

/-- A record begins with the choices that are followed and goes on with first alternatives. -/
theorem Takes.exists_eq_append {ahead r : List Choice} (h : Takes ahead r []) :
    ∃ firsts, r = ahead ++ firsts ∧ ∀ c ∈ firsts, c.alternative = 0 := by
  generalize hrest : ([] : List Choice) = rest at h
  induction h with
  | nil => exact ⟨[], by simp [← hrest], List.forall_mem_nil _⟩
  | ahead c _ ih =>
    obtain ⟨firsts, rfl, hfirsts⟩ := ih hrest
    exact ⟨firsts, rfl, hfirsts⟩
  | first id _ ih =>
    obtain ⟨firsts, heq, hfirsts⟩ := ih hrest
    exact ⟨⟨id, 0⟩ :: firsts, congrArg _ heq, List.forall_mem_cons.2 ⟨rfl, hfirsts⟩⟩

namespace Forest

variable {root : NodeId}

theorem exists_takes_of_firstFrom {choices : List Choice} {next : NextParse T N}
    (h : f.firstFrom root choices = .ok next) :
    f.Unfolds root next.parse.tree next.directions.choices ∧
      ∃ rest, Takes choices next.directions.choices rest := by
  obtain ⟨⟨t, progress⟩, hunfold, heq⟩ := bind_eq_ok_iff.1 h
  cases heq
  obtain ⟨r, hr, hrecorded, htakes⟩ := (runs_of_unfold hunfold).exists_record
  have heq : progress.state.recorded.toList = r := by simp [hrecorded]
  exact ⟨heq ▸ hr, _, heq ▸ htakes⟩

/-- The cursor of a derivation that is given is its record. -/
theorem unfolds_of_nextParse (hroot : f.root? = some root) {cursor? : Option Directions}
    {next : NextParse T N} (h : f.nextParse cursor? = .ok (some next)) :
    f.Unfolds root next.parse.tree next.directions.choices := by
  obtain ⟨root', choices, hroot', hfirst, -⟩ := exists_firstFrom_of_nextParse h
  cases hroot.symm.trans hroot'
  exact (exists_takes_of_firstFrom hfirst).1

/-! ## Forests with faults -/

section

variable (hf : f.InRange) (hroot : root < f.size) (hacyclic : f.AcyclicFrom root)
include hf hroot hacyclic

theorem endsWithin_root : f.EndsWithin f.size root := hacyclic.endsWithin hf.child_lt hroot

/-- Unfolding along choices that can be followed blames none of them. Where it succeeds they are all
followed, and it goes on with first alternatives. -/
theorem follows_of_fits {choices : List Choice} (h : f.Fits [root] choices) :
    let made := f.unfold chooseAhead (f.depthBound choices.length) root ⟨⟨choices, #[]⟩, 0⟩
    (∀ fault, made ≠ .error (.invalidDirections fault)) ∧
      ∀ t progress, made = .ok (t, progress) → progress.state.ahead = [] ∧
        ∃ firsts, progress.state.recorded.toList = choices ++ firsts ∧
          ∀ c ∈ firsts, c.alternative = 0 := by
  intro made
  have hstays : f.Stays [] made := stays_unfold hf.child_lt hroot
    ((endsWithin_root hf hroot hacyclic).depthBound choices.length) h
  refine ⟨fun fault hfault => ?_, fun t progress hmade => ?_⟩
  · rw [hfault] at hstays
    exact hstays fault rfl
  · have hruns := runs_of_unfold hmade
    rw [hmade] at hstays
    have hahead := hstays.eq_nil
    obtain ⟨r, -, hrecorded, htakes⟩ := hruns.exists_record
    rw [hahead] at htakes
    obtain ⟨firsts, hr, hfirsts⟩ := htakes.exists_eq_append
    exact ⟨hahead, firsts, by simp [hrecorded, hr], hfirsts⟩

/-- Where choices that can be followed are given out, they are all followed. -/
theorem exists_eq_append_of_firstFrom {choices : List Choice} {next : NextParse T N}
    (h : f.Fits [root] choices) (hfirst : f.firstFrom root choices = .ok next) :
    ∃ firsts, next.directions.choices = choices ++ firsts := by
  obtain ⟨⟨t, progress⟩, hunfold, heq⟩ := bind_eq_ok_iff.1 hfirst
  cases heq
  obtain ⟨-, hfollows⟩ := follows_of_fits hf hroot hacyclic h
  obtain ⟨-, firsts, hrecord, -⟩ := hfollows t progress hunfold
  exact ⟨firsts, hrecord⟩

end

/-- The two walks of a cursor agree, in forests with faults too: going on from a cursor that is
accepted, the choices that it is raised to are all followed and none is blamed, and behind them
first alternatives are taken; and a cursor that is given out is accepted, with the numbers of
alternatives at just the nodes that it names. Both walks come to their end, and with a stack they do
what the recursions do. -/
theorem walks_agree (f : Forest g) (hf : f.InRange) {root : NodeId} (hroot : f.root? = some root)
    (hacyclic : f.AcyclicFrom root) :
    (∀ d choices, f.successor root d = .ok (some choices) →
      ∃ made, (∀ result, f.Makes chooseAhead root ⟨⟨choices, #[]⟩, 0⟩ result ↔ result = made) ∧
        f.firstFrom root choices = made.map (fun (t, progress) =>
          ⟨⟨t, progress.weight⟩, ⟨progress.state.recorded.toList⟩⟩) ∧
        (∀ fault, made ≠ .error (.invalidDirections fault)) ∧
        ∀ t progress, made = .ok (t, progress) → progress.state.ahead = [] ∧
          ∃ firsts, progress.state.recorded.toList = choices ++ firsts ∧
            ∀ c ∈ firsts, c.alternative = 0) ∧
      (∀ d result, f.Replays root d result ↔ result = f.replay root d) ∧
      ∀ cursor? next, f.nextParse cursor? = .ok (some next) →
        f.replay root next.directions = .ok (next.directions.choices.map f.countAt) := by
  have hlt := hf.root_lt root hroot
  have hends := endsWithin_root hf hlt hacyclic
  refine ⟨fun d choices h => ?_, fun d _ => replays_iff hends d, fun cursor? next h => ?_⟩
  · obtain ⟨-, -, -, -, -, hfits⟩ := exists_raised_of_successor h
    obtain ⟨hvalid, hfollows⟩ := follows_of_fits hf hlt hacyclic hfits
    refine ⟨_, fun _ => makes_iff (hends.depthBound choices.length), ?_, hvalid, hfollows⟩
    unfold firstFrom
    generalize f.unfold chooseAhead (f.depthBound choices.length) root ⟨⟨choices, #[]⟩, 0⟩ = made
    cases made <;> rfl
  · exact (unfolds_of_nextParse hroot h).replay_eq hends

end Forest

/-- A forest made by hand from the rules of `pairs`: the two children of its root are one node, and
the token of its last alternative is missing. -/
def torn : Forest pairs :=
  let ((s, _), arena) := Arena.nonterminal {} 'S' 0 1
  let ((a, _), arena) := arena.nonterminal 'A' 0 1
  let (token, arena) := arena.terminal 0
  let (missing, arena) := arena.terminal 7
  let arena := arena.pushAlternative s ⟨.ofNat 0, [a, a]⟩
  let arena := arena.pushAlternatives a
    [⟨.ofNat 1, [token]⟩, ⟨.ofNat 2, []⟩, ⟨.ofNat 1, [missing]⟩]
  { tokens := #[⟨'a', "a", default⟩], arena, root? := some s, chartItems := 0 }

namespace Forest

theorem inRange_torn : torn.InRange := by
  decide +kernel

theorem root_torn : torn.root? = some 0 := by
  decide +kernel

theorem acyclic_torn : torn.Acyclic := by
  have hprice : torn.price = .ok #[⟨.ofNat 1, 9, some 0⟩, ⟨0, 3, some 1⟩, ⟨0, 1, none⟩,
      ⟨0, 1, none⟩] := by
    decide +kernel
  exact acyclic_of_wellFounded (wellFounded_children_of_price hprice)

/-- A cursor may lead to a missing token. The choices that it is raised to are followed, and the one
behind them starts over. -/
theorem walks_agree_torn : torn.InRange ∧ torn.root? = some 0 ∧ torn.AcyclicFrom 0 ∧
    torn.successor 0 ⟨[⟨1, 0⟩, ⟨1, 2⟩]⟩ = .ok (some [⟨1, 1⟩]) ∧
    (∃ t progress, torn.Makes chooseAhead 0 ⟨⟨[⟨1, 1⟩], #[]⟩, 0⟩ (.ok (t, progress)) ∧
      progress.state.recorded.toList = [⟨1, 1⟩, ⟨1, 0⟩]) ∧
    torn.Replays 0 ⟨[⟨1, 1⟩, ⟨1, 0⟩]⟩ (.ok [3, 3]) := by
  have hacyclic := acyclic_torn.acyclicFrom 0
  have hraised : torn.successor 0 ⟨[⟨1, 0⟩, ⟨1, 2⟩]⟩ = .ok (some [⟨1, 1⟩]) := by decide +kernel
  obtain ⟨hmakes, hreplays, hgiven⟩ := walks_agree torn inRange_torn root_torn hacyclic
  obtain ⟨made, hmade, hfirst, -, -⟩ := hmakes _ _ hraised
  have hchoices : (torn.nextParse (some ⟨[⟨1, 0⟩, ⟨1, 2⟩]⟩)).map
      (·.map (·.directions)) = .ok (some ⟨[⟨1, 1⟩, ⟨1, 0⟩]⟩) := by decide +kernel
  obtain ⟨_, hsome, hmap⟩ := map_eq_ok_iff.1 hchoices
  obtain ⟨next, rfl, hdirections⟩ := Option.map_eq_some_iff.1 hmap
  refine ⟨inRange_torn, root_torn, hacyclic, hraised, ?_, ?_⟩
  · have hrecorded : (torn.firstFrom 0 [⟨1, 1⟩]).map (·.directions) =
        .ok ⟨[⟨1, 1⟩, ⟨1, 0⟩]⟩ := by decide +kernel
    rw [hfirst] at hrecorded
    obtain ⟨_, hnext, hdirections⟩ := map_eq_ok_iff.1 hrecorded
    obtain ⟨⟨t, progress⟩, rfl, rfl⟩ := map_eq_ok_iff.1 hnext
    exact ⟨t, progress, (hmade _).2 rfl, congrArg Directions.choices hdirections⟩
  · rw [hreplays, ← hdirections, hgiven _ _ hsome, hdirections]
    decide +kernel

end Forest

end EarleyForest
