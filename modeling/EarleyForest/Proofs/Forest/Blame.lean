import EarleyForest.Proofs.Forest.Following

/-!
# Cursors that are turned down

What a sound forest turns down is the fault of the cursor (`Sound.nextParse_cases`). One way for a
cursor to be foreign is to lead to an ambiguous node and to name an alternative that is not there
(`Blames`). The report of that adds one to the number named, and for the last of all words there is
none behind it: a request stops just if its cursor does that (`nextParse_eq_overflow_iff`).
-/

namespace EarleyForest

variable {T N : Type}

/-! ## Stops -/

/-- The cursor is to blame: it does not describe a derivation, or there is no word behind a number
in it. -/
def Stop.IsForeign : Stop N → Prop
  | .overflow => True
  | .fails e => e.IsForeign

theorem isForeign_outOfRange (id : NodeId) (count alternative : Nat) :
    (.outOfRange id count alternative : Stop N).IsForeign := by
  unfold Stop.outOfRange
  split
  · exact isForeign_invalidDirections _
  · trivial

theorem outOfRange_eq_fails {id : NodeId} {count alternative : Nat}
    (h : alternative < 18446744073709551615) : (.outOfRange id count alternative : Stop N) =
      .fails (.invalidDirections (.noSuchAlternative id count (alternative + 1))) := by
  rw [Stop.outOfRange, nextWord?, if_pos (by omega)]

theorem outOfRange_eq_overflow_iff {id : NodeId} {count alternative : Nat} :
    (.outOfRange id count alternative : Stop N) = .overflow ↔
      18446744073709551615 ≤ alternative := by
  by_cases h : alternative < 18446744073709551615
  · rw [outOfRange_eq_fails h]
    exact iff_of_false (by simp) (Nat.not_le_of_lt h)
  · have hle := Nat.le_of_not_lt h
    rw [Stop.outOfRange, nextWord?, if_neg (by omega)]
    exact iff_of_true rfl hle

variable [DecidableEq N] [SearchKey N] {g : Grammar T N} {f : Forest g}

namespace Forest

variable {given : Nat} {replay replay' : Replay} {id root : NodeId}
  {ids ids' children : List NodeId} {s : List Choice} {c : Choice} {d : Directions}

/-! ## Sound forests -/

namespace Sound

variable (hf : f.Sound)
include hf

/-- A visit is stopped by the cursor alone. -/
theorem failsBy_replayAt (given : Nat) (replay : Replay) (id : NodeId) :
    FailsBy Stop.IsForeign (f.replayAt given replay id) := by
  unfold replayAt
  split
  · exact failsBy_error (isForeign_invalidDirections _)
  · exact failsBy_ok _
  · rename_i hn
    exact absurd rfl (hf.alternatives_ne_nil hn)
  · exact failsBy_ok _
  · split
    · exact failsBy_error (isForeign_invalidDirections _)
    · split
      · exact failsBy_error (isForeign_invalidDirections _)
      · split
        · exact failsBy_error (isForeign_outOfRange _ _ _)
        · exact failsBy_ok _

/-- With levels enough the check of a cursor is stopped by the cursor alone. -/
theorem failsBy_replayFrom (given : Nat) {depth : Nat} (hid : id < f.size)
    (hdepth : f.EndsWithin depth id) (replay : Replay) :
    FailsBy Stop.IsForeign (f.replayFrom given depth replay id) := by
  induction depth generalizing id replay with
  | zero => exact hdepth.elim
  | succ depth ih =>
    intro e he
    rcases bind_eq_error_iff.1 he with he | ⟨⟨children, replay'⟩, hvisit, he⟩
    · exact hf.failsBy_replayAt given replay id e he
    · refine failsBy_foldlM replay' (fun child hc replay => ?_) e he
      have hc := mem_children_of_replayAt hvisit hc
      exact ih (hf.child_lt id child hc) (hdepth child hc) replay

theorem failsBy_successor (hroot : root < f.size) (d : Directions) :
    FailsBy Stop.IsForeign (f.successor root d) := by
  have hreplay : FailsBy Stop.IsForeign (f.replay root d) := by
    refine (hf.failsBy_replayFrom d.choices.length hroot
      ((hf.endsWithin hroot).depthBound _) _).bind fun replay => ?_
    split
    · exact failsBy_ok _
    · exact failsBy_error (isForeign_invalidDirections _)
  exact hreplay.bind fun _ => failsBy_ok _

/-- A cursor that is handed in is the only thing that can be at fault. -/
theorem failsBy_nextParse (cursor? : Option Directions) :
    FailsBy Stop.IsForeign (f.nextParse cursor?) := by
  unfold nextParse
  split
  · exact failsBy_ok _
  · rename_i root hroot
    have hroot := hf.root_lt root hroot
    have hfirst (choices : List Choice) :
        FailsBy Stop.IsForeign (((f.firstFrom root choices).map some).mapError .fails) :=
      ((hf.failsBy_firstFrom hroot choices).map some).mapError fun _ h => h
    split
    · exact hfirst []
    · rename_i d
      refine (hf.failsBy_successor hroot d).bind fun choices? => ?_
      split
      · exact failsBy_ok _
      · exact hfirst _

/-- A cursor is taken, it is turned down, or it stops the request. -/
theorem nextParse_cases (d : Directions) : (∃ next?, f.nextParse (some d) = .ok next?) ∨
    (∃ fault, f.nextParse (some d) = .error (.fails (.invalidDirections fault))) ∨
      f.nextParse (some d) = .error .overflow := by
  cases hnext : f.nextParse (some d) with
  | ok next? => exact .inl ⟨next?, rfl⟩
  | error e =>
    cases e with
    | overflow => exact .inr (.inr rfl)
    | fails e =>
      obtain ⟨fault, rfl⟩ := hf.failsBy_nextParse (some d) (.fails e) hnext
      exact .inr (.inl ⟨fault, rfl⟩)

end Sound

/-! ## Choices that are out of range -/

/-- Following the choices before it, the cursor leads to the ambiguous node of the choice `c`, and
there is no such alternative. -/
def Blames (f : Forest g) (root : NodeId) (d : Directions) (c : Choice) : Prop :=
  ∃ q u ids, d.choices = q ++ c :: u ∧ f.Leads [root] q (c.node :: ids) ∧ 1 < f.countAt c ∧
    f.countAt c ≤ c.alternative

/-- The check follows choices to where they lead. -/
theorem Leads.ends_replayRound (h : f.Leads ids s ids') {rest : List Choice} {counts : Array Nat}
    {result : Except (Stop N) (List Nat)}
    (hends : Ends (f.replayRound given)
      (ids', ⟨rest, counts ++ (s.map f.countAt).toArray⟩) result) :
    Ends (f.replayRound given) (ids, ⟨s ++ rest, counts⟩) result := by
  induction h generalizing counts with
  | refl => simpa using hends
  | leaf hn _ ih => exact .next (by simp [replayRound, replayAt, hn]) (ih hends)
  | branch hn ha _ ih =>
    refine .next (by rw [replayRound, List.append_assoc, replayAt_nonterminal hn ha]) (ih ?_)
    simpa using hends

/-- One round follows a choice, or none at a node that is not ambiguous. -/
theorem exists_leads_of_replayAt (h : f.replayAt given replay id = .ok (children, replay'))
    (ids : List NodeId) : ∃ r, replay.ahead = r ++ replay'.ahead ∧
      f.Leads (id :: ids) r (children ++ ids) := by
  rcases replayAt_cases h with ⟨token, hn, rfl, rfl⟩ | ⟨A, i, j, as, k, a, hn, ha, rfl, hahead, -⟩
  · exact ⟨[], rfl, .leaf hn (.refl ids)⟩
  · refine ⟨_, hahead, ?_⟩
    simpa using Leads.branch hn ha (.refl (a.children ++ ids))

/-- What the check has followed so far leads to what is left to be visited. -/
def HasFollowed (f : Forest g) (root : NodeId) (d : Directions) (s : List NodeId × Replay) : Prop :=
  ∃ q, d.choices = q ++ s.2.ahead ∧ f.Leads [root] q s.1

theorem HasFollowed.step {s s' : List NodeId × Replay} (h : f.HasFollowed root d s)
    (hround : f.replayRound given s = .inl s') : f.HasFollowed root d s' := by
  obtain ⟨q, hd, hq⟩ := h
  obtain ⟨_ | ⟨id, stack⟩, replay⟩ := s
  · cases hround
  · rw [replayRound] at hround
    split at hround
    · cases hround
    · rename_i hvisit
      cases hround
      obtain ⟨r, hahead, hr⟩ := exists_leads_of_replayAt hvisit stack
      exact ⟨q ++ r, by rw [hd, hahead, List.append_assoc], hq.trans hr⟩

theorem exists_nonterminal_of_countAt (hc : 1 < f.countAt c) : ∃ A i j a b as,
    f.node? c.node = some (.nonterminal A i j (a :: b :: as)) := by
  unfold countAt alternatives at hc
  split at hc
  · rename_i node hn
    cases node with
    | terminal => cases hc
    | nonterminal A i j as =>
      match as, hc with
      | a :: b :: as, _ => exact ⟨A, i, j, a, b, as, hn⟩
  · cases hc

/-- A visit turns the choice ahead down that is for the node and out of range there. -/
theorem replayAt_outOfRange (hmany : 1 < f.countAt c) (hle : f.countAt c ≤ c.alternative)
    (u : List Choice) (counts : Array Nat) : f.replayAt given ⟨c :: u, counts⟩ c.node =
      .error (.outOfRange c.node (f.countAt c) c.alternative) := by
  obtain ⟨A, i, j, a, b, as, hn⟩ := exists_nonterminal_of_countAt hmany
  have hcount : f.countAt c = (a :: b :: as).length := by rw [countAt, alternatives_eq hn]; rfl
  have hnone : (a :: b :: as)[c.alternative]? = none := List.getElem?_eq_none_iff.2 (hcount ▸ hle)
  simp only [replayAt, hn, hnone, hcount, ne_eq, not_true_eq_false, if_false]

/-- A visit stops only at a choice ahead that is for the node and out of range there, and has no
word behind it. -/
theorem exists_ahead_of_overflow (h : f.replayAt given replay id = .error .overflow) :
    ∃ c u, replay.ahead = c :: u ∧ c.node = id ∧ 1 < f.countAt c ∧ f.countAt c ≤ c.alternative ∧
      18446744073709551615 ≤ c.alternative := by
  unfold replayAt at h
  split at h
  · cases h
  · cases h
  · cases h
  · cases h
  · rename_i A i j as hne hone hn
    split at h
    · cases h
    · rename_i c u hahead
      split at h
      · cases h
      · rename_i hid
        obtain rfl : c.node = id := not_not.1 hid
        have hcount : f.countAt c = as.length := by rw [countAt, alternatives_eq hn]; rfl
        have hmany : 1 < as.length := one_lt_length hne hone
        split at h
        · rename_i hnone
          have hle := List.getElem?_eq_none_iff.1 hnone
          exact ⟨c, u, hahead, rfl, hcount ▸ hmany, hcount ▸ hle,
            outOfRange_eq_overflow_iff.1 (Except.error.inj h)⟩
        · cases h

/-- The check turns a cursor down for a choice that is out of range where it leads. -/
theorem Blames.replay_eq (hroot : f.EndsWithin f.size root) (h : f.Blames root d c) :
    f.replay root d = .error (.outOfRange c.node (f.countAt c) c.alternative) := by
  obtain ⟨q, u, ids, hd, hq, hmany, hle⟩ := h
  refine ((replays_iff hroot d).1 ?_).symm
  unfold Replays
  rw [hd]
  exact hq.ends_replayRound (.done (by rw [replayRound, replayAt_outOfRange hmany hle]))

/-- A check that stops has been led to a choice that is out of range. -/
theorem exists_blames_of_overflow (hroot : f.EndsWithin f.size root)
    (h : f.replay root d = .error .overflow) :
    ∃ c, f.Blames root d c ∧ 18446744073709551615 ≤ c.alternative := by
  have hreplays : f.Replays root d (.error .overflow) := (replays_iff hroot d).2 h.symm
  -- it stops in the last round, and what was followed before leads there
  obtain ⟨⟨_ | ⟨id, stack⟩, replay⟩, ⟨q, hd, hq⟩, hround⟩ :=
    hreplays.exists_last ⟨[], rfl, .refl [root]⟩ fun _ _ => HasFollowed.step
  · rw [replayRound] at hround
    split at hround <;> cases hround
  · rw [replayRound] at hround
    split at hround
    · rename_i hvisit
      cases hround
      obtain ⟨c, u, hahead, rfl, hmany, hle, hlast⟩ := exists_ahead_of_overflow hvisit
      exact ⟨c, ⟨q, u, stack, hd.trans (congrArg _ hahead), hq, hmany, hle⟩, hlast⟩
    · cases hround

/-! ## Requests -/

theorem nextParse_of_replay_error (hroot : f.root? = some root) {e : Stop N}
    (h : f.replay root d = .error e) : f.nextParse (some d) = .error e := by
  simp only [nextParse, hroot, successor, h]
  rfl

theorem nextParse_none_ne_overflow (f : Forest g) : f.nextParse none ≠ .error .overflow := by
  unfold nextParse
  split
  · exact fun h => by cases h
  · intro h
    obtain ⟨e, -, he⟩ := mapError_eq_error_iff.1 h
    cases he

/-- Only the check of the cursor stops a request at a sum. -/
theorem replay_eq_overflow_of_nextParse (hroot : f.root? = some root)
    (h : f.nextParse (some d) = .error .overflow) : f.replay root d = .error .overflow := by
  simp only [nextParse, hroot] at h
  rcases bind_eq_error_iff.1 h with h | ⟨choices?, -, h⟩
  · rcases bind_eq_error_iff.1 h with h | ⟨counts, -, h⟩
    · exact h
    · cases h
  · split at h
    · cases h
    · obtain ⟨e, -, he⟩ := mapError_eq_error_iff.1 h
      cases he

/-- A request stops at a sum just if its cursor leads to an ambiguous node and takes an alternative
there that is out of range and has no word behind it. -/
theorem nextParse_eq_overflow_iff (hroot : f.root? = some root) (hends : f.EndsWithin f.size root) :
    f.nextParse (some d) = .error .overflow ↔
      ∃ c, f.Blames root d c ∧ 18446744073709551615 ≤ c.alternative := by
  constructor
  · intro h
    exact exists_blames_of_overflow hends (replay_eq_overflow_of_nextParse hroot h)
  · rintro ⟨c, hc, hlast⟩
    rw [nextParse_of_replay_error hroot (hc.replay_eq hends), outOfRange_eq_overflow_iff.2 hlast]

/-- The numbers of the choices are 64-bit words. -/
def AreWords (s : List Choice) : Prop :=
  ∀ c ∈ s, c.node < 18446744073709551616 ∧ c.alternative < 18446744073709551616

theorem nextParse_twins_lastWord :
    twins.nextParse (some ⟨[⟨1, 18446744073709551615⟩]⟩) = .error .overflow :=
  nextParse_of_replay_error root_twins (by decide +kernel)

end Forest

end EarleyForest
