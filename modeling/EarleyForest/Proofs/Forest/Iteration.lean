import EarleyForest.Proofs.Forest.Blame

/-!
# Iteration

What an iteration is going to give depends on its cursor alone: `f.Gives cursor? nexts e?` tells
that it gives `nexts`, and behind them fails with `e?`, if that is an error. Each derivation that is
given leaves fewer records behind its cursor (`precedes_of_nextParse`, `card_behind_lt`), so every
iteration comes to its end, in forests with faults too (`exists_gives`). At a sum it stops only at
its first call, by the cursor that it was made with (`Gives.of_overflow`).
-/

namespace EarleyForest

variable {T N : Type} [DecidableEq N] [SearchKey N] {g : Grammar T N} {f : Forest g}

/-! ## Calls -/

namespace Parses

/-- The iteration after `n` calls. -/
def after (it : Parses f) (n : Nat) : Parses f := (fun it : Parses f => it.next.2)^[n] it

/-- What the call behind `n` others gives. -/
def item (it : Parses f) (n : Nat) : Option (Except (Stop N) (Parse T N)) :=
  (it.after n).next.1

variable {it : Parses f}

@[simp]
theorem after_zero (it : Parses f) : it.after 0 = it := rfl

@[simp]
theorem after_succ (it : Parses f) (n : Nat) : it.after (n + 1) = it.next.2.after n := rfl

@[simp]
theorem item_zero (it : Parses f) : it.item 0 = it.next.1 := rfl

@[simp]
theorem item_succ (it : Parses f) (n : Nat) : it.item (n + 1) = it.next.2.item n := rfl

theorem item_add (it : Parses f) (m n : Nat) : it.item (m + n) = (it.after m).item n := by
  rw [item, item, after, after, after, Nat.add_comm, Function.iterate_add_apply]

/-- A call gives a derivation and leaves just its cursor, or it ends the iteration. -/
theorem next_cases (it : Parses f) :
    (∃ next : Forest.NextParse T N,
        it.next = (some (.ok next.parse), resume f next.directions)) ∨
      (∀ p, it.next.1 ≠ some (.ok p)) ∧ it.next.2.ended = true := by
  unfold next
  split
  · rename_i hended
    exact .inr ⟨nofun, hended⟩
  · split
    · rename_i next _
      exact .inl ⟨next, rfl⟩
    · exact .inr ⟨nofun, rfl⟩
    · exact .inr ⟨nofun, rfl⟩

theorem next_of_ended (h : it.ended = true) : it.next = (none, it) := by
  rw [next, if_pos h]

theorem after_of_ended (h : it.ended = true) (n : Nat) : it.after n = it := by
  induction n with
  | zero => rfl
  | succ n ih => rw [after_succ, next_of_ended h, ih]

theorem item_of_ended (h : it.ended = true) (n : Nat) : it.item n = none := by
  rw [item, after_of_ended h, next_of_ended h]

/-- Behind calls that give derivations the iteration is the one behind the last of them. -/
theorem exists_resume_of_items {k : Nat} (h : ∀ m < k + 1, ∃ p, it.item m = some (.ok p)) :
    ∃ d, it.after (k + 1) = resume f d := by
  induction k generalizing it with
  | zero =>
    obtain ⟨p, hp⟩ := h 0 (Nat.lt_succ_self 0)
    rcases it.next_cases with ⟨next, heq⟩ | ⟨hnone, -⟩
    · exact ⟨next.directions, by rw [after_succ, heq, after_zero]⟩
    · exact absurd hp (hnone p)
  | succ k ih => exact ih fun m hm => h (m + 1) (Nat.succ_lt_succ hm)

/-- Behind a call that gives no derivation no call gives anything. -/
theorem item_eq_none {m n : Nat} (h : ∀ p, it.item m ≠ some (.ok p)) (hn : m < n) :
    it.item n = none := by
  obtain ⟨k, rfl⟩ := Nat.exists_eq_add_of_lt hn
  rw [Nat.add_assoc, item_add, item_succ]
  rcases (it.after m).next_cases with ⟨next, heq⟩ | ⟨-, hended⟩
  · exact absurd (congrArg Prod.fst heq) (h next.parse)
  · exact item_of_ended hended k

end Parses

namespace Forest

/-! ## All that is given -/

/-- An iteration behind the cursor gives `nexts` one after the other, and then it ends or fails. -/
inductive Gives (f : Forest g) :
    Option Directions → List (NextParse T N) → Option (Stop N) → Prop where
  | done {cursor? : Option Directions} (h : f.nextParse cursor? = .ok none) :
    Gives f cursor? [] none
  | failed {cursor? : Option Directions} {e : Stop N} (h : f.nextParse cursor? = .error e) :
    Gives f cursor? [] (some e)
  | next {cursor? : Option Directions} {next : NextParse T N} {nexts : List (NextParse T N)}
    {e? : Option (Stop N)} (h : f.nextParse cursor? = .ok (some next))
    (hs : Gives f (some next.directions) nexts e?) : Gives f cursor? (next :: nexts) e?

namespace Gives

variable {cursor? : Option Directions} {nexts : List (NextParse T N)} {e? : Option (Stop N)}

/-- Call by call the derivations are given, then the error if there is one, and then nothing. -/
theorem item_eq (h : f.Gives cursor? nexts e?) (n : Nat) :
    (⟨cursor?, false⟩ : Parses f).item n =
      ((nexts.map fun next => Except.ok next.parse) ++ e?.toList.map .error)[n]? := by
  induction h generalizing n with
  | done h => cases n <;> simp [Parses.next, h, Parses.item_of_ended]
  | failed h => cases n <;> simp [Parses.next, h, Parses.item_of_ended]
  | next h _ ih =>
    cases n with
    | zero => simp [Parses.next, h]
    | succ n => simpa [Parses.next, h] using ih n

/-- The cursor is always that of the last derivation given, and the initial one before any. -/
theorem cursor?_after_eq (h : f.Gives cursor? nexts e?) (n : Nat) :
    ((⟨cursor?, false⟩ : Parses f).after n).cursor? =
      ((nexts.take n).getLast?.map NextParse.directions).or cursor? := by
  induction h generalizing n with
  | done h => cases n <;> simp [Parses.next, h, Parses.after_of_ended]
  | failed h => cases n <;> simp [Parses.next, h, Parses.after_of_ended]
  | @next cursor? next nexts e? h _ ih =>
    cases n with
    | zero => simp
    | succ n =>
      simp only [Parses.after_succ, Parses.next, h, Bool.false_eq_true, if_false, ih,
        List.take_succ_cons, List.getLast?_cons]
      cases (nexts.take n).getLast? <;> rfl

/-- An error that a call gives is the one at the end. -/
theorem eq_some_of_item (h : f.Gives cursor? nexts e?) {n : Nat} {e : Stop N}
    (hitem : (⟨cursor?, false⟩ : Parses f).item n = some (.error e)) : e? = some e := by
  rw [h.item_eq] at hitem
  rcases List.mem_append.1 (List.mem_of_getElem? hitem) with hmem | hmem
  · obtain ⟨next, -, heq⟩ := List.mem_map.1 hmem
    cases heq
  · obtain ⟨e', he', heq⟩ := List.mem_map.1 hmem
    cases heq
    exact Option.mem_toList.1 he'

/-- A forest without a root gives nothing. -/
theorem exists_root {e : Stop N} (h : f.Gives cursor? nexts (some e)) : ∃ root, f.root? = some root := by
  cases hroot : f.root? with
  | some root => exact ⟨root, rfl⟩
  | none =>
    have hnone (cursor? : Option Directions) : f.nextParse cursor? = .ok none := by
      simp only [nextParse, hroot]
    cases h with
    | failed h => cases (hnone _).symm.trans h
    | next h _ => cases (hnone _).symm.trans h

/-- The cursors of the derivations given are their records. -/
theorem unfolds {root : NodeId} (h : f.Gives cursor? nexts e?) (hroot : f.root? = some root) :
    ∀ next ∈ nexts, f.Unfolds root next.parse.tree next.directions.choices := by
  induction h with
  | done => nofun
  | failed => nofun
  | next h _ ih => exact List.forall_mem_cons.2 ⟨unfolds_of_nextParse hroot h, ih⟩

/-- An iteration that stops at a sum was handed a cursor that is no record, and gave nothing. -/
theorem of_overflow {root : NodeId} (h : f.Gives cursor? nexts (some .overflow))
    (hroot : f.root? = some root) (hends : f.EndsWithin f.size root) :
    nexts = [] ∧ ∃ d, cursor? = some d ∧ f.nextParse (some d) = .error .overflow := by
  generalize he : (some .overflow : Option (Stop N)) = e? at h
  induction h with
  | done => cases he
  | @failed cursor? e h =>
    cases he
    cases cursor? with
    | none => exact absurd h f.nextParse_none_ne_overflow
    | some d => exact ⟨rfl, d, rfl, h⟩
  | next h _ ih =>
    obtain ⟨-, d, hd, hstop⟩ := ih he
    cases hd
    -- a cursor that is given out is a record, and records go through
    have hok := (unfolds_of_nextParse hroot h).replay_eq hends
    cases hok.symm.trans (replay_eq_overflow_of_nextParse hroot hstop)

end Gives

/-! ## The end of an iteration -/

section

variable {root : NodeId} {r s : List Choice}

open Classical in
/-- The records that come behind `r`. -/
noncomputable def behind (f : Forest g) (root : NodeId) (r : List Choice) : Finset (List Choice) :=
  (f.records f.size root).toFinset.filter (Precedes r)

theorem mem_behind : s ∈ f.behind root r ↔ s ∈ f.records f.size root ∧ Precedes r s := by
  simp [behind]

theorem card_behind_lt (hs : s ∈ f.records f.size root) (h : Precedes r s) :
    (f.behind root s).card < (f.behind root r).card := by
  refine Finset.card_lt_card (Finset.ssubset_iff_of_subset ?_ |>.2 ⟨s, mem_behind.2 ⟨hs, h⟩, ?_⟩)
  · intro u hu
    obtain ⟨hu, hlt⟩ := mem_behind.1 hu
    exact mem_behind.2 ⟨hu, h.trans hlt⟩
  · exact fun hmem => Precedes.irrefl s (mem_behind.1 hmem).2

variable (hf : f.InRange) (hroot : f.root? = some root) (hacyclic : f.AcyclicFrom root)
include hf hroot hacyclic

/-- What is given behind a cursor comes later in the order of records. -/
theorem precedes_of_nextParse {d : Directions} {next : NextParse T N}
    (h : f.nextParse (some d) = .ok (some next)) :
    Precedes d.choices next.directions.choices := by
  obtain ⟨root', choices, hroot', hfirst, hsuccessor⟩ := exists_firstFrom_of_nextParse h
  cases hroot.symm.trans hroot'
  obtain ⟨q, c, u, hd, rfl, hfits⟩ := exists_raised_of_successor hsuccessor
  obtain ⟨firsts, hrecord⟩ :=
    exists_eq_append_of_firstFrom hf (hf.root_lt root hroot) hacyclic hfits hfirst
  rw [hd, hrecord, List.append_assoc]
  exact (Precedes.here (Nat.lt_succ_self _)).append_left q

theorem exists_gives_some (d : Directions) : ∃ nexts e?, f.Gives (some d) nexts e? := by
  induction hcard : (f.behind root d.choices).card using Nat.strongRecOn generalizing d with
  | ind card ih =>
    match h : f.nextParse (some d) with
    | .ok none => exact ⟨[], none, .done h⟩
    | .error e => exact ⟨[], some e, .failed h⟩
    | .ok (some next) =>
      have hmem := (unfolds_of_nextParse hroot h).mem_records
        (endsWithin_root hf (hf.root_lt root hroot) hacyclic)
      have hlt := card_behind_lt hmem (precedes_of_nextParse hf hroot hacyclic h)
      obtain ⟨nexts, e?, hs⟩ := ih _ (hcard ▸ hlt) next.directions rfl
      exact ⟨next :: nexts, e?, .next h hs⟩

end

/-- Every iteration comes to its end. -/
theorem exists_gives (hf : f.InRange) (hacyclic : ∀ root ∈ f.root?, f.AcyclicFrom root)
    (cursor? : Option Directions) : ∃ nexts e?, f.Gives cursor? nexts e? := by
  match h : f.nextParse cursor? with
  | .ok none => exact ⟨[], none, .done h⟩
  | .error e => exact ⟨[], some e, .failed h⟩
  | .ok (some next) =>
    obtain ⟨root, _, hroot, -⟩ := exists_firstFrom_of_nextParse h
    obtain ⟨nexts, e?, hs⟩ := exists_gives_some hf hroot (hacyclic root hroot) next.directions
    exact ⟨next :: nexts, e?, .next h hs⟩

/-- Iterations over a forest, with faults or without. Behind calls that have all given derivations,
one that is made anew from the cursor gives just what the first one goes on to give. Every iteration
gives derivations, then at most one error, and then nothing for ever; its cursor is always that of
the last derivation given, and the initial one before any. And once a call has given no derivation,
no later call gives anything. A sum stops an iteration at its first call only, when the cursor that
it was made with takes an alternative that is out of range and has no word behind it. -/
theorem resumable_of_acyclicFrom (f : Forest g) (hf : f.InRange)
    (hacyclic : ∀ root ∈ f.root?, f.AcyclicFrom root) :
    (∀ k, 1 ≤ k → (∀ m < k, ∃ p, (Parses.start f).item m = some (.ok p)) →
      ∃ d, ((Parses.start f).after k).cursor? = some d ∧
        ∀ n, (Parses.resume f d).item n = (Parses.start f).item (k + n)) ∧
      (∀ it : Parses f, it.ended = false → ∃ nexts e?, f.Gives it.cursor? nexts e? ∧
        (∀ n, it.item n =
          ((nexts.map fun next => Except.ok next.parse) ++ e?.toList.map .error)[n]?) ∧
        (∀ n, (it.after n).cursor? =
          ((nexts.take n).getLast?.map NextParse.directions).or it.cursor?) ∧
        (∀ root ∈ f.root?, ∀ next ∈ nexts,
          f.Unfolds root next.parse.tree next.directions.choices) ∧
        (e? = some .overflow → nexts = [] ∧ ∃ d, it.cursor? = some d ∧
          ∃ root ∈ f.root?, ∃ c, f.Blames root d c ∧ 18446744073709551615 ≤ c.alternative)) ∧
      (∀ n, (Parses.start f).item n ≠ some (.error .overflow)) ∧
      ∀ (it : Parses f) (m : Nat), (∀ p, it.item m ≠ some (.ok p)) →
        ∀ n, m < n → it.item n = none := by
  have hstops {cursor? : Option Directions} {nexts : List (NextParse T N)}
      (h : f.Gives cursor? nexts (some .overflow)) : nexts = [] ∧ ∃ d, cursor? = some d ∧
        ∃ root ∈ f.root?, ∃ c, f.Blames root d c ∧ 18446744073709551615 ≤ c.alternative := by
    obtain ⟨root, hroot⟩ := h.exists_root
    have hends := endsWithin_root hf (hf.root_lt root hroot) (hacyclic root hroot)
    obtain ⟨hnil, d, hd, hstop⟩ := h.of_overflow hroot hends
    exact ⟨hnil, d, hd, root, hroot, (nextParse_eq_overflow_iff hroot hends).1 hstop⟩
  refine ⟨fun k hk hitems => ?_, fun ⟨cursor?, ended⟩ hended => ?_, fun n hitem => ?_,
    fun it m h n hn => ?_⟩
  · obtain ⟨k, rfl⟩ := Nat.exists_eq_add_of_le' hk
    obtain ⟨d, hd⟩ := Parses.exists_resume_of_items hitems
    exact ⟨d, by rw [hd]; rfl, fun n => by rw [Parses.item_add, hd]⟩
  · obtain ⟨nexts, e?, h⟩ := exists_gives hf hacyclic cursor?
    cases hended
    refine ⟨nexts, e?, h, h.item_eq, h.cursor?_after_eq, fun root hroot => h.unfolds hroot, ?_⟩
    rintro rfl
    exact hstops h
  · obtain ⟨nexts, e?, h⟩ := exists_gives hf hacyclic none
    obtain rfl := h.eq_some_of_item hitem
    obtain ⟨-, d, hd, -⟩ := hstops h
    cases hd
  · exact Parses.item_eq_none h hn

/-- The third call fails at the missing token, and so does the first one of an iteration made anew
behind the second derivation. Its cursor stays, and no call gives anything more. -/
theorem resumable_of_acyclicFrom_torn : torn.InRange ∧
    (∀ root ∈ torn.root?, torn.AcyclicFrom root) ∧
    (∀ m < 2, ∃ p, (Parses.start torn).item m = some (.ok p)) ∧
    (∃ d, ((Parses.start torn).after 2).cursor? = some d ∧
      (Parses.resume torn d).item 0 = some (.error (.fails (.missingToken 3 7))) ∧
      ∀ n, ((Parses.resume torn d).after n).cursor? = some d) ∧
    ∀ n, 2 < n → (Parses.start torn).item n = none := by
  have hacyclic (root : NodeId) (_ : root ∈ torn.root?) : torn.AcyclicFrom root :=
    acyclic_torn.acyclicFrom root
  have hitems : ∀ m < 2, ∃ p, (Parses.start torn).item m = some (.ok p) := by
    intro m hm
    match m, hm with
    | 0, _ => exact ⟨_, rfl⟩
    | 1, _ => exact ⟨_, rfl⟩
  have hfails : (Parses.start torn).item 2 = some (.error (.fails (.missingToken 3 7))) := rfl
  obtain ⟨hresume, hgives, -, hfused⟩ := resumable_of_acyclicFrom torn inRange_torn hacyclic
  refine ⟨inRange_torn, hacyclic, hitems, ?_,
    hfused _ 2 fun p hp => nomatch hfails.symm.trans hp⟩
  obtain ⟨d, hd, hitem⟩ := hresume 2 (by decide) hitems
  have hfails' := (hitem 0).trans hfails
  refine ⟨d, hd, hfails', fun n => ?_⟩
  obtain ⟨nexts, e?, -, hitem, hcursor, -⟩ := hgives (Parses.resume torn d) rfl
  cases nexts with
  | nil => simpa [Parses.resume] using hcursor n
  | cons next nexts => cases hfails'.symm.trans (hitem 0)

end Forest

end EarleyForest
