import EarleyForest.Grammar.CycleLoop
import EarleyForest.Proofs.Grammar.Cycle

/-!
# The loop finds what the search finds

The marks say what is on the path and what is known to lie on no cycle (`Marked`). Where the search
from a nonterminal gives a cycle, the loop ends with it, and otherwise it comes back to the rest of
the path with marks for what is put aside then (`Gives`). The cursor of a nonterminal stands behind
those it leads to that are searched already. So the loop ends with what `findCycle` gives
(`ends_findCycle`), and the bound on the depth of the recursion is nothing that it could meet.
-/

namespace EarleyForest

variable {T N : Type} [DecidableEq N] [SearchKey N]

namespace CycleSearch

/-! ## Where nonterminals lead -/

theorem getD_addEdges (edges : Std.TreeMap N (List N)) (A C : N) (targets : List N) :
    (addEdges edges A targets).getD C [] =
      edges.getD C [] ++ if A = C then targets else [] := by
  induction targets generalizing edges with
  | nil => simp [addEdges]
  | cons B targets ih =>
    rw [addEdges, List.foldl_cons, ← addEdges, ih, Std.TreeMap.getD_insert]
    simp only [Std.LawfulEqCmp.compare_eq_iff_eq]
    by_cases hC : A = C
    · simp [hC]
    · simp [hC]

theorem getD_edges (rules : List (Rule T N)) (nullable : N → Bool) (A : N) :
    (edges rules nullable).getD A [] = leadsTo rules nullable A := by
  suffices h : ∀ known : Std.TreeMap N (List N),
      (rules.foldl (fun edges r => addEdges edges r.lhs (soleSymbols nullable true r.rhs))
        known).getD A [] = known.getD A [] ++ leadsTo rules nullable A by
    simpa [edges] using h {}
  induction rules with
  | nil => simp [leadsTo]
  | cons r rules ih =>
    intro known
    rw [List.foldl_cons, ih, getD_addEdges, List.append_assoc]
    rfl

omit [SearchKey N] in
theorem drop_idxOf? {symbols : List N} {B : N} (hB : B ∈ symbols) :
    symbols.drop ((symbols.idxOf? B).getD 0) = symbols.dropWhile (· ≠ B) := by
  induction symbols with
  | nil => cases hB
  | cons A symbols ih =>
    by_cases hA : A = B
    · simp [List.idxOf?_cons, hA]
    · have hB : B ∈ symbols := List.mem_of_ne_of_mem (Ne.symm hA) hB
      obtain ⟨n, hn⟩ := Option.isSome_iff_exists.1 (List.isSome_idxOf?.2 hB)
      have hdrop := ih hB
      rw [hn] at hdrop
      simpa [List.idxOf?_cons, hA, hn] using hdrop

/-! ## Marks -/

/-- The nonterminals of the path are marked as being on it and those of `done` as done, and no
others are marked. -/
def Marked (marks : Std.TreeMap N PathMark) (path done : List N) : Prop :=
  ∀ C, marks[C]? = if C ∈ path then some .onPath else if C ∈ done then some .done else none

namespace Marked

variable {marks : Std.TreeMap N PathMark} {path done : List N} {A B : N}

theorem empty : Marked ({} : Std.TreeMap N PathMark) [] [] := by simp [Marked]

theorem insert_onPath (h : Marked marks path done) :
    Marked (marks.insert B .onPath) (B :: path) done := by
  intro C
  simp only [Std.TreeMap.getElem?_insert, h C, Std.LawfulEqCmp.compare_eq_iff_eq]
  by_cases hC : B = C
  · simp [hC]
  · simp [hC, Ne.symm hC]

theorem insert_done (h : Marked marks (A :: path) done) (hA : A ∉ path) :
    Marked (marks.insert A .done) path (A :: done) := by
  intro C
  simp only [Std.TreeMap.getElem?_insert, h C, Std.LawfulEqCmp.compare_eq_iff_eq]
  by_cases hC : A = C
  · subst hC
    simp [hA]
  · simp [hC, Ne.symm hC]

end Marked

/-! ## Rounds -/

variable {edges : Std.TreeMap N (List N)} {s s' : CycleSearch T N} {outer : List (N × Nat)}
  {marks : Std.TreeMap N PathMark} {path done : List N} {A B : N} {k : Nat}
  {starts : List (Rule T N)} {r : Rule T N}

section

variable (hmarks : Marked marks [] done)
include hmarks

theorem round_skipStart (hdone : r.lhs ∈ done) :
    round edges ⟨[], marks, r :: starts⟩ = .inl ⟨[], marks, starts⟩ := by
  have hmark : marks.contains r.lhs = true := by
    simp [Std.TreeMap.contains_eq_isSome_getElem?, hmarks r.lhs, hdone]
  simp only [round, hmark, if_true]

theorem round_newStart (hdone : r.lhs ∉ done) : round edges ⟨[], marks, r :: starts⟩ =
    .inl ⟨[(r.lhs, 0)], marks.insert r.lhs .onPath, starts⟩ := by
  have hmark : marks.contains r.lhs = false := by
    simp [Std.TreeMap.contains_eq_isSome_getElem?, hmarks r.lhs, hdone]
  simp [round, hmark]

end

section

variable (hB : (edges.getD A [])[k]? = some B) (hmarks : Marked marks (A :: path) done)
include hB hmarks

theorem round_back (houter : outer.map Prod.fst = path) (hpath : B ∈ A :: path) :
    round edges ⟨(A, k) :: outer, marks, starts⟩ =
      .inr (some ((A :: path).reverse.dropWhile (· ≠ B))) := by
  have hmark : marks[B]? = some .onPath := by rw [hmarks B, if_pos hpath]
  simp only [round, hB, hmark, cycleFrom, List.map_cons, houter,
    drop_idxOf? (List.mem_reverse.2 hpath)]

theorem round_skip (hpath : B ∉ A :: path) (hdone : B ∈ done) :
    round edges ⟨(A, k) :: outer, marks, starts⟩ =
      .inl ⟨(A, k + 1) :: outer, marks, starts⟩ := by
  have hmark : marks[B]? = some .done := by rw [hmarks B, if_neg hpath, if_pos hdone]
  simp only [round, hB, hmark]

theorem round_enter (hpath : B ∉ A :: path) (hdone : B ∉ done) :
    round edges ⟨(A, k) :: outer, marks, starts⟩ =
      .inl ⟨(B, 0) :: (A, k + 1) :: outer, marks.insert B .onPath, starts⟩ := by
  have hmark : marks[B]? = none := by rw [hmarks B, if_neg hpath, if_neg hdone]
  simp only [round, hB, hmark]

end

/-! ## What the loop makes of a search -/

/-- The loop ends with the cycle that a search has given, or comes to the path `outer` with marks
for what the search has put aside. -/
def Gives (edges : Std.TreeMap N (List N)) (s : CycleSearch T N) (outer : List (N × Nat)) :
    Except (List N) (List N) → Prop
  | .error cycle => Ends (round edges) s (some cycle)
  | .ok done => ∃ marks, Marked marks (outer.map Prod.fst) done ∧
      Passes (round edges) s ⟨outer, marks, s.starts⟩

namespace Gives

variable {x : Except (List N) (List N)} {outer' : List (N × Nat)}

theorem next (hround : round edges s = .inl s') (hstarts : s'.starts = s.starts)
    (h : Gives edges s' outer x) : Gives edges s outer x := by
  have hpasses : Passes (round edges) s s' := .tail .refl hround
  cases x with
  | error cycle => exact hpasses.prepend h
  | ok done =>
    obtain ⟨marks, hmarks, hpasses'⟩ := h
    exact ⟨marks, hmarks, hpasses.trans (hstarts ▸ hpasses')⟩

/-- One search behind the other. -/
theorem bind {f : List N → Except (List N) (List N)} (h : Gives edges s outer x)
    (hf : ∀ done marks, Marked marks (outer.map Prod.fst) done →
      Gives edges ⟨outer, marks, s.starts⟩ outer' (f done)) : Gives edges s outer' (x >>= f) := by
  cases x with
  | error cycle => exact h
  | ok done =>
    obtain ⟨marks, hmarks, hpasses⟩ := h
    have hgives := hf done marks hmarks
    change Gives edges s outer' (f done)
    cases hfdone : f done with
    | error cycle =>
      rw [hfdone] at hgives
      exact hpasses.prepend hgives
    | ok done' =>
      rw [hfdone] at hgives
      obtain ⟨marks', hmarks', hpasses'⟩ := hgives
      exact ⟨marks', hmarks', hpasses.trans hpasses'⟩

/-- A nonterminal that leads nowhere else is done. -/
theorem pop (h : Gives edges s ((A, k) :: outer) x) (hnone : (edges.getD A [])[k]? = none)
    (hA : A ∉ outer.map Prod.fst) : Gives edges s outer (x.map (A :: ·)) := by
  cases x with
  | error cycle => exact h
  | ok done =>
    obtain ⟨marks, hmarks, hpasses⟩ := h
    exact ⟨_, hmarks.insert_done hA, hpasses.tail (by simp only [round, hnone])⟩

end Gives

/-- From a cursor that stands behind `seen`, the loop goes through what is left of those that `A`
leads to, given that it goes through the search from each of them. -/
theorem gives_foldlM {search : List N → N → Except (List N) (List N)} (seen targets : List N)
    (hnext : edges.getD A [] = seen ++ targets) (hmarks : Marked marks (A :: path) done)
    (houter : outer.map Prod.fst = path)
    (hsearch : ∀ k, ∀ B ∈ edges.getD A [], B ∉ A :: path → ∀ done marks,
      Marked marks (B :: A :: path) done →
      Gives edges ⟨(B, 0) :: (A, k) :: outer, marks, starts⟩ ((A, k) :: outer) (search done B)) :
    Gives edges ⟨(A, seen.length) :: outer, marks, starts⟩
      ((A, (edges.getD A []).length) :: outer) (targets.foldlM (fun done B =>
        if B ∈ A :: path then .error ((A :: path).reverse.dropWhile (· ≠ B))
        else if B ∈ done then .ok done
        else search done B) done) := by
  induction targets generalizing seen done marks with
  | nil =>
    rw [List.append_nil] at hnext
    rw [hnext]
    exact ⟨marks, by simpa [houter] using hmarks, .refl⟩
  | cons B targets ih =>
    have hB : (edges.getD A [])[seen.length]? = some B := by simp [hnext]
    have hseen : edges.getD A [] = (seen ++ [B]) ++ targets := by simpa using hnext
    have hlength : (seen ++ [B]).length = seen.length + 1 := by simp
    rw [List.foldlM_cons]
    split
    · exact .done (round_back hB hmarks houter ‹_›)
    · rename_i hpath
      split
      · exact .next (round_skip hB hmarks hpath ‹_›) rfl (hlength ▸ ih _ hseen hmarks)
      · rename_i hdone
        have henter := hsearch (seen.length + 1) B (List.mem_of_getElem? hB) hpath done _
          hmarks.insert_onPath
        refine .next (round_enter hB hmarks hpath hdone) rfl (henter.bind fun done' marks' h => ?_)
        rw [List.map_cons, houter] at h
        exact hlength ▸ ih _ hseen h

/-- The loop goes through the search from a nonterminal that has come onto the path. -/
theorem gives_searchCycle {heads : List N}
    (hheads : ∀ A, edges.getD A [] ≠ [] → A ∈ heads) {depth : Nat}
    (hpath : ∀ B ∈ path, B ∈ heads) (hnodup : path.Nodup) (hA : A ∉ path)
    (hdepth : heads.length < depth + path.length) (hmarks : Marked marks (A :: path) done)
    (houter : outer.map Prod.fst = path) :
    Gives edges ⟨(A, 0) :: outer, marks, starts⟩ outer
      (searchCycle (edges.getD · []) depth path done A) := by
  induction depth generalizing path done A marks outer with
  | zero =>
    have := hnodup.length_le_of_subset hpath
    omega
  | succ depth ih =>
    rw [searchCycle]
    refine (gives_foldlM [] _ rfl hmarks houter
      fun k B hB hBpath done marks hmarks => ?_).pop (by simp) (houter ▸ hA)
    have hAheads : A ∈ heads := hheads A (List.ne_nil_of_mem hB)
    exact ih (List.forall_mem_cons.2 ⟨hAheads, hpath⟩) (List.nodup_cons.2 ⟨hA, hnodup⟩) hBpath
      (by simp only [List.length_cons]; omega) hmarks (by rw [List.map_cons, houter])

/-- The loop ends with what the search from one left-hand side after the other gives. -/
theorem ends_foldlM {search : List N → N → Except (List N) (List N)} (hmarks : Marked marks [] done)
    (hsearch : ∀ r ∈ starts, ∀ done marks starts, Marked marks [r.lhs] done →
      Gives edges (⟨[(r.lhs, 0)], marks, starts⟩ : CycleSearch T N) [] (search done r.lhs)) :
    Ends (round edges) ⟨[], marks, starts⟩
      (match starts.foldlM (fun done r =>
          if r.lhs ∈ done then .ok done else search done r.lhs) done with
        | .error cycle => some cycle
        | .ok _ => none) := by
  induction starts generalizing done marks with
  | nil => exact .done rfl
  | cons r starts ih =>
    obtain ⟨hr, hstarts⟩ := List.forall_mem_cons.1 hsearch
    rw [List.foldlM_cons]
    by_cases hdone : r.lhs ∈ done
    · rw [if_pos hdone]
      exact .next (round_skipStart hmarks hdone) (ih hmarks hstarts)
    · rw [if_neg hdone]
      have hgives := hr done _ starts hmarks.insert_onPath
      refine .next (round_newStart hmarks hdone) ?_
      cases hresult : search done r.lhs with
      | error cycle =>
        rw [hresult] at hgives
        exact hgives
      | ok done' =>
        rw [hresult] at hgives
        obtain ⟨marks', hmarks', hpasses⟩ := hgives
        exact hpasses.prepend (ih hmarks' hstarts)

end CycleSearch

/-- From its start the loop ends with what the search for a cycle gives. -/
theorem ends_findCycle (rules : List (Rule T N)) (nullable : N → Bool) :
    Ends (CycleSearch.round (CycleSearch.edges rules nullable)) (CycleSearch.start rules)
      (findCycle rules nullable) := by
  have hedges : leadsTo rules nullable = ((CycleSearch.edges rules nullable).getD · []) :=
    funext fun A => (CycleSearch.getD_edges rules nullable A).symm
  have hheads : ∀ A, (CycleSearch.edges rules nullable).getD A [] ≠ [] →
      A ∈ rules.map Rule.lhs := by
    intro A hA
    exact lhs_mem_of_leadsTo A (CycleSearch.getD_edges rules nullable A ▸ hA)
  unfold findCycle
  rw [hedges]
  refine CycleSearch.ends_foldlM .empty fun r _ done marks starts hmarks => ?_
  exact CycleSearch.gives_searchCycle hheads (by simp) List.nodup_nil (by simp) (by simp) hmarks rfl

end EarleyForest
