import EarleyForest.Proofs.Forest.Cursors

/-!
# Where choices lead

`f.Leads ids s ids'`: visiting the nodes `ids`, each with all below it, and following the choices
`s` at ambiguous nodes leads to where the nodes `ids'` are left to be visited. Nothing is said of
tokens, which may be missing. The record of a derivation leads to the end (`UnfoldsAll.leads`). A
choice on the way can be raised, which leads to some other point (`Leads.exists_raised`); where no
token is missing, derivations of what is left there complete those on the way
(`Sound.exists_unfoldsAll_of_leads`).
-/

namespace EarleyForest

variable {T N : Type} [DecidableEq N] [SearchKey N] {g : Grammar T N} {f : Forest g}

theorem exists_of_append_eq_append_cons {α : Type} {r s q u : List α} {c : α}
    (h : r ++ s = q ++ c :: u) :
    (∃ v, r = q ++ c :: v) ∨ ∃ v, q = r ++ v ∧ s = v ++ c :: u := by
  rcases List.append_eq_append_iff.1 h with ⟨v, hq, hs⟩ | ⟨v, hr, hc⟩
  · exact .inr ⟨v, hq, hs⟩
  · cases v with
    | nil => exact .inr ⟨[], by rw [hr]; simp, hc.symm⟩
    | cons d v =>
      obtain ⟨rfl, -⟩ := List.cons_eq_cons.1 hc
      exact .inl ⟨v, hr⟩

namespace Forest

/-- Following the choices leads from where `ids` are left to where the last nodes are. -/
inductive Leads (f : Forest g) : List NodeId → List Choice → List NodeId → Prop where
  | refl (ids : List NodeId) : Leads f ids [] ids
  | leaf {id token : Nat} {ids ids' : List NodeId} {s : List Choice}
    (hn : f.node? id = some (.terminal token)) (h : Leads f ids s ids') : Leads f (id :: ids) s ids'
  | branch {id k : Nat} {A : N} {i j : Nat} {as : List Alternative} {a : Alternative}
    {ids ids' : List NodeId} {s : List Choice}
    (hn : f.node? id = some (.nonterminal A i j as)) (ha : as[k]? = some a)
    (h : Leads f (a.children ++ ids) s ids') :
    Leads f (id :: ids) (recordChoice id k as.length ++ s) ids'

variable {id : NodeId} {ids ids' ids'' : List NodeId} {q r s u : List Choice} {c : Choice}

namespace Leads

theorem trans (h : f.Leads ids r ids') (h' : f.Leads ids' s ids'') :
    f.Leads ids (r ++ s) ids'' := by
  induction h with
  | refl => exact h'
  | leaf hn _ ih => exact .leaf hn (ih h')
  | branch hn ha _ ih =>
    rw [List.append_assoc]
    exact .branch hn ha (ih h')

/-- Nodes that are left anyway do not matter. -/
theorem append (h : f.Leads ids s ids') (below : List NodeId) :
    f.Leads (ids ++ below) s (ids' ++ below) := by
  induction h with
  | refl => exact .refl _
  | leaf hn _ ih => exact .leaf hn ih
  | branch hn ha _ ih => exact .branch hn ha (by rwa [List.append_assoc] at ih)

theorem cons (h : f.Leads [id] r []) (hs : f.Leads ids s []) : f.Leads (id :: ids) (r ++ s) [] :=
  (h.append ids).trans hs

/-- All nodes that are left exist. -/
theorem forall_lt_size (hlt : ∀ id, ∀ child ∈ f.children id, child < f.size)
    (h : f.Leads ids s ids') (hids : ∀ id ∈ ids, id < f.size) : ∀ id ∈ ids', id < f.size := by
  induction h with
  | refl => exact hids
  | leaf _ _ ih => exact ih fun id hid => hids id (List.mem_cons_of_mem _ hid)
  | @branch id _ _ _ _ _ _ _ _ _ hn ha _ ih =>
    refine ih (List.forall_mem_append.2 ⟨fun child hc => ?_, fun id hid => ?_⟩)
    · exact hlt id child (mem_children_of_getElem? hn ha hc)
    · exact hids id (List.mem_cons_of_mem _ hid)

/-- A choice on the way can be raised. -/
theorem exists_raised (h : f.Leads ids (q ++ c :: u) ids') (hc : c.alternative + 1 < f.countAt c) :
    ∃ ids'', f.Leads ids (q ++ [⟨c.node, c.alternative + 1⟩]) ids'' := by
  generalize hs : q ++ c :: u = s at h
  induction h generalizing q with
  | refl => simp at hs
  | leaf hn _ ih =>
    obtain ⟨ids', h⟩ := ih hs
    exact ⟨ids', .leaf hn h⟩
  | @branch id k A i j as a ids ids' s hn ha _ ih =>
    rcases exists_of_append_eq_append_cons hs.symm with ⟨v, hv⟩ | ⟨v, rfl, hv⟩
    · -- the choice at the node itself
      unfold recordChoice at hv
      split at hv
      · rename_i hcount
        obtain ⟨rfl, rfl, -⟩ : q = [] ∧ c = ⟨id, k⟩ ∧ v = [] := by cases q <;> simp_all
        rw [countAt, alternatives_eq hn] at hc
        have hraised := Leads.branch hn (List.getElem?_eq_getElem hc) (.refl (_ ++ ids))
        rw [recordChoice, if_pos hcount, List.append_nil] at hraised
        exact ⟨_, hraised⟩
      · simp at hv
    · obtain ⟨ids', h⟩ := ih hv.symm
      rw [List.append_assoc]
      exact ⟨ids', .branch hn ha h⟩

end Leads

/-! ## Derivations on the way -/

mutual

theorem Unfolds.leads {id : NodeId} {t : ParseTree T N} {r : List Choice} :
    f.Unfolds id t r → f.Leads [id] r []
  | .leaf hn _ => .leaf hn (.refl [])
  | .branch hn ha hs => .branch hn ha (by simpa using hs.leads)

/-- The record of derivations leads to the end. -/
theorem UnfoldsAll.leads {ids : List NodeId} {ts : List (ParseTree T N)} {r : List Choice} :
    f.UnfoldsAll ids ts r → f.Leads ids r []
  | .nil => .refl []
  | .cons h hs => h.leads.cons hs.leads

end

theorem UnfoldsAll.exists_append {ts : List (ParseTree T N)}
    (h : f.UnfoldsAll (ids ++ ids') ts s) : ∃ us vs q r, f.UnfoldsAll ids us q ∧
      f.UnfoldsAll ids' vs r ∧ s = q ++ r := by
  induction ids generalizing ts s with
  | nil => exact ⟨[], ts, [], s, .nil, h, rfl⟩
  | cons id ids ih =>
    cases h with
    | cons h hs =>
      obtain ⟨us, vs, q, r, hus, hvs, rfl⟩ := ih hs
      exact ⟨_, vs, _, r, .cons h hus, hvs, (List.append_assoc ..).symm⟩

theorem UnfoldsAll.exists_unfolds {ts : List (ParseTree T N)} (h : f.UnfoldsAll [id] ts r) :
    ∃ t, f.Unfolds id t r := by
  cases h with
  | cons h hs =>
    cases hs
    exact ⟨_, by rwa [List.append_nil]⟩

/-- Where no token is missing, derivations of what is left complete those on the way. -/
theorem Sound.exists_unfoldsAll_of_leads (hf : f.Sound) {ts : List (ParseTree T N)}
    (h : f.Leads ids r ids') (hs : f.UnfoldsAll ids' ts s) :
    ∃ ts', f.UnfoldsAll ids ts' (r ++ s) := by
  induction h with
  | refl => exact ⟨ts, hs⟩
  | leaf hn _ ih =>
    obtain ⟨ts', hts⟩ := ih hs
    exact ⟨_, .cons (r := []) (.leaf hn (Array.getElem?_eq_getElem (hf.token_lt hn))) hts⟩
  | branch hn ha _ ih =>
    obtain ⟨_, hts⟩ := ih hs
    obtain ⟨us, vs, q, r, hus, hvs, heq⟩ := hts.exists_append
    rw [List.append_assoc, heq, ← List.append_assoc]
    exact ⟨_, .cons (.branch hn ha hus) hvs⟩

end Forest

end EarleyForest
