import EarleyForest.Proofs.Forest.Leading

/-!
# Enumeration of a sound forest

Raising the last choice of a record that can be raised, and going on with first alternatives, leads
to the next record in order (`Sound.nextParse_some`). So handing each cursor back goes once through
all derivations, ascending, and then ends (`Sound.exists_enumerates`). Their number is the one that
the prices give (`Sound.count_eq`). A forest that can be priced and misses no token is sound, so all
of this holds of it too (`enumerates_of_price`).
-/

namespace EarleyForest

variable {T N : Type} [DecidableEq N] [SearchKey N] {g : Grammar T N} {f : Forest g}

namespace Forest

/-! ## Raising a choice -/

/-- Either no choice can be raised, or the last one that can is. -/
theorem bumpLast_cases (r : List Choice) :
    bumpLast (r.zip (r.map f.countAt)) = none ∧ (∀ c ∈ r, ¬ c.alternative + 1 < f.countAt c) ∨
      ∃ q c u, r = q ++ c :: u ∧ c.alternative + 1 < f.countAt c ∧
        (∀ d ∈ u, ¬ d.alternative + 1 < f.countAt d) ∧
        bumpLast (r.zip (r.map f.countAt)) = some (q ++ [⟨c.node, c.alternative + 1⟩]) := by
  induction r with
  | nil => exact .inl ⟨rfl, nofun⟩
  | cons c r ih =>
    rw [List.map_cons, List.zip_cons_cons, bumpLast]
    rcases ih with ⟨hnone, hlast⟩ | ⟨q, d, u, rfl, hd, hu, hsome⟩
    · rw [hnone]
      dsimp only
      split
      · rename_i hc
        exact .inr ⟨[], c, r, rfl, hc, hlast, rfl⟩
      · rename_i hc
        exact .inl ⟨rfl, List.forall_mem_cons.2 ⟨hc, hlast⟩⟩
    · rw [hsome]
      exact .inr ⟨c :: q, d, u, rfl, hd, hu, rfl⟩

/-! ## The next record -/

/-- Where no choice can be raised, no record comes behind. -/
theorem not_precedes_of_last {r s : List Choice} (hr : ∀ c ∈ r, ¬ c.alternative + 1 < f.countAt c)
    (hs : ∀ c ∈ s, c.alternative < f.countAt c) : ¬ Precedes r s := by
  intro h
  induction h with
  | @here id k k' r s h =>
    have hk : ¬ k + 1 < (f.alternatives id).length := hr _ List.mem_cons_self
    have hk' : k' < (f.alternatives id).length := hs _ List.mem_cons_self
    omega
  | later c _ ih =>
    exact ih (fun d hd => hr d (List.mem_cons_of_mem _ hd))
      fun d hd => hs d (List.mem_cons_of_mem _ hd)

theorem precedes_of_takes {q r : List Choice} {c : Choice}
    (h : Takes (q ++ [⟨c.node, c.alternative + 1⟩]) r []) (u : List Choice) :
    Precedes (q ++ c :: u) r := by
  induction q generalizing r with
  | nil =>
    cases h with
    | ahead => exact .here (Nat.lt_succ_self _)
  | cons d q ih =>
    cases h with
    | ahead _ h => exact .later d (ih h)

/-- No record comes between one and what follows it when its last choice that can be is raised. -/
theorem not_precedes_of_precedes {q u r s : List Choice} {c : Choice}
    (hu : ∀ d ∈ u, ¬ d.alternative + 1 < f.countAt d) (hs : ∀ d ∈ s, d.alternative < f.countAt d)
    (hr : Takes (q ++ [⟨c.node, c.alternative + 1⟩]) r []) (h : Precedes (q ++ c :: u) s) :
    ¬ Precedes s r := by
  intro h'
  induction q generalizing r s with
  | nil =>
    cases hr with
    | ahead _ hr =>
      cases h with
      | here h =>
        cases h' with
        | here h' =>
          dsimp only at h'
          omega
        | later _ h' => exact hr.not_precedes h'
      | later _ h =>
        exact not_precedes_of_last hu (fun d hd => hs d (List.mem_cons_of_mem _ hd)) h
  | cons d q ih =>
    cases hr with
    | ahead _ hr =>
      cases h with
      | here h =>
        cases h' with
        | here h' => omega
        | later => omega
      | later _ h =>
        cases h' with
        | here h' => omega
        | later _ h' => exact ih (fun d hd => hs d (List.mem_cons_of_mem _ hd)) hr h h'

theorem exists_firsts {ids : List NodeId}
    (h : ∀ id ∈ ids, ∃ t r, f.Unfolds id t r ∧ Takes [] r []) :
    ∃ ts r, f.UnfoldsAll ids ts r ∧ Takes [] r [] := by
  induction ids with
  | nil => exact ⟨[], [], .nil, .nil []⟩
  | cons id ids ih =>
    obtain ⟨t, r, ht, hr⟩ := h id List.mem_cons_self
    obtain ⟨ts, rs, hts, hrs⟩ := ih fun id' hid => h id' (List.mem_cons_of_mem _ hid)
    exact ⟨t :: ts, r ++ rs, .cons ht hts, hr.append hrs⟩

namespace Sound

variable (hf : f.Sound)
include hf

theorem exists_first_of_endsWithin {depth : Nat} {id : NodeId} (hdepth : f.EndsWithin depth id)
    (hid : id < f.size) : ∃ t r, f.Unfolds id t r ∧ Takes [] r [] := by
  induction depth generalizing id with
  | zero => exact hdepth.elim
  | succ depth ih =>
    rcases hf.node_cases hid with ⟨token, t, hn, ht⟩ | ⟨A, i, j, as, hn, hne⟩
    · exact ⟨.leaf t, [], .leaf hn ht, .nil []⟩
    · obtain ⟨a, as, rfl⟩ := List.exists_cons_of_ne_nil hne
      have hc {child : NodeId} (hc : child ∈ a.children) : child ∈ f.children id :=
        mem_children_of_getElem? hn (List.getElem?_cons_zero ..) hc
      obtain ⟨ts, r, hts, hr⟩ := exists_firsts fun child hmem =>
        ih (hdepth child (hc hmem)) (hf.child_lt id child (hc hmem))
      refine ⟨_, _, .branch hn (List.getElem?_cons_zero ..) hts, ?_⟩
      unfold recordChoice
      split
      · exact .first id hr
      · exact hr

/-- Every node has a derivation by first alternatives. -/
theorem exists_first {id : NodeId} (hid : id < f.size) :
    ∃ t r, f.Unfolds id t r ∧ Takes [] r [] :=
  hf.exists_first_of_endsWithin (hf.endsWithin hid) hid

end Sound

/-- A choice that can be raised leads to another derivation, completed by first alternatives. -/
theorem Unfolds.exists_raised (hf : f.Sound) {id : NodeId} {t : ParseTree T N}
    {q u : List Choice} {c : Choice} (h : f.Unfolds id t (q ++ c :: u))
    (hc : c.alternative + 1 < f.countAt c) :
    ∃ t' r', f.Unfolds id t' r' ∧ Takes (q ++ [⟨c.node, c.alternative + 1⟩]) r' [] := by
  obtain ⟨ids, hraised⟩ := h.leads.exists_raised hc
  have hids := hraised.forall_lt_size hf.child_lt (List.forall_mem_singleton.2 h.lt_size)
  obtain ⟨ts, firsts, hts, htakes⟩ := exists_firsts fun id hid => hf.exists_first (hids id hid)
  obtain ⟨ts', hall⟩ := hf.exists_unfoldsAll_of_leads hraised hts
  obtain ⟨t', h'⟩ := hall.exists_unfolds
  have hprepend := htakes.prepend (q ++ [⟨c.node, c.alternative + 1⟩])
  rw [List.append_nil] at hprepend
  exact ⟨t', _, h', hprepend⟩

/-! ## Handing cursors back -/

/-- Of the derivations whose records are in `P`, the one that comes first. -/
structure IsFirst (f : Forest g) (root : NodeId) (P : List Choice → Prop) (next : NextParse T N) :
    Prop where
  unfolds : f.Unfolds root next.parse.tree next.directions.choices
  holds : P next.directions.choices
  least : ∀ t s, f.Unfolds root t s → P s →
    s = next.directions.choices ∨ Precedes next.directions.choices s

/-- The first of the records in an ascending list is its head, and the others come behind it. -/
theorem IsFirst.eq_head {root : NodeId} {P : List Choice → Prop} {next : NextParse T N}
    (h : f.IsFirst root P next) {s : List Choice} {l : List (List Choice)}
    (hl : (s :: l).Pairwise Precedes)
    (hmem : ∀ s', s' ∈ s :: l ↔ (∃ t, f.Unfolds root t s') ∧ P s')
    (hP : ∀ {s s' : List Choice}, P s → Precedes s s' → P s') :
    next.directions.choices = s ∧
      ∀ s', s' ∈ l ↔ (∃ t, f.Unfolds root t s') ∧ Precedes s s' := by
  obtain ⟨hlt, -⟩ := List.pairwise_cons.1 hl
  obtain ⟨⟨t, hs⟩, hPs⟩ := (hmem s).1 List.mem_cons_self
  refine ⟨?_, fun s' => ⟨fun hs' => ?_, fun ⟨hs', hlt'⟩ => ?_⟩⟩
  · rcases List.mem_cons.1 ((hmem _).2 ⟨⟨_, h.unfolds⟩, h.holds⟩) with heq | htail
    · exact heq
    · rcases h.least t s hs hPs with heq | hlt'
      · exact heq.symm
      · exact absurd hlt' (hlt _ htail).asymm
  · exact ⟨((hmem s').1 (List.mem_cons_of_mem _ hs')).1, hlt s' hs'⟩
  · refine (List.mem_cons.1 ((hmem s').2 ⟨hs', hP hPs hlt'⟩)).resolve_left ?_
    intro heq
    subst heq
    exact Precedes.irrefl _ hlt'

/-- Handing each cursor back gives `nexts` one after the other behind the cursor, and then none. -/
inductive Enumerates (f : Forest g) : Option Directions → List (NextParse T N) → Prop where
  | done {cursor? : Option Directions} (h : f.nextParse cursor? = .ok none) :
    Enumerates f cursor? []
  | next {cursor? : Option Directions} {next : NextParse T N} {nexts : List (NextParse T N)}
    (h : f.nextParse cursor? = .ok (some next))
    (hs : Enumerates f (some next.directions) nexts) : Enumerates f cursor? (next :: nexts)

namespace Sound

variable (hf : f.Sound) {root : NodeId} {t t' : ParseTree T N} {r s choices : List Choice}
include hf

theorem eq_or_precedes (h : f.Unfolds root t r) (h' : f.Unfolds root t' s) :
    r = s ∨ Precedes r s ∨ Precedes s r :=
  have hends := hf.endsWithin h.lt_size
  eq_or_precedes_of_mem (f.pairwise_records _ root) (h.mem_records hends) (h'.mem_records hends)

variable (hroot : f.root? = some root)
include hroot

/-- The first derivation is given first. -/
theorem nextParse_none :
    ∃ next, f.nextParse none = .ok (some next) ∧ f.IsFirst root (fun _ => True) next := by
  obtain ⟨t, r, h, htakes⟩ := hf.exists_first (hf.root_lt root hroot)
  obtain ⟨weight, hfirst⟩ := h.firstFrom_eq (hf.endsWithin h.lt_size) htakes
  refine ⟨⟨⟨t, weight⟩, ⟨r⟩⟩, ?_, h, trivial, fun t' s h' _ => ?_⟩
  · simp only [nextParse, hroot, hfirst, Except.map, Except.mapError]
  · rcases hf.eq_or_precedes h h' with heq | hlt | hlt
    · exact .inl heq.symm
    · exact .inr hlt
    · exact absurd hlt htakes.not_precedes

/-- Behind the derivation of a cursor the next one is given, or none behind the last one. -/
theorem nextParse_some (h : f.Unfolds root t r) :
    f.nextParse (some ⟨r⟩) = .ok none ∧ (∀ t' s, f.Unfolds root t' s → ¬ Precedes r s) ∨
      ∃ next, f.nextParse (some ⟨r⟩) = .ok (some next) ∧ f.IsFirst root (Precedes r) next := by
  have hsuccessor := h.successor_eq (hf.endsWithin h.lt_size)
  rcases bumpLast_cases (f := f) r with ⟨hnone, hlast⟩ | ⟨q, c, u, hr, hc, hu, hsome⟩
  · rw [hnone] at hsuccessor
    refine .inl ⟨?_, fun t' s h' => not_precedes_of_last hlast h'.lt_countAt⟩
    simp only [nextParse, hroot, hsuccessor, bind, Except.bind]
    rfl
  · rw [hsome] at hsuccessor
    obtain ⟨t', r', h', htakes⟩ := (hr ▸ h).exists_raised hf hc
    obtain ⟨weight, hfirst⟩ := h'.firstFrom_eq (hf.endsWithin h.lt_size) htakes
    have between {t' : ParseTree T N} {s : List Choice} (hs : f.Unfolds root t' s)
        (hlt : Precedes r s) : ¬ Precedes s r' :=
      not_precedes_of_precedes hu hs.lt_countAt htakes (hr ▸ hlt)
    refine .inr ⟨⟨⟨t', weight⟩, ⟨r'⟩⟩, ?_, h', ?_, fun t'' s hs hlt => ?_⟩
    · simp only [nextParse, hroot, hsuccessor, bind, Except.bind, hfirst]
      rfl
    · exact hr ▸ precedes_of_takes htakes u
    · rcases hf.eq_or_precedes h' hs with heq | hlt' | hlt'
      · exact .inl heq.symm
      · exact .inr hlt'
      · exact absurd hlt' (between hs hlt)

/-- The records behind a cursor are enumerated in their order. -/
theorem exists_enumerates_some {l : List (List Choice)} (hl : l.Pairwise Precedes)
    (hmem : ∀ s, s ∈ l ↔ (∃ t, f.Unfolds root t s) ∧ Precedes r s) (h : f.Unfolds root t r) :
    ∃ nexts, f.Enumerates (some ⟨r⟩) nexts ∧ nexts.map (·.directions.choices) = l ∧
      ∀ next ∈ nexts, f.Unfolds root next.parse.tree next.directions.choices := by
  induction l generalizing t r with
  | nil =>
    rcases hf.nextParse_some hroot h with ⟨hnone, -⟩ | ⟨next, -, hfirst⟩
    · exact ⟨[], .done hnone, rfl, nofun⟩
    · exact absurd ((hmem _).2 ⟨⟨_, hfirst.unfolds⟩, hfirst.holds⟩) List.not_mem_nil
  | cons s l ih =>
    obtain ⟨⟨t', hs⟩, hrs⟩ := (hmem s).1 List.mem_cons_self
    rcases hf.nextParse_some hroot h with ⟨-, hlast⟩ | ⟨next, hnext, hfirst⟩
    · exact absurd hrs (hlast t' s hs)
    · obtain ⟨rfl, hmem'⟩ := hfirst.eq_head hl hmem Precedes.trans
      obtain ⟨nexts, hnexts, rfl, hunfolds⟩ := ih hl.of_cons hmem' hfirst.unfolds
      exact ⟨next :: nexts, .next hnext hnexts, rfl,
        List.forall_mem_cons.2 ⟨hfirst.unfolds, hunfolds⟩⟩

theorem mem_records_root : r ∈ f.records f.size root ↔ ∃ t, f.Unfolds root t r :=
  hf.mem_records_iff (hf.endsWithin (hf.root_lt root hroot))

/-- All records are enumerated in their order, each with its derivation. -/
theorem exists_enumerates : ∃ nexts, f.Enumerates none nexts ∧
    nexts.map (·.directions.choices) = f.records f.size root ∧
      ∀ next ∈ nexts, f.Unfolds root next.parse.tree next.directions.choices := by
  have hmem {r : List Choice} : r ∈ f.records f.size root ↔ ∃ t, f.Unfolds root t r :=
    hf.mem_records_root hroot
  have hl := f.pairwise_records f.size root
  obtain ⟨next, hnext, hfirst⟩ := hf.nextParse_none hroot
  match hrecords : f.records f.size root with
  | [] => exact absurd (hrecords ▸ hmem.2 ⟨_, hfirst.unfolds⟩) List.not_mem_nil
  | r :: l =>
    rw [hrecords] at hmem hl
    obtain ⟨rfl, hmem'⟩ := hfirst.eq_head hl (fun _ => hmem.trans (and_iff_left trivial).symm)
      fun _ _ => trivial
    obtain ⟨nexts, hnexts, rfl, hunfolds⟩ :=
      hf.exists_enumerates_some hroot hl.of_cons hmem' hfirst.unfolds
    exact ⟨next :: nexts, .next hnext hnexts, rfl,
      List.forall_mem_cons.2 ⟨hfirst.unfolds, hunfolds⟩⟩

/-- The number of derivations is that of the cursors. -/
theorem count_eq : f.count = .ok (f.records f.size root).length := by
  obtain ⟨prices, hprices⟩ := hf.exists_price
  obtain ⟨p, hp⟩ := hf.exists_rootPrice hroot hprices
  have hp' : prices[root]? = some p := by simpa [rootPrice, hroot] using hp
  rw [length_records hprices hp' (hf.endsWithin (hf.root_lt root hroot)), count, hprices]
  simp only [Except.map, countIn, hp]

end Sound

/-! ## Forests that can be priced -/

/-- Handing back each cursor of a forest that can be priced goes through the records of all
derivations, ascending by the alternatives taken, and then ends. Their number is that of the
prices. -/
theorem enumerates_of_price (f : Forest g) (hf : f.InRange) (htokens : f.HasTokens) (root : NodeId)
    (hroot : f.root? = some root) (prices : PriceTable) (h : f.price = .ok prices) :
    ∃ nexts, f.Enumerates none nexts ∧ f.count = .ok nexts.length ∧
      (∀ p : PricedForest g, p.forest = f → p.count.1 = .ok nexts.length) ∧
      (nexts.map fun next => next.directions.choices.map Choice.alternative).Pairwise
        (List.Lex (· < ·)) ∧
      (∀ r, r ∈ nexts.map (·.directions.choices) ↔ ∃ t, f.Unfolds root t r) ∧
      ∀ next ∈ nexts, f.Unfolds root next.parse.tree next.directions.choices := by
  have hsound := sound_of_price hf htokens h
  obtain ⟨nexts, hnexts, hrecords, hunfolds⟩ := hsound.exists_enumerates hroot
  have hcount : f.count = .ok nexts.length := by
    rw [hsound.count_eq hroot, ← hrecords, List.length_map]
  refine ⟨nexts, hnexts, hcount, ?_, ?_, fun r => ?_, hunfolds⟩
  · rintro p rfl
    exact p.count_fst.trans hcount
  · have hascending := hrecords ▸ f.pairwise_records f.size root
    rw [List.pairwise_map] at hascending ⊢
    exact hascending.imp Precedes.lex_alternative
  · rw [hrecords]
    exact hsound.mem_records_root hroot

/-- The node that occurs twice chooses anew at each occurrence. -/
theorem enumerates_of_price_twins : twins.InRange ∧ twins.HasTokens ∧ twins.root? = some 0 ∧
    twins.price = .ok twinPrices ∧ ∃ nexts, twins.Enumerates none nexts ∧ nexts.length = 4 ∧
      [⟨1, 0⟩, ⟨1, 1⟩] ∈ nexts.map (·.directions.choices) := by
  obtain ⟨nexts, hnexts, hcount, -, -, hmem, -⟩ :=
    enumerates_of_price twins inRange_twins hasTokens_twins 0 root_twins twinPrices price_twins
  refine ⟨inRange_twins, hasTokens_twins, root_twins, price_twins, nexts, hnexts, ?_, (hmem _).2 ?_⟩
  · have hfour : twins.count = .ok 4 := by decide +kernel
    exact (Except.ok.inj (hfour.symm.trans hcount)).symm
  · have hS : twins.node? 0 = some (.nonterminal 'S' 0 1 [⟨.ofNat 0, [1, 1]⟩]) := by
      decide +kernel
    have hA : twins.node? 1 =
        some (.nonterminal 'A' 0 1 [⟨.ofNat 1, [2]⟩, ⟨.ofNat 2, []⟩]) := by
      decide +kernel
    have htoken : twins.node? 2 = some (.terminal 0) := by decide +kernel
    have hleaf : twins.Unfolds 2 (.leaf ⟨'a', "a", default⟩) [] := .leaf htoken rfl
    exact ⟨_, .branch (k := 0) hS rfl (.cons (.branch (k := 0) hA rfl (.cons hleaf .nil))
      (.cons (.branch (k := 1) hA rfl .nil) .nil))⟩

end Forest

end EarleyForest
