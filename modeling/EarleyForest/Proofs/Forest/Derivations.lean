import EarleyForest.Forest.Unfolding
import EarleyForest.Proofs.Forest.WellFormed
import EarleyForest.Tree.Derivation

/-!
# The derivations in an exact forest

What can be unfolded from a node of an exact forest are just the derivation trees of its nonterminal
over its range (`IsExact.isDerivation_iff`). A tree determines the choices that lead to it, since
the ranges of its children tell the alternatives of a node apart (`Unfolds.record_unique`).
-/

namespace EarleyForest

variable {T N : Type}

theorem kindsBetween_eq_segment {tokens : Array (Token T)} {w : List T} {base : Nat}
    (hw : w = (tokens.toList.drop base).map Token.kind) (i j : Nat) :
    kindsBetween tokens (base + i) (base + j) = segment w i j := by
  rw [kindsBetween, segment, hw, Array.toList_extract, List.extract_eq_take_drop,
    ← List.map_take, ← List.map_drop, List.drop_take, List.drop_drop, Nat.add_sub_add_left]

theorem ParseTree.IsDerivation.exists_leaf {rules : Array (Rule T N)} {tokens : Array (Token T)}
    {t : ParseTree T N} {kind : T} {i j : Nat}
    (h : t.IsDerivation rules tokens (.terminal kind) i j) :
    ∃ token, t = .leaf token ∧ tokens[i]? = some token ∧ j = i + 1 := by
  generalize hX : Symbol.terminal kind = X at h
  cases h with
  | leaf h => exact ⟨_, rfl, h, rfl⟩
  | branch => cases hX

theorem Tiles.exists_eq_cons {nodes : Array (Node N)} {tokens : Array (Token T)}
    {Xs : List (Symbol T N)} {ids : List NodeId} {bounds : List Nat} {i k : Nat}
    (h : Tiles nodes tokens Xs ids bounds i k) : ∃ rest, bounds = i :: rest := by
  cases h <;> exact ⟨_, rfl⟩

variable [DecidableEq N] [SearchKey N] {g : Grammar T N} {start : N} {f : Forest g} {w : List T}
  {base : Nat}

namespace Forest

/-! ## Unfoldings are derivations -/

mutual

theorem Unfolds.isDerivation (h : f.IsExact start w base) {id : NodeId} {t : ParseTree T N}
    {r : List Choice} {A : N} {i j : Nat} {as : List Alternative} :
    f.Unfolds id t r → f.node? id = some (.nonterminal A i j as) →
      t.IsDerivation g.rules f.tokens (.nonterminal A) i j
  | .leaf hn' _, hn => by cases hn.symm.trans hn'
  | .branch hn' ha hs, hn => by
    cases hn.symm.trans hn'
    obtain ⟨r, hr, rfl, htiles⟩ := h.tiles hn (List.mem_of_getElem? ha)
    exact .branch hr (hs.areDerivations h htiles)

theorem UnfoldsAll.areDerivations (h : f.IsExact start w base) {ids : List NodeId}
    {ts : List (ParseTree T N)} {r : List Choice} {Xs : List (Symbol T N)} {bounds : List Nat}
    {i k : Nat} :
    f.UnfoldsAll ids ts r → Tiles f.arena.nodes f.tokens Xs ids bounds i k →
      ParseTree.AreDerivations g.rules f.tokens ts Xs i k
  | .nil, .nil i => .nil i
  | .cons ht hts, .terminal hn htok hs => by
    cases ht with
    | leaf hn' htok' =>
      cases hn.symm.trans hn'
      cases htok.symm.trans htok'
      exact .cons (.leaf htok) (hts.areDerivations h hs)
    | branch hn' => cases hn.symm.trans hn'
  | .cons ht hts, .nonterminal hn _ hs => .cons (ht.isDerivation h hn) (hts.areDerivations h hs)

end

/-! ## Derivations are unfoldings -/

mutual

theorem exists_unfolds_of_isDerivation (h : f.IsExact start w base) {t : ParseTree T N} {A : N}
    {id : NodeId} {X : Symbol T N} {i j : Nat} {as : List Alternative} :
    t.IsDerivation g.rules f.tokens X i j → X = .nonterminal A →
      f.node? id = some (.nonterminal A i j as) → ∃ r, f.Unfolds id t r
  | .leaf _, hX, _ => by cases hX
  | .branch hr hc, hX, hn => by
    cases hX
    obtain ⟨i, j, ways, rfl, rfl, -, hways, hall⟩ := h.node hn
    obtain ⟨split, hsplit, htiled⟩ := exists_split_of_areDerivations h hc rfl rfl
    obtain ⟨a, ha, rfl, r, hr', htiles⟩ :=
      exists_of_mem_left hall (hways.mem_iff.2 ⟨_, hr, rfl, hsplit⟩)
    cases hr.symm.trans hr'
    obtain ⟨choices, hs⟩ := htiled htiles rfl
    obtain ⟨k, hk⟩ := List.getElem?_of_mem ha
    exact ⟨_, .branch hn hk hs⟩

theorem exists_split_of_areDerivations (h : f.IsExact start w base) {ts : List (ParseTree T N)}
    {Xs : List (Symbol T N)} {s e i k : Nat} :
    ParseTree.AreDerivations g.rules f.tokens ts Xs s e → s = base + i → e = base + k →
      ∃ split, IsSplit g.rules.toList w Xs split i k ∧ ∀ {ids bounds},
        Tiles f.arena.nodes f.tokens Xs ids bounds s e → bounds = split.map (base + ·) →
          ∃ r, f.UnfoldsAll ids ts r
  | .nil _, hs, he => by
    obtain rfl : i = k := by omega
    exact ⟨[i], .nil i, fun htiles _ => by cases htiles; exact ⟨[], .nil⟩⟩
  | .cons ht hts, hs, he => by
    have hij := ht.start_le
    obtain ⟨j, rfl⟩ := Nat.exists_eq_add_of_le (Nat.le_trans (hs ▸ Nat.le_add_right base i) hij)
    subst hs
    obtain ⟨split, hsplit, htiled⟩ := exists_split_of_areDerivations h hts rfl he
    have hy := ht.derives.yields
    rw [kindsBetween_eq_segment h.kinds] at hy
    refine ⟨i :: split, .cons (by omega) hy hsplit, fun htiles hbounds => ?_⟩
    cases htiles with
    | terminal hn _ hrest =>
      obtain ⟨token, rfl, htok, hj⟩ := ht.exists_leaf
      obtain ⟨r, hr⟩ := htiled (hj ▸ hrest) (List.cons_eq_cons.1 hbounds).2
      exact ⟨_, .cons (.leaf hn htok) hr⟩
    | nonterminal hn _ hrest =>
      -- the boundary behind the child is where its tree ends
      obtain ⟨_, rfl⟩ := hrest.exists_eq_cons
      obtain ⟨_, rfl⟩ := hsplit.exists_eq_cons
      obtain ⟨-, hbounds⟩ := List.cons_eq_cons.1 hbounds
      obtain ⟨rfl, -⟩ := List.cons_eq_cons.1 hbounds
      obtain ⟨r, hr⟩ := exists_unfolds_of_isDerivation h ht rfl hn
      obtain ⟨rs, hrs⟩ := htiled hrest hbounds
      exact ⟨_, .cons hr hrs⟩

end

/-- The derivations of a node are the derivation trees of its nonterminal over its range. -/
theorem IsExact.isDerivation_iff (h : f.IsExact start w base) {id : NodeId} {t : ParseTree T N}
    {A : N} {i j : Nat} {as : List Alternative} (hn : f.node? id = some (.nonterminal A i j as)) :
    t.IsDerivation g.rules f.tokens (.nonterminal A) i j ↔ ∃ r, f.Unfolds id t r :=
  ⟨fun ht => exists_unfolds_of_isDerivation h ht rfl hn, fun ⟨_, ht⟩ => ht.isDerivation h hn⟩

/-! ## Trees determine their choices -/

theorem Unfolds.exists_leaf {id : NodeId} {token : Nat} {t : ParseTree T N}
    {r : List Choice} (h : f.Unfolds id t r) (hn : f.node? id = some (.terminal token)) :
    ∃ tok, t = .leaf tok := by
  cases h with
  | leaf => exact ⟨_, rfl⟩
  | branch hn' => cases hn.symm.trans hn'

theorem Unfolds.exists_branch {id : NodeId} {A : N} {i j : Nat} {as : List Alternative}
    {t : ParseTree T N} {r : List Choice} (h : f.Unfolds id t r)
    (hn : f.node? id = some (.nonterminal A i j as)) : ∃ rule ts, t = .branch A rule i j ts := by
  cases h with
  | leaf hn' => cases hn.symm.trans hn'
  | branch hn' =>
    cases hn.symm.trans hn'
    exact ⟨_, _, rfl⟩

/-- Trees one behind the other tell the nodes of which they are derivations. -/
theorem IsExact.ids_unique (h : f.IsExact start w base) {Xs Xs' : List (Symbol T N)}
    {ids ids' : List NodeId} {bounds bounds' : List Nat} {i k k' : Nat}
    {ts : List (ParseTree T N)} {r r' : List Choice}
    (htiles : Tiles f.arena.nodes f.tokens Xs ids bounds i k)
    (htiles' : Tiles f.arena.nodes f.tokens Xs' ids' bounds' i k')
    (hs : f.UnfoldsAll ids ts r) (hs' : f.UnfoldsAll ids' ts r') : ids = ids' := by
  induction htiles generalizing Xs' ids' bounds' ts r r' with
  | nil =>
    cases hs
    cases hs'
    rfl
  | terminal hn _ _ ih =>
    cases hs with
    | cons ht hts =>
      obtain ⟨tok, rfl⟩ := ht.exists_leaf hn
      cases hs' with
      | cons ht' hts' =>
        cases htiles' with
        | terminal hn' _ hrest =>
          obtain rfl := Option.some.inj
            ((h.indexed.leaves_iff.2 hn).symm.trans (h.indexed.leaves_iff.2 hn'))
          rw [ih hrest hts hts']
        | nonterminal hn' =>
          obtain ⟨_, _, heq⟩ := ht'.exists_branch hn'
          cases heq
  | nonterminal hn _ _ ih =>
    cases hs with
    | cons ht hts =>
      obtain ⟨rule, ts, rfl⟩ := ht.exists_branch hn
      cases hs' with
      | cons ht' hts' =>
        cases htiles' with
        | terminal hn' =>
          obtain ⟨_, heq⟩ := ht'.exists_leaf hn'
          cases heq
        | nonterminal hn' _ hrest =>
          obtain ⟨_, _, heq⟩ := ht'.exists_branch hn'
          cases heq
          obtain rfl := Option.some.inj ((h.find?_eq hn).symm.trans (h.find?_eq hn'))
          rw [ih hrest hts hts']

mutual

/-- A derivation of a node has one record only. -/
theorem Unfolds.record_unique (h : f.IsExact start w base) {id : NodeId} {t t' : ParseTree T N}
    {r r' : List Choice} : f.Unfolds id t r → f.Unfolds id t' r' → t = t' → r = r'
  | .leaf _ _, .leaf _ _, _ => rfl
  | .leaf _ _, .branch _ _ _, heq => by cases heq
  | .branch _ _ _, .leaf _ _, heq => by cases heq
  | .branch (a := a) hn ha hs, .branch (a := b) hn' hb hs', heq => by
    cases hn.symm.trans hn'
    obtain ⟨-, hrule, -, -, rfl⟩ := ParseTree.branch.inj heq
    obtain ⟨_, -, -, htiles⟩ := h.tiles hn (List.mem_of_getElem? ha)
    obtain ⟨_, -, -, htiles'⟩ := h.tiles hn (List.mem_of_getElem? hb)
    have hchildren := h.ids_unique htiles htiles' hs hs'
    obtain rfl : a = b := by
      cases a
      cases b
      exact congr (congrArg Alternative.mk hrule) hchildren
    -- no alternative stands twice at the node
    obtain rfl := (List.getElem?_inj (List.getElem?_eq_some_iff.1 ha).1
      (h.wellFormed.nodup hn)).1 (ha.trans hb.symm)
    rw [hs.record_unique h hs' rfl]

theorem UnfoldsAll.record_unique (h : f.IsExact start w base) {ids : List NodeId}
    {ts ts' : List (ParseTree T N)} {r r' : List Choice} :
    f.UnfoldsAll ids ts r → f.UnfoldsAll ids ts' r' → ts = ts' → r = r'
  | .nil, .nil, _ => rfl
  | .cons ht hts, .cons ht' hts', heq => by
    obtain ⟨rfl, rfl⟩ := List.cons_eq_cons.1 heq
    rw [ht.record_unique h ht' rfl, hts.record_unique h hts' rfl]

end

end Forest

end EarleyForest
