import EarleyForest.Proofs.Forest.Cheapest
import EarleyForest.Proofs.Parser.Enumeration

/-!
# Ambiguity

What a node that is reached can be derived to stands in derivations of the root, and what surrounds
it there does not depend on it (`Sound.exists_surroundings`). So an ambiguous node, which has a
derivation by each of its alternatives, makes the whole forest have several. A forest that is parsed
has one derivation just when no node is ambiguous, and otherwise it has different ones
(`Grammar.unambiguous_iff_of_parseFrom`).
-/

namespace EarleyForest

variable {T N : Type} [DecidableEq N] [SearchKey N] {g : Grammar T N} {f : Forest g}

namespace Forest

theorem mem_ambiguityPoints {id : NodeId} :
    id ∈ f.ambiguityPoints ↔ 1 < (f.alternatives id).length := by
  simp only [ambiguityPoints, List.mem_filter, List.mem_range, decide_eq_true_eq,
    and_iff_right_iff_imp]
  intro h
  obtain ⟨a, ha⟩ := List.exists_mem_of_length_pos (Nat.lt_of_succ_lt h)
  exact lt_size_of_mem_alternatives ha

theorem exists_nonterminal {id : NodeId} {a : Alternative} (ha : a ∈ f.alternatives id) :
    ∃ A i j, f.node? id = some (.nonterminal A i j (f.alternatives id)) := by
  obtain ⟨node, hn⟩ := exists_node (lt_size_of_mem_alternatives ha)
  rw [alternatives_eq hn] at ha ⊢
  cases node with
  | terminal => cases ha
  | nonterminal A i j as => exact ⟨A, i, j, hn⟩

/-! ## Where no node is ambiguous -/

theorem not_lt_of_ambiguityPoints_eq_nil (hf : f.ambiguityPoints = []) {id : NodeId} {A : N}
    {i j : Nat} {as : List Alternative} (hn : f.node? id = some (.nonterminal A i j as)) :
    ¬ 1 < as.length := by
  intro hlt
  have hmem : id ∈ f.ambiguityPoints := mem_ambiguityPoints.2 ((alternatives_eq hn).symm ▸ hlt)
  rw [hf] at hmem
  cases hmem

mutual

/-- Without ambiguous nodes there is nothing to choose. -/
theorem Unfolds.record_eq_nil (hf : f.ambiguityPoints = []) {id : NodeId} {t : ParseTree T N}
    {r : List Choice} : f.Unfolds id t r → r = []
  | .leaf _ _ => rfl
  | .branch hn _ hs => by
    rw [recordChoice, if_neg (not_lt_of_ambiguityPoints_eq_nil hf hn), hs.record_eq_nil hf,
      List.append_nil]

theorem UnfoldsAll.record_eq_nil (hf : f.ambiguityPoints = []) {ids : List NodeId}
    {ts : List (ParseTree T N)} {r : List Choice} : f.UnfoldsAll ids ts r → r = []
  | .nil => rfl
  | .cons ht hts => by rw [ht.record_eq_nil hf, hts.record_eq_nil hf, List.append_nil]

end

/-! ## Where a node is ambiguous -/

theorem UnfoldsAll.append {ids ids' : List NodeId} {ts us : List (ParseTree T N)}
    {r s : List Choice} (h : f.UnfoldsAll ids ts r) (h' : f.UnfoldsAll ids' us s) :
    f.UnfoldsAll (ids ++ ids') (ts ++ us) (r ++ s) := by
  induction ids generalizing ts r with
  | nil =>
    cases h
    exact h'
  | cons id ids ih =>
    cases h with
    | cons ht hts =>
      rw [List.append_assoc]
      exact .cons ht (ih hts)

namespace Sound

variable (hf : f.Sound)
include hf

theorem exists_unfoldsAll (id : NodeId) (ids : List NodeId)
    (h : ∀ child ∈ ids, child ∈ f.children id) : ∃ ts r, f.UnfoldsAll ids ts r := by
  obtain ⟨ts, r, hts, -⟩ := exists_firsts fun child hc =>
    hf.exists_first (hf.child_lt id child (h child hc))
  exact ⟨ts, r, hts⟩

/-- A node has a derivation by each of its alternatives. -/
theorem exists_unfolds_by {id : NodeId} {k : Nat} (hk : k < (f.alternatives id).length) :
    ∃ t r, f.Unfolds id t (recordChoice id k (f.alternatives id).length ++ r) := by
  obtain ⟨A, i, j, hn⟩ := exists_nonterminal (List.getElem_mem hk)
  obtain ⟨ts, r, hts⟩ := hf.exists_unfoldsAll id _ fun child hc =>
    mem_children_iff.2 ⟨_, List.getElem_mem hk, hc⟩
  exact ⟨_, r, .branch hn (List.getElem?_eq_getElem hk) hts⟩

/-- Whatever a child is derived to, the node is derived to that with the same surroundings. -/
theorem exists_surroundings_of_child {id child : NodeId} (hc : child ∈ f.children id) :
    ∃ q u, ∀ t r, f.Unfolds child t r → ∃ t', f.Unfolds id t' (q ++ r ++ u) := by
  obtain ⟨a, ha, hc⟩ := mem_children_iff.1 hc
  obtain ⟨A, i, j, hn⟩ := exists_nonterminal ha
  obtain ⟨k, hk⟩ := List.mem_iff_getElem?.1 ha
  obtain ⟨before, behind, hsplit⟩ := List.append_of_mem hc
  have hin (b : NodeId) (hb : b ∈ a.children) : b ∈ f.children id :=
    mem_children_iff.2 ⟨a, ha, hb⟩
  obtain ⟨ts, q, hts⟩ := hf.exists_unfoldsAll id before fun b hb =>
    hin b (hsplit ▸ List.mem_append_left _ hb)
  obtain ⟨us, u, hus⟩ := hf.exists_unfoldsAll id behind fun b hb =>
    hin b (hsplit ▸ List.mem_append_right _ (List.mem_cons_of_mem _ hb))
  refine ⟨recordChoice id k (f.alternatives id).length ++ q, u, fun t r h => ?_⟩
  have hall : f.UnfoldsAll a.children (ts ++ t :: us) (q ++ (r ++ u)) :=
    hsplit ▸ hts.append (.cons h hus)
  have hbranch := Unfolds.branch hn hk hall
  simp only [← List.append_assoc] at hbranch
  exact ⟨_, hbranch⟩

/-- Whatever a node that is reached is derived to, where it is reached from is derived to that with
the same surroundings. -/
theorem exists_surroundings {a b : NodeId} (h : f.Reaches a b) :
    ∃ q u, ∀ t r, f.Unfolds b t r → ∃ t', f.Unfolds a t' (q ++ r ++ u) := by
  induction h with
  | refl id => exact ⟨[], [], fun t r h => ⟨t, by simpa using h⟩⟩
  | step hc _ ih =>
    obtain ⟨q, u, hbelow⟩ := ih
    obtain ⟨q', u', habove⟩ := hf.exists_surroundings_of_child hc
    refine ⟨q' ++ q, u ++ u', fun t r h => ?_⟩
    obtain ⟨t', h'⟩ := hbelow t r h
    obtain ⟨t'', h''⟩ := habove t' _ h'
    exact ⟨t'', by simpa only [List.append_assoc] using h''⟩

/-- From where an ambiguous node is reached there are derivations with different records. -/
theorem exists_ne_of_reaches {a b : NodeId} (h : f.Reaches a b)
    (hb : 1 < (f.alternatives b).length) :
    ∃ t r t' r', f.Unfolds a t r ∧ f.Unfolds a t' r' ∧ r ≠ r' := by
  obtain ⟨q, u, hsurround⟩ := hf.exists_surroundings h
  obtain ⟨t₀, r₀, h₀⟩ := hf.exists_unfolds_by (Nat.lt_of_succ_lt hb)
  obtain ⟨t₁, r₁, h₁⟩ := hf.exists_unfolds_by hb
  obtain ⟨t, ht⟩ := hsurround _ _ h₀
  obtain ⟨t', ht'⟩ := hsurround _ _ h₁
  refine ⟨t, _, t', _, ht, ht', ?_⟩
  simp [recordChoice, hb]

end Sound

/-! ## Forests that are parsed -/

namespace IsExact

variable {start : N} {w : List T} {base : Nat} (h : f.IsExact start w base)
include h

/-- Without ambiguous nodes there is one derivation. -/
theorem count_eq_one (hf : f.ambiguityPoints = []) : f.count = .ok 1 := by
  have hroot := h.root.1
  obtain ⟨t, r, hr, -⟩ := h.sound.exists_first (h.sound.root_lt 0 hroot)
  have hmem := (h.sound.mem_records_root hroot).2 ⟨t, hr⟩
  have hnil (s : List Choice) (hs : s ∈ f.records f.size 0) : s = [] := by
    obtain ⟨_, hs⟩ := (h.sound.mem_records_root hroot).1 hs
    exact hs.record_eq_nil hf
  have hascending := f.pairwise_records f.size 0
  rw [h.sound.count_eq hroot]
  generalize f.records f.size 0 = records at hmem hnil hascending
  match records with
  | [s] => rfl
  | s :: s' :: records =>
    have hlt := (List.pairwise_cons.1 hascending).1 s' List.mem_cons_self
    rw [hnil s List.mem_cons_self, hnil s' (.tail _ List.mem_cons_self)] at hlt
    exact absurd hlt (Precedes.irrefl [])

/-- With an ambiguous node there are different derivations. -/
theorem exists_ne_of_ambiguous {id : NodeId} (hid : 1 < (f.alternatives id).length) :
    ∃ nexts, f.Enumerates none nexts ∧ f.count = .ok nexts.length ∧
      ∃ next ∈ nexts, ∃ next' ∈ nexts, next.parse.tree ≠ next'.parse.tree := by
  obtain ⟨nexts, hnexts, -, hmem, hcount⟩ := h.exists_enumerates
  obtain ⟨hroot, as, hn⟩ := h.root
  obtain ⟨a, ha⟩ := List.exists_mem_of_length_pos (Nat.lt_of_succ_lt hid)
  obtain ⟨t, r, t', r', hr, hr', hne⟩ := h.sound.exists_ne_of_reaches
    (reaches_of_isRooted h.rooted id (lt_size_of_mem_alternatives ha)) hid
  have hgiven {t : ParseTree T N} {r : List Choice} (hr : f.Unfolds 0 t r) :
      ∃ next ∈ nexts, next.parse.tree = t :=
    List.mem_map.1 ((hmem t).2 ((h.isDerivation_iff hn).2 ⟨r, hr⟩))
  obtain ⟨next, hnext, rfl⟩ := hgiven hr
  obtain ⟨next', hnext', rfl⟩ := hgiven hr'
  exact ⟨nexts, hnexts, hcount, next, hnext, next', hnext', fun heq =>
    hne (hr.record_unique h hr' heq)⟩

end IsExact

end Forest

/-- A forest that is parsed has no ambiguous node just when it has one derivation. With an ambiguous
node it has two at least, and an iteration gives different ones. -/
theorem Grammar.unambiguous_iff_of_parseFrom [DecidableEq T] (g : Grammar T N)
    (hg : g.rules.size < 4294967296) (config : ParserConfig) (stream : TokenStream T) (start : N)
    (f : Forest g) (h : (g.parseFrom config stream start).1 = .ok f) :
    (∀ p : PricedForest g, p.forest = f → (f.ambiguityPoints = [] ↔ p.count.1 = .ok 1)) ∧
      ∀ id, 1 < (f.alternatives id).length →
        (∀ p : PricedForest g, p.forest = f → ∃ count, p.count.1 = .ok count ∧ 2 ≤ count) ∧
        ∃ parses : List (Parse T N),
          (∀ n, ((Parses.start f).take n).1 = (parses.take n).map .ok) ∧
          ∃ parse ∈ parses, ∃ other ∈ parses, parse.tree ≠ other.tree := by
  obtain ⟨-, hexact⟩ := isExact_of_parseFrom hg h
  have two {id : NodeId} (hid : 1 < (f.alternatives id).length) :
      ∃ nexts, f.Enumerates none nexts ∧ f.count = .ok nexts.length ∧ 2 ≤ nexts.length ∧
        ∃ next ∈ nexts, ∃ next' ∈ nexts, next.parse.tree ≠ next'.parse.tree := by
    obtain ⟨nexts, hnexts, hcount, next, hnext, next', hnext', hne⟩ :=
      hexact.exists_ne_of_ambiguous hid
    refine ⟨nexts, hnexts, hcount, ?_, next, hnext, next', hnext', hne⟩
    match nexts with
    | [only] =>
      obtain rfl := List.mem_singleton.1 hnext
      obtain rfl := List.mem_singleton.1 hnext'
      exact absurd rfl hne
    | _ :: _ :: _ => exact Nat.le_add_left 2 _
  refine ⟨?_, fun id hid => ?_⟩
  · rintro p rfl
    rw [p.count_fst]
    refine ⟨hexact.count_eq_one, fun hcount => List.eq_nil_iff_forall_not_mem.2 fun id hid => ?_⟩
    obtain ⟨nexts, -, hcount', hle, -⟩ := two (Forest.mem_ambiguityPoints.1 hid)
    obtain heq := Except.ok.inj (hcount.symm.trans hcount')
    omega
  · obtain ⟨nexts, hnexts, hcount, hle, next, hnext, next', hnext', hne⟩ := two hid
    refine ⟨?_, nexts.map Forest.NextParse.parse, hnexts.take_eq, next.parse,
      List.mem_map_of_mem hnext, next'.parse, List.mem_map_of_mem hnext', hne⟩
    rintro p rfl
    exact ⟨nexts.length, p.count_fst.trans hcount, hle⟩

/-- The single `'a'` may be below the first `'A'` or below the second. -/
theorem Grammar.unambiguous_iff_of_parseFrom_pairs : pairs.rules.size < 4294967296 ∧
    ∃ f, (pairs.parseFrom {} secondOfTwo 'S').1 = .ok f ∧
      ∃ id, 1 < (f.alternatives id).length ∧ ∃ parses : List (Parse Char Char),
        (∀ n, ((Parses.start f).take n).1 = (parses.take n).map .ok) ∧
        ∃ parse ∈ parses, ∃ other ∈ parses, parse.tree ≠ other.tree := by
  have hsize : pairs.rules.size < 4294967296 := by decide
  obtain ⟨f, hf⟩ := exists_parse_secondOfTwo
  obtain ⟨htokens, hexact⟩ := isExact_of_parseFrom hsize hf
  obtain ⟨-, as, hn⟩ := hexact.root
  have hunfolds (t : ParseTree Char Char) (ht : t.IsDerivation pairs.rules secondOfTwo.tokens
      (.nonterminal 'S') 1 2) : ∃ r, f.Unfolds 0 t r :=
    (hexact.isDerivation_iff hn).1 (by rw [htokens]; exact ht)
  have hleaf : secondOfTwo.tokens[1]? = some ⟨'a', "a", default⟩ := rfl
  have hfull : pairs.rules[(.ofNat 1 : RuleId).toNat]? =
    some ⟨'A', [.terminal 'a'], .ofNat 2⟩ := by rfl
  have hnone : pairs.rules[(.ofNat 2 : RuleId).toNat]? = some ⟨'A', [], 0⟩ := by rfl
  have hroot : pairs.rules[(.ofNat 0 : RuleId).toNat]? =
    some ⟨'S', [.nonterminal 'A', .nonterminal 'A'], .ofNat 1⟩ := by rfl
  obtain ⟨r, hfirst⟩ := hunfolds _ (.branch hroot
    (.cons (.branch hfull (.cons (.leaf hleaf) (.nil 2)))
      (.cons (.branch hnone (.nil 2)) (.nil 2))))
  obtain ⟨r', hsecond⟩ := hunfolds _ (.branch hroot
    (.cons (.branch hnone (.nil 1))
      (.cons (.branch hfull (.cons (.leaf hleaf) (.nil 2))) (.nil 2))))
  cases hpoints : f.ambiguityPoints with
  | nil =>
    obtain rfl := hfirst.record_eq_nil hpoints
    obtain rfl := hsecond.record_eq_nil hpoints
    have hsame := hfirst.tree_unique hsecond
    simp at hsame
  | cons id points =>
    have hid := Forest.mem_ambiguityPoints.1 (hpoints ▸ List.mem_cons_self)
    exact ⟨hsize, f, hf, id, hid,
      ((unambiguous_iff_of_parseFrom pairs hsize {} secondOfTwo 'S' f hf).2 id hid).2⟩

end EarleyForest
