import EarleyForest.Proofs.Forest.Derivations
import EarleyForest.Proofs.Forest.Enumeration

/-!
# Parsing and enumeration together

The derivations that are enumerated from a forest that is parsed are the derivation trees of the
start over the tokens that were left, each given once, and the prices tell their number
(`Grammar.enumerates_of_parseFrom`).
-/

namespace EarleyForest

variable {T N : Type} [DecidableEq N] [SearchKey N] {g : Grammar T N}

/-- An exact forest enumerates the derivation trees of its start, each once. -/
theorem Forest.IsExact.exists_enumerates {f : Forest g} {start : N} {w : List T} {base : Nat}
    (h : f.IsExact start w base) : ∃ nexts, f.Enumerates none nexts ∧
      (nexts.map (·.parse.tree)).Nodup ∧
      (∀ t, t ∈ nexts.map (·.parse.tree) ↔
        t.IsDerivation g.rules f.tokens (.nonterminal start) base f.tokens.size) ∧
      f.count = .ok nexts.length := by
  have hf := h.sound
  obtain ⟨hroot, as, hn⟩ := h.root
  obtain ⟨nexts, hnexts, hrecords, hunfolds⟩ := hf.exists_enumerates hroot
  refine ⟨nexts, hnexts, ?_, fun t => ?_, ?_⟩
  · have hascending := hrecords ▸ f.pairwise_records f.size 0
    refine List.pairwise_map.2 ((List.pairwise_map.1 hascending).imp_of_mem ?_)
    intro next next' hmem hmem' hlt heq
    have hsame := (hunfolds next hmem).record_unique h (hunfolds next' hmem') heq
    exact Precedes.irrefl _ (hsame ▸ hlt)
  · rw [h.isDerivation_iff hn, List.mem_map]
    constructor
    · intro hx
      obtain ⟨next, hmem, rfl⟩ := hx
      exact ⟨_, hunfolds next hmem⟩
    · intro hx
      obtain ⟨r, hr⟩ := hx
      have hmem := (hf.mem_records_root hroot).2 ⟨_, hr⟩
      obtain ⟨next, hnext, rfl⟩ := List.mem_map.1 (hrecords ▸ hmem)
      exact ⟨next, hnext, (hunfolds next hnext).tree_unique hr⟩
  · rw [hf.count_eq hroot, ← hrecords, List.length_map]

/-- Handing back each cursor of a forest that is parsed gives the derivation trees of the start over
the tokens that were left, each once, and then ends. Their number is that of the prices. -/
theorem Grammar.enumerates_of_parseFrom [DecidableEq T] (g : Grammar T N)
    (hg : g.rules.size < 4294967296) (config : ParserConfig) (stream : TokenStream T) (start : N)
    (f : Forest g) (h : (g.parseFrom config stream start).1 = .ok f) :
    ∃ nexts, f.Enumerates none nexts ∧ (nexts.map (·.parse.tree)).Nodup ∧
      (∀ t, t ∈ nexts.map (·.parse.tree) ↔ t.IsDerivation g.rules stream.tokens
        (.nonterminal start) stream.position stream.tokens.size) ∧
      f.count = .ok nexts.length ∧
      ∀ p : PricedForest g, p.forest = f → p.count.1 = .ok nexts.length := by
  obtain ⟨htokens, hexact⟩ := isExact_of_parseFrom hg h
  obtain ⟨nexts, hnexts, hnodup, hmem, hcount⟩ := hexact.exists_enumerates
  refine ⟨nexts, hnexts, hnodup, htokens ▸ hmem, hcount, ?_⟩
  rintro p rfl
  exact p.count_fst.trans hcount

theorem Grammar.enumerates_of_parseFrom_pairs : pairs.rules.size < 4294967296 ∧
    ∃ f, (pairs.parseFrom {} secondOfTwo 'S').1 = .ok f ∧ ∃ nexts, f.Enumerates none nexts ∧
      ∃ next ∈ nexts, next.parse.tree = .branch 'S' (.ofNat 0) 1 2
        [.branch 'A' (.ofNat 1) 1 2 [.leaf ⟨'a', "a", default⟩],
          .branch 'A' (.ofNat 2) 2 2 []] := by
  have hsize : pairs.rules.size < 4294967296 := by decide
  obtain ⟨f, hf⟩ := exists_parse_secondOfTwo
  obtain ⟨nexts, hnexts, -, hmem, -⟩ := enumerates_of_parseFrom pairs hsize {} secondOfTwo 'S' f hf
  refine ⟨hsize, f, hf, nexts, hnexts, List.mem_map.1 ((hmem _).2 ?_)⟩
  have hleaf : secondOfTwo.tokens[1]? = some ⟨'a', "a", default⟩ := rfl
  have hfirst : pairs.rules[(.ofNat 1 : RuleId).toNat]? =
    some ⟨'A', [.terminal 'a'], .ofNat 2⟩ := by rfl
  have hnone : pairs.rules[(.ofNat 2 : RuleId).toNat]? = some ⟨'A', [], 0⟩ := by rfl
  have hroot : pairs.rules[(.ofNat 0 : RuleId).toNat]? =
    some ⟨'S', [.nonterminal 'A', .nonterminal 'A'], .ofNat 1⟩ := by rfl
  exact .branch hroot (.cons (.branch hfirst (.cons (.leaf hleaf) (.nil 2)))
    (.cons (.branch hnone (.nil 2)) (.nil 2)))

end EarleyForest
