import EarleyForest.Proofs.Forest.Blame
import EarleyForest.Proofs.Forest.Matching

/-!
# Forests that are parsed are never at fault

Forests that are parsed are sound, so nothing that is asked of them fails, unless the cursor that is
handed in is foreign (`Grammar.isFaultless_of_parseFrom`). One that takes the last of all words at an
ambiguous node is not even turned down: it stops the request.
-/

namespace EarleyForest

variable {T N : Type} [DecidableEq T] [DecidableEq N] [SearchKey N]

/-- A forest that is parsed is never at fault: it has no cycle, all its prices and its derivations
can be had, and the next derivation too, unless the cursor is foreign. Then the cursor is turned
down, or it stops the request: it leads to an ambiguous node and takes an alternative there that is
out of range and has no word behind it. -/
theorem Grammar.isFaultless_of_parseFrom (g : Grammar T N) (hg : g.rules.size < 4294967296)
    (config : ParserConfig) (stream : TokenStream T) (start : N) (f : Forest g)
    (h : (g.parseFrom config stream start).1 = .ok f) :
    f.Acyclic ∧ (∃ prices, f.price = .ok prices) ∧
      (∀ p : PricedForest g, p.forest = f →
        (∃ prices, p.price.1 = .ok prices) ∧ (∃ price, p.rootPrice.1 = .ok (some price)) ∧
          (∃ count, p.count.1 = .ok count) ∧ (∃ cost, p.minCost.1 = .ok (some cost)) ∧
          ∃ parse, p.cheapest.1 = .ok parse) ∧
      (∃ next, f.nextParse none = .ok (some next)) ∧
      ∀ d, ((∃ next?, f.nextParse (some d) = .ok next?) ∨
          (∃ fault, f.nextParse (some d) = .error (.fails (.invalidDirections fault))) ∨
          f.nextParse (some d) = .error .overflow) ∧
        (f.nextParse (some d) = .error .overflow ↔
          ∃ root ∈ f.root?, ∃ c, f.Blames root d c ∧ 18446744073709551615 ≤ c.alternative) := by
  obtain ⟨-, hexact⟩ := isExact_of_parseFrom hg h
  have hf := hexact.sound
  have hroot := hexact.root.1
  have hlt := hf.root_lt 0 hroot
  obtain ⟨prices, hprices⟩ := hf.exists_price
  refine ⟨hf.acyclic, ⟨prices, hprices⟩, ?_, ?_, fun d => ⟨hf.nextParse_cases d, ?_⟩⟩
  · rintro p rfl
    obtain ⟨price, hprice⟩ := hf.exists_rootPrice hroot hprices
    obtain ⟨parse, hparse⟩ := hf.exists_cheapestFrom hprices hlt
    have hfst := p.price_fst.trans hprices
    refine ⟨⟨prices, hfst⟩, ⟨price, ?_⟩, ⟨p.forest.countIn prices, ?_⟩, ⟨price.minCost, ?_⟩,
      parse, ?_⟩
    · simp only [PricedForest.rootPrice, hfst, p.price_snd_forest, Except.map, hprice]
    · simp only [p.count_fst, Forest.count, hprices, Except.map]
    · simp only [PricedForest.minCost, hfst, p.price_snd_forest, Except.map, hprice,
        Option.map_some]
    · simp only [PricedForest.cheapest, hroot, hfst, p.price_snd_forest]
      exact hparse
  · obtain ⟨next, hnext⟩ := hf.exists_firstFrom hlt
    exact ⟨next, by simp only [Forest.nextParse, hroot, hnext]; rfl⟩
  · rw [Forest.nextParse_eq_overflow_iff hroot (hf.endsWithin hlt), hroot]
    simp

/-- The single `'a'` is below the second `'A'` or below the first. -/
theorem isSplit_pairs_iff {split : List Nat} :
    IsSplit pairs.rules.toList ['a'] [.nonterminal 'A', .nonterminal 'A'] split 0 1 ↔
      split = [0, 0, 1] ∨ split = [0, 1, 1] := by
  constructor
  · intro h
    obtain _ | ⟨hm, -, _ | ⟨hm', -, _ | _⟩⟩ := h
    rename_i m
    obtain rfl | rfl : m = 0 ∨ m = 1 := by omega
    · exact .inl rfl
    · exact .inr rfl
  · have hfull : Yields pairs.rules.toList [.nonterminal 'A'] (segment ['a'] 0 1) :=
      .of_rule (r := ⟨'A', [.terminal 'a'], .ofNat 2⟩) (by decide +kernel) (.terminal .nil)
    have hnone : Yields pairs.rules.toList [.nonterminal 'A'] [] :=
      .of_rule (r := ⟨'A', [], 0⟩) (by decide +kernel) .nil
    rintro (rfl | rfl)
    · exact .cons (Nat.le_refl 0) hnone (.cons (Nat.zero_le 1) hfull (.nil 1))
    · exact .cons (Nat.zero_le 1) hfull (.cons (Nat.le_refl 1) hnone (.nil 1))

theorem length_alternatives_secondOfTwo {f : Forest pairs}
    (hf : (pairs.parseFrom {} secondOfTwo 'S').1 = .ok f) : (f.alternatives 0).length = 2 := by
  obtain ⟨htokens, hexact⟩ := Grammar.isExact_of_parseFrom (by decide) hf
  obtain ⟨-, as, hn⟩ := hexact.root
  obtain ⟨i, j, ways, hi, hj, -, hways, hfollows⟩ := hexact.node hn
  have hsize : f.tokens.size = 2 := by rw [htokens]; rfl
  have hposition : secondOfTwo.position = 1 := rfl
  obtain rfl : i = 0 := by omega
  obtain rfl : j = 1 := by omega
  have hS : pairs.alternatives 'S' = [.ofNat 0] := by decide +kernel
  have hmem (way : RuleId × List Nat) :
      way ∈ ways ↔ way ∈ [(.ofNat 0, [0, 0, 1]), (.ofNat 0, [0, 1, 1])] := by
    obtain ⟨rule, split⟩ := way
    rw [hways.mem_iff]
    constructor
    · rintro ⟨r, hr, hlhs, hs⟩
      have hrule : rule ∈ pairs.alternatives 'S' :=
        (Grammar.mem_alternatives_iff_rule? (by decide)).2 ⟨r, hr, hlhs⟩
      obtain rfl : rule = .ofNat 0 := by simpa [hS] using hrule
      cases hr
      simpa using isSplit_pairs_iff.1 hs
    · intro h
      obtain ⟨rfl, hsplit⟩ : rule = .ofNat 0 ∧ (split = [0, 0, 1] ∨ split = [0, 1, 1]) := by
        simpa [← and_or_left] using h
      exact ⟨_, rfl, rfl, isSplit_pairs_iff.2 hsplit⟩
  have hnodup : ways.Nodup := by
    refine hways.ascending.imp fun hlt => ?_
    rintro rfl
    exact not_wayLt_of_wayLt hlt hlt
  have htwo := (List.perm_ext_iff_of_nodup hnodup (by decide)).2 hmem
  rw [Forest.alternatives_eq hn]
  exact hfollows.length_eq.symm.trans htwo.length_eq

/-- Nothing is behind the last word, so the report of it stops the request. -/
theorem nextParse_secondOfTwo_lastWord {f : Forest pairs}
    (hf : (pairs.parseFrom {} secondOfTwo 'S').1 = .ok f) :
    f.nextParse (some ⟨[⟨0, 18446744073709551615⟩]⟩) = .error .overflow := by
  obtain ⟨-, hexact⟩ := Grammar.isExact_of_parseFrom (by decide) hf
  have hroot := hexact.root.1
  have hcount : f.countAt ⟨0, 18446744073709551615⟩ = 2 := length_alternatives_secondOfTwo hf
  refine (Forest.nextParse_eq_overflow_iff hroot
    (hexact.sound.endsWithin (hexact.sound.root_lt 0 hroot))).2
      ⟨⟨0, 18446744073709551615⟩, ⟨[], [], [], rfl, .refl [0], ?_, ?_⟩, Nat.le_refl _⟩
  · rw [hcount]
    decide
  · rw [hcount]
    decide

/-- The root has two alternatives, and the last word stops the request. -/
theorem Grammar.isFaultless_of_parseFrom_pairs : pairs.rules.size < 4294967296 ∧
    ∃ f, (pairs.parseFrom {} secondOfTwo 'S').1 = .ok f ∧ f.Acyclic ∧
      (∃ next, f.nextParse none = .ok (some next)) ∧
      ∃ root ∈ f.root?, ∃ c, f.Blames root ⟨[⟨0, 18446744073709551615⟩]⟩ c := by
  have hsize : pairs.rules.size < 4294967296 := by decide
  obtain ⟨f, hf⟩ := exists_parse_secondOfTwo
  obtain ⟨hacyclic, -, -, hnext, hcursor⟩ :=
    isFaultless_of_parseFrom pairs hsize {} secondOfTwo 'S' f hf
  obtain ⟨root, hroot, c, hc, -⟩ := (hcursor _).2.1 (nextParse_secondOfTwo_lastWord hf)
  exact ⟨hsize, f, hf, hacyclic, hnext, root, hroot, c, hc⟩

/-- So not every cursor is taken or turned down: the one that takes the last of all words at the
root stops the request, though all its numbers are words. -/
theorem Grammar.exists_parse_overflow_pairs : pairs.rules.size < 4294967296 ∧
    ∃ f, (pairs.parseFrom {} secondOfTwo 'S').1 = .ok f ∧
      f.nextParse (some ⟨[⟨0, 18446744073709551615⟩]⟩) = .error .overflow ∧
      ¬ ∀ d : Directions, Forest.AreWords d.choices →
        (∃ next?, f.nextParse (some d) = .ok next?) ∨
          ∃ fault, f.nextParse (some d) = .error (.fails (.invalidDirections fault)) := by
  obtain ⟨f, hf⟩ := exists_parse_secondOfTwo
  have hstop := nextParse_secondOfTwo_lastWord hf
  refine ⟨by decide, f, hf, hstop, fun h => ?_⟩
  rcases h ⟨[⟨0, 18446744073709551615⟩]⟩ (by simp [Forest.AreWords]) with
    ⟨next?, hnext⟩ | ⟨fault, hfault⟩
  · cases hnext.symm.trans hstop
  · cases hfault.symm.trans hstop

end EarleyForest
