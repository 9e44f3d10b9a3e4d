import EarleyForest.Proofs.Forest.Matching

/-!
# Nodes do not depend on their context

A node was recognised behind all tokens in front of it, and is shared by all nodes above. Nothing of
that shows: when its nonterminal is parsed over its tokens alone, the root has the same alternatives
and the same price (`Grammar.contextFree_of_parseFrom`).
-/

namespace EarleyForest

variable {T N : Type}

/-- The kinds of a stream that holds the tokens of a range alone. -/
theorem TokenStream.map_kind_rest {stream alone : TokenStream T} {i j : Nat}
    (htokens : alone.tokens =
      stream.tokens.extract (stream.position + i) (stream.position + j))
    (hposition : alone.position = 0) :
    alone.rest.map Token.kind = segment (stream.rest.map Token.kind) i j := by
  have hsegment : kindsBetween stream.tokens (stream.position + i) (stream.position + j) =
      segment (stream.rest.map Token.kind) i j := kindsBetween_eq_segment rfl i j
  rw [← hsegment, kindsBetween, ← htokens, rest, hposition, List.drop_zero]

variable [DecidableEq T] [DecidableEq N] [SearchKey N]

namespace Grammar

/-- What is derived is parsed, without a limit on the chart. -/
theorem exists_parse_of_yields {g : Grammar T N} (hg : g.rules.size < 4294967296)
    {config : ParserConfig} (hconfig : config.maxItems = none) {stream : TokenStream T} {A : N}
    (h : Yields g.rules.toList [.nonterminal A] (stream.rest.map Token.kind)) :
    ∃ f, (g.parseFrom config stream A).1 = .ok f := by
  obtain ⟨r, hr, hA, -⟩ := h.exists_rule
  rcases parseFrom_cases (Nat.le_of_lt hg) hconfig stream A with
    ⟨hnone, -⟩ | ⟨-, ⟨-, hok⟩ | ⟨hno, -⟩⟩
  · exact absurd hA (hnone r (Array.mem_toList_iff.1 hr))
  · exact hok
  · exact absurd h hno

/-- Parsing the nonterminal of a node over the tokens of the node alone, without a limit on the
chart, succeeds. The root has the alternatives of the node, one for one in the same order and over
the same ranges when what the forest counts from the start of the node is counted from zero, and it
has the price of the node. -/
theorem contextFree_of_parseFrom (g : Grammar T N) (hg : g.rules.size < 4294967296)
    (config : ParserConfig) (stream : TokenStream T) (start : N) (f : Forest g)
    (h : (g.parseFrom config stream start).1 = .ok f) (id : NodeId) (A : N) (i j : Nat)
    (as : List Alternative) (hn : f.node? id = some (.nonterminal A i j as))
    (config' : ParserConfig) (hconfig : config'.maxItems = none) (alone : TokenStream T)
    (htokens : alone.tokens = stream.tokens.extract i j) (hposition : alone.position = 0) :
    ∃ f' root as', (g.parseFrom config' alone A).1 = .ok f' ∧ f'.root? = some root ∧
      f'.node? root = some (.nonterminal A 0 (j - i) as') ∧
      List.Forall₂ (Alternative.Matches (f.StandAlike f' i 0)) as as' ∧
      ∃ prices prices' p, f.price = .ok prices ∧ f'.price = .ok prices' ∧
        prices[id]? = some p ∧ prices'[root]? = some p := by
  obtain ⟨hf, hexact⟩ := isExact_of_parseFrom hg h
  obtain ⟨s, t, -, hi, hj, hlive, -⟩ := hexact.node hn
  obtain ⟨length, rfl⟩ := Nat.exists_eq_add_of_le hlive.le
  subst hi hj
  have hkinds := TokenStream.map_kind_rest htokens hposition
  obtain ⟨f', hparse⟩ := exists_parse_of_yields hg hconfig (hkinds ▸ hlive.yields)
  obtain ⟨hf', hexact'⟩ := isExact_of_parseFrom hg hparse
  rw [hkinds, hposition] at hexact'
  obtain ⟨hroot, as', hn'⟩ := hexact'.root
  have hsize : f'.tokens.size = length := by
    have hle := hlive.le_length
    rw [hexact.kinds, List.length_map, List.length_drop, Array.length_toList, hf] at hle
    rw [hf', htokens, Array.size_extract]
    omega
  have hmatch : Node.Matches (stream.position + s) 0 (fun _ _ => True)
      (.nonterminal A (stream.position + s) (stream.position + (s + length)) as)
      (.nonterminal A 0 f'.tokens.size as') := by
    have h : Node.Matches (stream.position + s) 0 (fun _ _ => True)
        (.nonterminal A (stream.position + s + 0) (stream.position + s + length) as)
        (.nonterminal A (0 + 0) (0 + length) as') := .nonterminal A 0 length trivial
    simpa [hsize, Nat.add_assoc] using h
  have hid : f.StandAlike f' (stream.position + s) 0 id 0 := ⟨_, _, hn, hn', hmatch⟩
  have hR : f.IsSimulation f' (stream.position + s) 0 (f.StandAlike f' (stream.position + s) 0) :=
    fun id id' hid => hexact.matches_alternatives hexact' hlive.le hlive.le_length hid
  obtain ⟨prices, hprices⟩ := hexact.sound.exists_price
  obtain ⟨prices', hprices'⟩ := hexact'.sound.exists_price
  obtain ⟨p, hp, hp'⟩ := Forest.price_eq_of_isSimulation hR hprices hprices' hid
  obtain ⟨_, _, hnode, hnode', halternatives⟩ := hR id 0 hid
  cases hn.symm.trans hnode
  cases hn'.symm.trans hnode'
  rw [show stream.position + (s + length) - (stream.position + s) = f'.tokens.size by omega]
  exact ⟨f', 0, as', hparse, hroot, hn', halternatives.alternatives .nil, prices, prices', p,
    hprices, hprices', hp, hp'⟩

/-- What is left of `secondOfTwo` begins behind a token that was read before. -/
theorem contextFree_of_parseFrom_pairs : pairs.rules.size < 4294967296 ∧
    ∃ f as, (pairs.parseFrom {} secondOfTwo 'S').1 = .ok f ∧
      f.node? 0 = some (.nonterminal 'S' 1 2 as) ∧
      ∃ alone : TokenStream Char, alone.tokens = secondOfTwo.tokens.extract 1 2 ∧
        alone.position = 0 ∧
        ∃ f' root as', (pairs.parseFrom { maxItems := none } alone 'S').1 = .ok f' ∧
          f'.node? root = some (.nonterminal 'S' 0 1 as') ∧
          List.Forall₂ (Alternative.Matches (f.StandAlike f' 1 0)) as as' := by
  have hsize : pairs.rules.size < 4294967296 := by decide
  obtain ⟨f, hf⟩ := exists_parse_secondOfTwo
  obtain ⟨htokens, hexact⟩ := isExact_of_parseFrom hsize hf
  obtain ⟨-, as, hn⟩ := hexact.root
  have hn : f.node? 0 = some (.nonterminal 'S' 1 2 as) := by rwa [htokens] at hn
  let alone : TokenStream Char := .ofTokens (fun _ => false) [⟨'a', "a", default⟩]
  have halone : alone.tokens = secondOfTwo.tokens.extract 1 2 := by decide +kernel
  obtain ⟨f', root, as', hf', -, hn', has, -⟩ := contextFree_of_parseFrom pairs hsize {}
    secondOfTwo 'S' f hf 0 'S' 1 2 as hn { maxItems := none } rfl alone halone rfl
  exact ⟨hsize, f, as, hf, hn, alone, halone, rfl, f', root, as', hf', hn', has⟩

end Grammar

end EarleyForest
