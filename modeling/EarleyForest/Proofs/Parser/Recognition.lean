import EarleyForest.Parser.Basic
import EarleyForest.Proofs.Chart.Exactness
import EarleyForest.Proofs.Grammar.Building

/-!
# Recognition

What the outcome of a parse says about the input. Without a limit on the chart the input is accepted
when the start symbol derives its kinds and rejected when it does not (`parseFrom_recognizes`). With
a limit a parse that succeeds still has read the input to its end
(`parseFrom_eq_ok`).
-/

namespace EarleyForest

variable {T N : Type} [DecidableEq N] [SearchKey N]

namespace Grammar

variable {g : Grammar T N} {config : ParserConfig} {stream : TokenStream T} {start : N}

theorem hasRules_eq_false_iff : g.hasRules start = false ↔ ∀ r ∈ g.rules, r.lhs ≠ start := by
  rw [← Bool.not_eq_true, hasRules_iff]
  simp

variable [DecidableEq T]

/-- A parse that succeeds makes the forest of a chart that has read the input to its end. -/
theorem parseFrom_eq_ok (hg : g.rules.size ≤ 4294967296) {f : Forest g}
    (h : (g.parseFrom config stream start).1 = .ok f) :
    ∃ chart : Chart g (stream.rest.map Token.kind).length,
      chart.Reads start (stream.rest.map Token.kind) ∧
      Yields g.rules.toList [.nonterminal start] (stream.rest.map Token.kind) ∧
      chart.reached = (stream.rest.map Token.kind).length ∧
      f = .ofChart stream.tokens stream.position (stream.rest.map Token.kind) chart start := by
  unfold parseFrom at h
  split at h
  · rename_i first hfirst
    obtain rfl := eq_of_startOf? hg hfirst
    unfold parseAs at h
    dsimp only at h
    split at h
    · cases h
    · rename_i chart hread
      have hreads := Chart.reads_of_read hg hread
      split at h
      · rename_i haccepts
        obtain rfl := Except.ok.inj h
        exact ⟨chart, hreads, (hreads.accepts_iff hg).1 haccepts,
          (hreads.accepts_eq_true_iff.1 haccepts).1, rfl⟩
      · cases h
  · cases h

/-- Without a limit a parse has three outcomes. -/
theorem parseFrom_cases (hg : g.rules.size ≤ 4294967296) (hc : config.maxItems = none)
    (stream : TokenStream T) (start : N) :
    (∀ r ∈ g.rules, r.lhs ≠ start) ∧
        (g.parseFrom config stream start).1 = .error (.unknownStart start) ∨
      (∃ r ∈ g.rules, r.lhs = start) ∧
        (Yields g.rules.toList [.nonterminal start] (stream.rest.map Token.kind) ∧
            (∃ f, (g.parseFrom config stream start).1 = .ok f) ∨
          ¬ Yields g.rules.toList [.nonterminal start] (stream.rest.map Token.kind) ∧
            ∃ e, (g.parseFrom config stream start).1 = .error (.rejected e)) := by
  cases hfirst : g.startOf? start with
  | none =>
    have hrules := hasRules_eq_false_iff.1 (startOf?_eq_none_iff.1 hfirst)
    exact .inl ⟨hrules, by simp [parseFrom, hfirst]⟩
  | some first =>
    obtain rfl := eq_of_startOf? hg hfirst
    refine .inr ⟨hasRules_iff.1 (hasRules_of_startOf? hfirst), ?_⟩
    obtain ⟨chart, hread⟩ := Chart.exists_read hc g first (stream.rest.map Token.kind)
    have haccepts := (Chart.reads_of_read hg hread).accepts_iff hg
    by_cases hy : Yields g.rules.toList [.nonterminal first] (stream.rest.map Token.kind)
    · exact .inl ⟨hy, by simp [parseFrom, parseAs, hfirst, hread, haccepts.2 hy]⟩
    · exact .inr ⟨hy, by simp [parseFrom, parseAs, hfirst, hread, mt haccepts.1 hy]⟩

/-- Parsing without a limit on the chart recognises exactly what the start symbol derives: the start
symbol is unknown when it has no rules; otherwise the parse succeeds when the start symbol derives
the kinds of the tokens that are left, and the input is rejected when it does not. -/
theorem parseFrom_recognizes (g : Grammar T N) (hg : g.rules.size < 4294967296)
    (config : ParserConfig) (hc : config.maxItems = none) (stream : TokenStream T) (start : N) :
    let result := (g.parseFrom config stream start).1
    let hasRules := ∃ r ∈ g.rules, r.lhs = start
    let derives := Derives g.rules.toList [.nonterminal start] (word (stream.rest.map Token.kind))
    (result = .error (.unknownStart start) ↔ ¬ hasRules) ∧
      ((∃ f, result = .ok f) ↔ hasRules ∧ derives) ∧
      ((∃ e, result = .error (.rejected e)) ↔ hasRules ∧ ¬ derives) := by
  intro result hasRules derives
  have hderives : derives ↔
      Yields g.rules.toList [.nonterminal start] (stream.rest.map Token.kind) :=
    derives_word_iff_yields
  rcases parseFrom_cases (Nat.le_of_lt hg) hc stream start with
    ⟨hno, hunknown⟩ | ⟨hrules, ⟨hy, f, hok⟩ | ⟨hy, e, hrejected⟩⟩
  · have hnone : ¬ hasRules := by simpa [hasRules] using hno
    simp [result, hunknown, hnone]
  · have hd : derives := hderives.2 hy
    simp [result, hok, hd, show hasRules from hrules]
  · have hd : ¬ derives := mt hderives.1 hy
    simp [result, hrejected, hd, show hasRules from hrules]

end Grammar

/-! ## A small grammar -/

/-- `S -> A A`, `A -> 'a'` and `A -> ε`. -/
def pairRules : Array (Rule Char Char) :=
  #[⟨'S', [.nonterminal 'A', .nonterminal 'A'], .ofNat 1⟩, ⟨'A', [.terminal 'a'], .ofNat 2⟩,
    ⟨'A', [], 0⟩]

/-- The grammar of `pairRules`. There are two ways to read a single `'a'` as `S`. -/
def pairs : Grammar Char Char where
  rules := pairRules
  entry := 'S'
  index := ruleIndex pairRules.toList
  nullable := .ofList (nullableSymbols pairRules.toList)
  index_eq := rfl
  entry_mem := by decide +kernel
  findUndefined_eq := by decide +kernel
  nullable_eq := rfl
  findCycle_eq := by decide +kernel

/-- Two tokens of which the first has been read. -/
def secondOfTwo : TokenStream Char :=
  (TokenStream.ofTokens (fun _ => false) [⟨'b', "b", default⟩, ⟨'a', "a", default⟩]).advance 1

theorem yields_secondOfTwo : Yields pairs.rules.toList [.nonterminal 'S'] ['a'] := by
  have hA : Yields pairs.rules.toList [.nonterminal 'A'] ['a'] :=
    .of_rule (r := ⟨'A', [.terminal 'a'], .ofNat 2⟩) (by decide +kernel) (.terminal .nil)
  have hnil : Yields pairs.rules.toList [.nonterminal 'A'] [] :=
    .of_rule (r := ⟨'A', [], 0⟩) (by decide +kernel) .nil
  exact .of_rule (r := ⟨'S', [.nonterminal 'A', .nonterminal 'A'], .ofNat 1⟩) (by decide +kernel)
    (hA.append hnil)

theorem exists_parse_secondOfTwo :
    ∃ f, (pairs.parseFrom {} secondOfTwo 'S').1 = .ok f := by
  have h : (pairs.parseFrom {} secondOfTwo 'S').1.isOk = true := by decide +kernel
  cases hf : (pairs.parseFrom {} secondOfTwo 'S').1 with
  | ok f => exact ⟨f, rfl⟩
  | error e => rw [hf] at h; cases h

theorem Grammar.parseFrom_recognizes_pairs : pairs.rules.size < 4294967296 ∧
    ∃ f, (pairs.parseFrom { maxItems := none } secondOfTwo 'S').1 = .ok f := by
  have hsize : pairs.rules.size < 4294967296 := by decide
  have hrules : ∃ r ∈ pairs.rules, r.lhs = 'S' := by decide +kernel
  exact ⟨hsize, (parseFrom_recognizes pairs hsize { maxItems := none } rfl secondOfTwo
    'S').2.1.2 ⟨hrules, yields_secondOfTwo.derives⟩⟩

end EarleyForest
