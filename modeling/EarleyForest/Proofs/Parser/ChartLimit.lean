import EarleyForest.Proofs.Parser.Stepwise

/-!
# The limit on the chart, and what is expected

A limit on the chart does nothing but stop the parse. While the chart is read its items only become
more (`Chart.le_itemCount`), so a reading comes to its end under a limit just if the chart that is
read without one is within it (`Chart.readFrom_of_unlimited`). The parse then goes on as it does
without the limit (`Grammar.parseFrom_limit_exact`). What is expected is looked up for the report
only.
-/

namespace EarleyForest

variable {T N : Type} [DecidableEq N] [SearchKey N]

/-- The error without the kinds that would have been accepted. -/
def ParseError.withoutExpected : ParseError T N → ParseError T N
  | .rejected r => .rejected { r with expected := [] }
  | e => e

namespace Chart

variable {g : Grammar T N} {n : Nat}

theorem itemCount_push (sets : Array (ItemSet g n)) (s : ItemSet g n) :
    (⟨sets.push s⟩ : Chart g n).itemCount = (⟨sets⟩ : Chart g n).itemCount + s.size := by
  simp only [itemCount, Array.toList_push, List.foldr_append, List.foldr_cons, List.foldr_nil]
  induction sets.toList with
  | nil => simp
  | cons t ts ih =>
    simp only [List.foldr_cons, ih]
    omega

variable [DecidableEq T] {config : ParserConfig} {kinds : List T} {earlier : Array (ItemSet g n)}
  {kernel : ItemSet g n} {count : Nat} {chart : Chart g n}

/-- The chart has the items of the set that is closed first, and of those before it. -/
theorem le_itemCount (hcount : count = (⟨earlier⟩ : Chart g n).itemCount)
    (h : readFrom config kinds earlier count kernel = .ok chart) :
    count + (kernel.close earlier).size ≤ chart.itemCount := by
  induction kinds generalizing earlier count kernel with
  | nil =>
    obtain rfl := eq_of_readFrom_nil h
    rw [itemCount_push, hcount]
  | cons kind kinds ih =>
    rcases readFrom_cons_cases h with ⟨-, rfl⟩ | ⟨-, h⟩
    · rw [itemCount_push, hcount]
    · have hnext := ih (by rw [itemCount_push, hcount]) h
      omega

/-- One step of reading where the limit is kept to. -/
theorem readFrom_cons {kind : T}
    (hclose : config.exceeded? (count + (kernel.close earlier).size) = none)
    (hscan : config.exceeded? (count + (kernel.close earlier).size +
      ((kernel.close earlier).scan kind).size) = none) :
    readFrom config (kind :: kinds) earlier count kernel =
      if ((kernel.close earlier).scan kind).size = 0 then .ok ⟨earlier.push (kernel.close earlier)⟩
      else readFrom config kinds (earlier.push (kernel.close earlier))
        (count + (kernel.close earlier).size) ((kernel.close earlier).scan kind) := by
  simp only [readFrom, hclose, hscan]

theorem readFrom_cons_eq_error {kind : T} {limit : Nat}
    (hclose : config.exceeded? (count + (kernel.close earlier).size) = none)
    (hscan : config.exceeded? (count + (kernel.close earlier).size +
      ((kernel.close earlier).scan kind).size) = some limit) :
    readFrom config (kind :: kinds) earlier count kernel =
      .error ⟨limit, earlier.size, earlier.size + 1⟩ := by
  simp only [readFrom, hclose, hscan]

/-- Reading comes to its end under a limit if the chart that is read without one is within it, and
fails otherwise. -/
theorem readFrom_of_unlimited {unlimited : ParserConfig} (hnone : unlimited.maxItems = none)
    (hcount : count = (⟨earlier⟩ : Chart g n).itemCount)
    (h : readFrom unlimited kinds earlier count kernel = .ok chart) :
    (config.exceeded? chart.itemCount = none →
        readFrom config kinds earlier count kernel = .ok chart) ∧
      ∀ limit, config.exceeded? chart.itemCount = some limit →
        ∃ read position,
          readFrom config kinds earlier count kernel = .error ⟨limit, read, position⟩ := by
  have hnever (count : Nat) : unlimited.exceeded? count = none := by
    simp [ParserConfig.exceeded?, hnone]
  induction kinds generalizing earlier count kernel with
  | nil =>
    simp only [readFrom, hnever] at h
    obtain rfl := Except.ok.inj h
    rw [itemCount_push, ← hcount]
    constructor
    · intro hfits
      simp only [readFrom, hfits]
    · intro limit hlimit
      exact ⟨_, _, readFrom_eq_error hlimit⟩
  | cons kind kinds ih =>
    rw [readFrom_cons (hnever _) (hnever _)] at h
    by_cases hempty : ((kernel.close earlier).scan kind).size = 0
    · rw [if_pos hempty] at h
      obtain rfl := Except.ok.inj h
      rw [itemCount_push, ← hcount]
      constructor
      · intro hfits
        rw [readFrom_cons hfits (by rw [hempty]; exact hfits), if_pos hempty]
      · intro limit hlimit
        exact ⟨_, _, readFrom_eq_error hlimit⟩
    · rw [if_neg hempty] at h
      have hpush : count + (kernel.close earlier).size =
          (⟨earlier.push (kernel.close earlier)⟩ : Chart g n).itemCount := by
        rw [itemCount_push, hcount]
      -- the set that is begun is part of a set of the chart
      have hgrow := ItemSet.size_le_close (earlier.push (kernel.close earlier))
        ((kernel.close earlier).scan kind)
      have hle := le_itemCount hpush h
      obtain ⟨hfit, herror⟩ := ih hpush h
      constructor
      · intro hfits
        have hscan : config.exceeded? (count + (kernel.close earlier).size +
            ((kernel.close earlier).scan kind).size) = none :=
          ParserConfig.exceeded?_eq_none_of_le (by omega) hfits
        have hclose : config.exceeded? (count + (kernel.close earlier).size) = none :=
          ParserConfig.exceeded?_eq_none_of_le (Nat.le_add_right _ _) hscan
        rw [readFrom_cons hclose hscan, if_neg hempty]
        exact hfit hfits
      · intro limit hlimit
        rcases ParserConfig.exceeded?_eq_none_or hlimit (count + (kernel.close earlier).size) with
          hclose | hclose
        · rcases ParserConfig.exceeded?_eq_none_or hlimit (count + (kernel.close earlier).size +
              ((kernel.close earlier).scan kind).size) with hscan | hscan
          · rw [readFrom_cons hclose hscan, if_neg hempty]
            exact herror limit hlimit
          · exact ⟨_, _, readFrom_cons_eq_error hclose hscan⟩
        · exact ⟨_, _, readFrom_eq_error hclose⟩

theorem read_of_unlimited (config : ParserConfig) {start : N} {unlimited : ParserConfig}
    {chart : Chart g kinds.length} (hnone : unlimited.maxItems = none)
    (h : read g unlimited start kinds = .ok chart) :
    (config.exceeded? chart.itemCount = none → read g config start kinds = .ok chart) ∧
      ∀ limit, config.exceeded? chart.itemCount = some limit →
        ∃ count position, read g config start kinds = .error ⟨limit, count, position⟩ :=
  readFrom_of_unlimited hnone rfl h

/-- What is expected plays no part in reading. -/
theorem readFrom_collectExpected (maxItems : Option Nat) (collect collect' : Bool) :
    readFrom ⟨maxItems, collect⟩ kinds earlier count kernel =
      readFrom ⟨maxItems, collect'⟩ kinds earlier count kernel := by
  induction kinds generalizing earlier count kernel with
  | nil => simp only [readFrom, ParserConfig.exceeded?]
  | cons kind kinds ih => simp only [readFrom, ParserConfig.exceeded?, ih]

end Chart

namespace Grammar

variable [DecidableEq T] {g : Grammar T N} {stream : TokenStream T} {start : N}

/-- Without the expected kinds the outcome is the same but for those kinds. -/
theorem parseFrom_withoutExpected (g : Grammar T N) (maxItems : Option Nat)
    (stream : TokenStream T) (start : N) :
    g.parseFrom ⟨maxItems, false⟩ stream start =
      ((g.parseFrom ⟨maxItems, true⟩ stream start).1.mapError ParseError.withoutExpected,
        (g.parseFrom ⟨maxItems, true⟩ stream start).2) := by
  rw [parseFrom, parseFrom]
  cases g.startOf? start with
  | none => rfl
  | some first =>
    simp only [parseAs, Chart.read, Chart.readFrom_collectExpected maxItems false true]
    split
    · rfl
    · rename_i chart _
      by_cases h : chart.accepts first = true
      · simp only [if_pos h]
        rfl
      · simp only [if_neg h]
        rfl

section

variable {first : N} (hfirst : g.startOf? start = some first)
include hfirst

theorem parseFrom_of_read {config : ParserConfig}
    {chart : Chart g (stream.rest.map Token.kind).length}
    (h : Chart.read g config first (stream.rest.map Token.kind) = .ok chart) :
    g.parseFrom config stream start =
      if chart.accepts first then
        (.ok (.ofChart stream.tokens stream.position (stream.rest.map Token.kind) chart first),
          stream.advance chart.reached)
      else
        (.error (.rejected (g.rejection config chart.last (stream.advance chart.reached))),
          stream.advance chart.reached) := by
  simp only [parseFrom, hfirst, parseAs, h]

/-- A parse whose chart is read to its end rejects the input, or gives a forest that tells the size
of the chart. -/
theorem parseFrom_cases_of_read {config : ParserConfig}
    {chart : Chart g (stream.rest.map Token.kind).length}
    (h : Chart.read g config first (stream.rest.map Token.kind) = .ok chart) :
    (∃ r, (g.parseFrom config stream start).1 = .error (.rejected r)) ∨
      ∃ f, (g.parseFrom config stream start).1 = .ok f ∧ f.chartItems = chart.itemCount := by
  rw [parseFrom_of_read hfirst h]
  by_cases haccepts : chart.accepts first = true
  · rw [if_pos haccepts]
    exact .inr ⟨_, rfl, rfl⟩
  · rw [if_neg haccepts]
    exact .inl ⟨_, rfl⟩

end

/-- A limit is exact, and nothing else than a limit. The chart that is read without one, for the
start symbol or what stands for it, has some number of items, which is the one that the forest
tells. A parse fails for a limit just if that number is larger; otherwise it gives what it gives
without a limit, the stream included. The items may as well be counted one by one
(`parseStepwise`). And without the expected kinds the outcome is the same but for those kinds. -/
theorem parseFrom_limit_exact (g : Grammar T N) (stream : TokenStream T) (start : N)
    (hrules : g.hasRules start = true) :
    (∀ config, g.parseStepwise config stream start = g.parseFrom config stream start) ∧
      (∃ first, g.startOf? start = some first ∧
        (g.rules.size ≤ 4294967296 → first = start) ∧
        ∃ chart : Chart g (stream.rest.map Token.kind).length,
        (∀ collect,
          Chart.read g ⟨none, collect⟩ first (stream.rest.map Token.kind) = .ok chart ∧
            ((∃ r, (g.parseFrom ⟨none, collect⟩ stream start).1 = .error (.rejected r)) ∨
              ∃ f, (g.parseFrom ⟨none, collect⟩ stream start).1 = .ok f ∧
                f.chartItems = chart.itemCount)) ∧
        ∀ limit collect,
          ((∃ position, (g.parseFrom ⟨some limit, collect⟩ stream start).1 =
              .error (.chartLimitExceeded limit position)) ↔ limit < chart.itemCount) ∧
            (chart.itemCount ≤ limit → g.parseFrom ⟨some limit, collect⟩ stream start =
              g.parseFrom ⟨none, collect⟩ stream start)) ∧
      ∀ maxItems, g.parseFrom ⟨maxItems, false⟩ stream start =
        ((g.parseFrom ⟨maxItems, true⟩ stream start).1.mapError ParseError.withoutExpected,
          (g.parseFrom ⟨maxItems, true⟩ stream start).2) := by
  refine ⟨fun config => parseStepwise_eq_parseFrom g config stream start, ?_,
    fun maxItems => parseFrom_withoutExpected g maxItems stream start⟩
  obtain ⟨first, hfirst⟩ := exists_startOf? hrules
  obtain ⟨chart, hread⟩ :
      ∃ chart, Chart.read g ⟨none, true⟩ first (stream.rest.map Token.kind) = .ok chart :=
    Chart.exists_read rfl g first _
  have hreads (collect : Bool) :
      Chart.read g ⟨none, collect⟩ first (stream.rest.map Token.kind) = .ok chart :=
    (Chart.readFrom_collectExpected none collect true).trans hread
  refine ⟨first, hfirst, fun hg => eq_of_startOf? hg hfirst, chart,
    fun collect => ⟨hreads collect, parseFrom_cases_of_read hfirst (hreads collect)⟩,
    fun limit collect => ?_⟩
  obtain ⟨hfit, herror⟩ := Chart.read_of_unlimited ⟨some limit, collect⟩ rfl hread
  by_cases hlt : limit < chart.itemCount
  · obtain ⟨read, position, h⟩ := herror limit (ParserConfig.exceeded?_eq_some_iff.2 ⟨rfl, hlt⟩)
    refine ⟨⟨fun _ => hlt, fun _ => ⟨stream.position + position, ?_⟩⟩, fun hle => by omega⟩
    simp only [parseFrom, hfirst, parseAs, h]
  · have hnone : ParserConfig.exceeded? ⟨some limit, collect⟩ chart.itemCount = none := by
      simpa [ParserConfig.exceeded?] using hlt
    have heq : g.parseFrom ⟨some limit, collect⟩ stream start =
        g.parseFrom ⟨none, collect⟩ stream start := by
      rw [parseFrom_of_read hfirst (hfit hnone), parseFrom_of_read hfirst (hreads collect)]
      rfl
    refine ⟨⟨?_, fun h => absurd h hlt⟩, fun _ => heq⟩
    rintro ⟨position, h⟩
    rw [heq] at h
    rcases parseFrom_cases_of_read hfirst (hreads collect) with ⟨r, hr⟩ | ⟨f, hf, -⟩
    · cases hr.symm.trans h
    · cases hf.symm.trans h

/-- The chart of a single token has ten items. -/
theorem parseFrom_limit_exact_pairs : pairs.hasRules 'S' = true ∧
    (∃ position, (pairs.parseFrom ⟨some 9, true⟩ secondOfTwo 'S').1 =
      .error (.chartLimitExceeded 9 position)) ∧
    pairs.parseFrom ⟨some 10, true⟩ secondOfTwo 'S' =
      pairs.parseFrom ⟨none, true⟩ secondOfTwo 'S' := by
  have hrules : pairs.hasRules 'S' = true := by decide +kernel
  obtain ⟨-, ⟨_, -, -, chart, hunlimited, hlimited⟩, -⟩ :=
    parseFrom_limit_exact pairs secondOfTwo 'S' hrules
  have hten : chart.itemCount = 10 := by
    have h : (match (pairs.parseFrom ⟨none, true⟩ secondOfTwo 'S').1 with
        | .ok f => f.chartItems
        | .error _ => 0) = 10 := by decide +kernel
    rcases (hunlimited true).2 with ⟨r, hr⟩ | ⟨f, hf, hcount⟩
    · rw [hr] at h
      cases h
    · rw [hf] at h
      exact hcount.symm.trans h
  exact ⟨hrules, (hlimited 9 true).1.2 (by omega), (hlimited 10 true).2 (by omega)⟩

end Grammar

end EarleyForest
