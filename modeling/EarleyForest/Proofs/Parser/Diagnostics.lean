import EarleyForest.Proofs.Parser.Recognition
import EarleyForest.Tree.Derivation

/-!
# What a rejection says

`g.IsViable start kinds`: some string that `start` derives begins with `kinds`. What a chart has read
is viable (`Item.IsValid.isViable`), its last set waits for just those kinds with which it stays so
(`Chart.Reads.mem_expected_iff`), and reading stops before a kind with which it does not
(`Chart.Reads.not_isViable`). So a rejection points at the first token that cannot stand at its place,
and lists the kinds that can (`Grammar.explains_of_parseFrom`).
-/

namespace EarleyForest

variable {T N : Type} [DecidableEq N] [SearchKey N]

/-- Some string of symbols that `start` derives begins with `kinds`. -/
def Grammar.IsViable (g : Grammar T N) (start : N) (kinds : List T) : Prop :=
  ∃ rest, Derives g.rules.toList [.nonterminal start] (word kinds ++ rest)

/-- The rejection points at the first of the tokens from `base` on that cannot be read as `start`, or
at their end, and lists the kinds that can be read there. -/
structure Rejection.Explains (e : Rejection T) (g : Grammar T N) (tokens : Array (Token T))
    (base : Nat) (start : N) : Prop where
  base_le : base ≤ e.position
  position_le : e.position ≤ tokens.size
  isViable : g.IsViable start (kindsBetween tokens base e.position)
  of_found : ∀ t, e.found? = some t → tokens[e.position]? = some t ∧
    ¬ g.IsViable start (kindsBetween tokens base e.position ++ [t.kind])
  of_ended : e.found? = none → e.position = tokens.size ∧
    ¬ Derives g.rules.toList [.nonterminal start] (word (kindsBetween tokens base e.position))
  nodup : e.expected.Nodup
  mem_expected_iff : ∀ kind, kind ∈ e.expected ↔
    g.IsViable start (kindsBetween tokens base e.position ++ [kind])

variable {g : Grammar T N} {start : N} {w : List T} {p : Nat}

theorem isViable_concat_iff {kinds : List T} {kind : T} :
    g.IsViable start (kinds ++ [kind]) ↔
      LeftContext g.rules.toList (.terminal kind) [.nonterminal start] kinds := by
  have hword (rest : List (Symbol T N)) :
      word (kinds ++ [kind]) ++ rest = word kinds ++ .terminal kind :: rest := by
    simp [word]
  constructor
  · rintro ⟨rest, h⟩
    exact Derives.leftContext (hword rest ▸ h)
  · intro h
    obtain ⟨rest, h⟩ := h.derives
    exact ⟨rest, (hword rest).symm ▸ h⟩

/-- What was read when an item is valid is viable. -/
theorem Item.IsValid.isViable {i : Item} (h : i.IsValid g start w p) :
    g.IsViable start (w.take p) := by
  obtain ⟨r, hr, -, ho, -, hy, hc⟩ := h
  obtain ⟨rest, hrest⟩ := hc.derives
  -- the rule of the item, with its symbols up to the dot expanded
  have hrule : Derives g.rules.toList [.nonterminal r.lhs]
      (word (segment w i.origin p) ++ r.rhs.drop i.dot) := by
    have hrhs := hy.derives.append_right (r.rhs.drop i.dot)
    rw [List.take_append_drop] at hrhs
    exact (Derives.of_rule (Grammar.mem_of_rule? hr)).trans hrhs
  refine ⟨r.rhs.drop i.dot ++ rest, hrest.trans ?_⟩
  rw [← take_append_segment ho, word_append]
  simpa using (hrule.append_right rest).append_left (word (w.take i.origin))

/-! ## What is left of a stream -/

namespace TokenStream

variable {stream : TokenStream T} {k : Nat}

theorem length_rest (stream : TokenStream T) :
    stream.rest.length = stream.tokens.size - stream.position := by
  rw [rest, List.length_drop, Array.length_toList]

theorem getElem?_rest :
    stream.rest[k]? = stream.tokens[stream.position + k]? := by
  rw [rest, List.getElem?_drop, Array.getElem?_toList]

theorem kindsBetween_rest (stream : TokenStream T) (k : Nat) :
    kindsBetween stream.tokens stream.position (stream.position + k) =
      (stream.rest.map Token.kind).take k := by
  rw [kindsBetween, rest, Array.toList_extract, List.extract_eq_take_drop, Nat.add_sub_cancel_left,
    List.map_take]

theorem position_advance_min (stream : TokenStream T) (k : Nat) :
    (stream.advance k).position = stream.position + min k stream.rest.length := by
  have := stream.position_le
  rw [length_rest, advance]
  dsimp only
  omega

theorem current?_advance_min (stream : TokenStream T) (k : Nat) :
    (stream.advance k).current? = stream.rest[min k stream.rest.length]? := by
  rw [current?, position_advance_min, getElem?_rest]
  rfl

theorem position_advance (hk : k ≤ stream.rest.length) :
    (stream.advance k).position = stream.position + k := by
  rw [position_advance_min, Nat.min_eq_left hk]

theorem current?_advance (hk : k ≤ stream.rest.length) :
    (stream.advance k).current? = stream.rest[k]? := by
  rw [current?_advance_min, Nat.min_eq_left hk]

end TokenStream

/-! ## Expected kinds -/

theorem nodup_eraseDups {α : Type} [BEq α] [LawfulBEq α] (l : List α) : l.eraseDups.Nodup := by
  induction hlen : l.length using Nat.strongRecOn generalizing l with
  | ind n ih =>
    cases l with
    | nil => simp
    | cons a l =>
      rw [List.eraseDups_cons, List.nodup_cons, List.mem_eraseDups]
      refine ⟨by simp, ih _ ?_ _ rfl⟩
      have := List.length_filter_le (fun b => !b == a) l
      simp only [← hlen, List.length_cons]
      omega

/-! ## The last set of a chart -/

variable [DecidableEq T] {chart : Chart g w.length}

/-- The last set of a chart is not empty: reading stops in front of an empty set. -/
theorem Chart.exists_mem_last {n : Nat} {config : ParserConfig} {kinds : List T}
    {sets : Array (ItemSet g n)} {count : Nat} {kernel : ItemSet g n} {chart : Chart g n}
    (h : readFrom config kinds sets count kernel = .ok chart) (hk : ∃ i, i ∈ kernel) :
    ∃ i, i ∈ chart.last := by
  have hlast {sets : Array (ItemSet g n)} {kernel : ItemSet g n} (hk : ∃ i, i ∈ kernel) :
      ∃ i, i ∈ (⟨sets.push (kernel.close sets)⟩ : Chart g n).last := by
    obtain ⟨i, hi⟩ := hk
    exact ⟨i, by simpa [last] using ItemSet.mem_close_of_mem hi⟩
  induction kinds generalizing sets count kernel with
  | nil =>
    obtain rfl := eq_of_readFrom_nil h
    exact hlast hk
  | cons kind kinds ih =>
    rcases readFrom_cons_cases h with ⟨-, rfl⟩ | ⟨hsize, h⟩
    · exact hlast hk
    · exact ih h (Array.exists_mem_of_size_pos (Nat.pos_of_ne_zero hsize))

theorem Chart.exists_mem_last_of_read (hg : g.rules.size ≤ 4294967296) {config : ParserConfig}
    (h : read g config start w = .ok chart) (hstart : g.hasRules start = true) :
    ∃ i, i ∈ chart.last := by
  obtain ⟨rule, hrule⟩ := Grammar.hasRules_iff_exists_alternative.1 hstart
  exact exists_mem_last h ⟨_, (isKernel_start hg).start_mem Array.size_empty hrule⟩

namespace Chart.Reads

variable (h : chart.Reads start w) (hg : g.rules.size ≤ 4294967296)
include h hg

/-- The kinds that are waited for last are those that can follow what was read. -/
theorem mem_expected_iff {kind : T} :
    kind ∈ chart.last.expected ↔ g.IsViable start (w.take chart.reached ++ [kind]) := by
  rw [isViable_concat_iff, ItemSet.mem_expected]
  constructor
  · rintro ⟨i, hi, hX⟩
    exact (h.valid (h.mem_last_iff.1 hi)).leftContext hX
  · intro hX
    rcases h.exists_next hg h.reached_lt hX with ⟨hX, -⟩ | ⟨i, hi, hnext⟩
    · cases hX
    · exact ⟨i, h.mem_last_iff.2 hi, hnext⟩

/-- Reading stops before a kind that cannot follow. -/
theorem not_isViable {kind : T} (hkind : w[chart.reached]? = some kind) :
    ¬ g.IsViable start (w.take chart.reached ++ [kind]) := by
  rw [← h.mem_expected_iff hg, ItemSet.mem_expected]
  rintro ⟨i, hi, hX⟩
  rcases h.stop with hend | ⟨kind', hkind', hnone⟩
  · simp [hend] at hkind
  · cases hkind.symm.trans hkind'
    exact hnone i (h.mem_last_iff.1 hi) hX

end Chart.Reads

/-! ## Rejections -/

namespace Grammar

variable {config : ParserConfig} {stream : TokenStream T} {e : Rejection T}

/-- A rejection is made from the last set of a chart when the input is not derived. -/
theorem parseFrom_eq_rejected (hg : g.rules.size ≤ 4294967296)
    (h : (g.parseFrom config stream start).1 = .error (.rejected e)) :
    ∃ chart : Chart g (stream.rest.map Token.kind).length,
      chart.Reads start (stream.rest.map Token.kind) ∧ (∃ i, i ∈ chart.last) ∧
      ¬ Yields g.rules.toList [.nonterminal start] (stream.rest.map Token.kind) ∧
      e = g.rejection config chart.last (stream.advance chart.reached) := by
  unfold parseFrom at h
  split at h
  · rename_i first hfirst
    obtain rfl := eq_of_startOf? hg hfirst
    unfold parseAs at h
    dsimp only at h
    split at h
    · cases h
    · rename_i chart hread
      have hreads := Chart.reads_of_read hg hread
      split at h
      · cases h
      · rename_i haccepts
        have hstart := hasRules_of_startOf? hfirst
        exact ⟨chart, hreads, Chart.exists_mem_last_of_read hg hread hstart,
          fun hy => haccepts ((hreads.accepts_iff hg).2 hy),
          (ParseError.rejected.inj (Except.error.inj h)).symm⟩
  · cases h

/-- A rejection tells exactly how far the input can be read, and how it could go on there. -/
theorem explains_of_parseFrom (g : Grammar T N) (hg : g.rules.size < 4294967296)
    (config : ParserConfig) (hconfig : config.collectExpected = true) (stream : TokenStream T)
    (start : N) (e : Rejection T)
    (h : (g.parseFrom config stream start).1 = .error (.rejected e)) :
    e.Explains g stream.tokens stream.position start := by
  have hg' := Nat.le_of_lt hg
  obtain ⟨chart, hreads, ⟨i, hi⟩, hno, rfl⟩ := parseFrom_eq_rejected hg' h
  have hreached : chart.reached ≤ stream.rest.length := by
    simpa using hreads.le_length hreads.reached_lt
  have hposition := TokenStream.position_advance hreached
  have hcurrent := TokenStream.current?_advance hreached
  have hread := stream.kindsBetween_rest chart.reached
  have hlength := stream.length_rest
  have hle := stream.position_le
  refine ⟨?_, ?_, ?_, fun t ht => ?_, fun hnone => ?_, ?_, fun kind => ?_⟩
  all_goals simp only [rejection, hposition, hread, hconfig, if_true]
  · omega
  · omega
  · exact (hreads.valid (hreads.mem_last_iff.1 hi)).isViable
  · change (stream.advance chart.reached).current? = some t at ht
    rw [hcurrent] at ht
    refine ⟨TokenStream.getElem?_rest ▸ ht, hreads.not_isViable hg' ?_⟩
    rw [List.getElem?_map, ht, Option.map_some]
  · change (stream.advance chart.reached).current? = none at hnone
    rw [hcurrent, List.getElem?_eq_none_iff] at hnone
    refine ⟨by omega, ?_⟩
    rw [List.take_of_length_le (by simpa using hnone), derives_word_iff_yields]
    exact hno
  · exact nodup_eraseDups _
  · exact hreads.mem_expected_iff hg'

end Grammar

/-- A token that can be read as `'A'`, and one that cannot be read. -/
def secondUnread : TokenStream Char :=
  .ofTokens (fun _ => false) [⟨'a', "a", default⟩, ⟨'b', "b", default⟩]

theorem Grammar.explains_of_parseFrom_pairs : pairs.rules.size < 4294967296 ∧
    ∃ e, (pairs.parseFrom {} secondUnread 'S').1 = .error (.rejected e) ∧ e.position = 1 ∧
      pairs.IsViable 'S' ['a', 'a'] ∧ ¬ pairs.IsViable 'S' ['a', 'b'] := by
  have hsize : pairs.rules.size < 4294967296 := by decide
  let e : Rejection Char := ⟨1, some ⟨'b', "b", default⟩, default, ['a']⟩
  have h : (pairs.parseFrom {} secondUnread 'S').1 = .error (.rejected e) := by
    have herror : (match (pairs.parseFrom {} secondUnread 'S').1 with
        | .ok _ => none
        | .error e => some e) = some (.rejected e) := by
      decide +kernel
    split at herror
    · cases herror
    · rename_i e' he
      rw [he, Option.some.inj herror]
  have hexplains := explains_of_parseFrom pairs hsize {} rfl secondUnread 'S' e h
  exact ⟨hsize, e, h, rfl, (hexplains.mem_expected_iff 'a').1 (by decide),
    (hexplains.of_found _ rfl).2⟩

end EarleyForest
