import EarleyForest.Forest.SplitSearch
import EarleyForest.Proofs.Forest.Splits
import EarleyForest.Proofs.Parser.KindsAhead

/-!
# The search for splits is exact

`Divides rules w Xs bounds i k`: the boundaries cut the part of `w` from `i` to `k` into one piece
for each symbol of `Xs`, which covers it. This is `IsSplit` read off the list of boundaries
(`isSplit_iff_divides`). The search takes its stack apart from the top (`exists_finds`), and what it
has found when it ends is, but for the order, what the recursion over the right-hand side finds
(`searchEnds_iff`). So for each rule that was recognised over a range it ends with exactly the lists
of boundaries that divide the range, in ascending order (`splits_exact`).
-/

namespace EarleyForest

variable {T N : Type}

/-! ## Pieces between boundaries -/

/-- The symbol stands for the part of `w` from `p` to `q`: a terminal for one token of its kind. -/
def Symbol.Covers (rules : List (Rule T N)) (w : List T) (p q : Nat) : Symbol T N → Prop
  | .terminal kind => q = p + 1 ∧ w[p]? = some kind
  | .nonterminal A => Derives rules [.nonterminal A] (word (segment w p q))

/-- The boundaries lead from `i` to `k` and leave one piece of `w` to each symbol. -/
structure Divides (rules : List (Rule T N)) (w : List T) (Xs : List (Symbol T N))
    (bounds : List Nat) (i k : Nat) : Prop where
  length_eq : bounds.length = Xs.length + 1
  head?_eq : bounds.head? = some i
  getLast?_eq : bounds.getLast? = some k
  pairwise : bounds.Pairwise (· ≤ ·)
  covers : ∀ {d X p q}, Xs[d]? = some X → bounds[d]? = some p → bounds[d + 1]? = some q →
    X.Covers rules w p q

section Divides

variable {rules : List (Rule T N)} {w : List T} {X : Symbol T N} {Xs : List (Symbol T N)}
  {bounds : List Nat} {i j k : Nat}

theorem covers_iff_yields (hij : i ≤ j) (hj : j ≤ w.length) :
    X.Covers rules w i j ↔ Yields rules [X] (segment w i j) := by
  cases X with
  | terminal kind => exact (yields_terminal_iff hij hj).symm
  | nonterminal A => exact derives_word_iff_yields

theorem divides_nil_iff : Divides rules w [] bounds i k ↔ bounds = [i] ∧ i = k := by
  constructor
  · intro h
    obtain ⟨p, rfl⟩ := List.length_eq_one_iff.1 h.length_eq
    exact ⟨congrArg ([·]) (Option.some.inj h.head?_eq),
      Option.some.inj (h.head?_eq.symm.trans h.getLast?_eq)⟩
  · intro h
    obtain ⟨rfl, rfl⟩ := h
    exact ⟨rfl, rfl, rfl, List.pairwise_singleton .., fun hX => by simp at hX⟩

theorem divides_cons_iff : Divides rules w (X :: Xs) bounds i k ↔
    ∃ j s, bounds = i :: s ∧ i ≤ j ∧ X.Covers rules w i j ∧ Divides rules w Xs s j k := by
  constructor
  · intro h
    obtain ⟨hlength, hhead, hlast, hpairwise, hcovers⟩ := h
    match bounds, hlength with
    | p :: q :: s, hlength =>
      obtain rfl : p = i := Option.some.inj hhead
      obtain ⟨hle, hpairwise⟩ := List.pairwise_cons.1 hpairwise
      rw [List.getLast?_cons_cons] at hlast
      exact ⟨q, q :: s, rfl, hle q (.head s), hcovers (d := 0) rfl rfl rfl,
        Nat.succ.inj hlength, rfl, hlast, hpairwise,
        fun {d Y p' q'} hY hp hq => hcovers (d := d + 1) hY hp hq⟩
  · intro h
    obtain ⟨j, s, rfl, hij, hX, h⟩ := h
    obtain ⟨hlength, hhead, hlast, hpairwise, hcovers⟩ := h
    match s, hlength with
    | p :: s, hlength =>
      obtain rfl : p = j := Option.some.inj hhead
      have hle : ∀ q ∈ p :: s, i ≤ q := fun q hq => by
        rcases List.mem_cons.1 hq with rfl | hq
        · exact hij
        · exact Nat.le_trans hij ((List.pairwise_cons.1 hpairwise).1 q hq)
      refine ⟨congrArg Nat.succ hlength, rfl, by rwa [List.getLast?_cons_cons],
        .cons hle hpairwise, fun {d Y p' q} hY hp hq => ?_⟩
      cases d with
      | zero =>
        obtain ⟨rfl, rfl, rfl⟩ : X = Y ∧ i = p' ∧ p = q :=
          ⟨Option.some.inj hY, Option.some.inj hp, Option.some.inj hq⟩
        exact hX
      | succ d => exact hcovers hY hp hq

theorem isSplit_iff_divides (hk : k ≤ w.length) :
    IsSplit rules w Xs bounds i k ↔ Divides rules w Xs bounds i k := by
  induction Xs generalizing bounds i with
  | nil =>
    rw [divides_nil_iff]
    constructor
    · intro h
      cases h
      exact ⟨rfl, rfl⟩
    · intro h
      obtain ⟨rfl, rfl⟩ := h
      exact .nil i
  | cons X Xs ih =>
    rw [divides_cons_iff]
    constructor
    · intro h
      cases h with
      | @cons _ _ s _ j _ hij hX h =>
        exact ⟨j, s, rfl, hij, (covers_iff_yields hij (Nat.le_trans h.le hk)).2 hX, ih.1 h⟩
    · intro h
      obtain ⟨j, s, rfl, hij, hX, h⟩ := h
      have h := ih.2 h
      exact .cons hij ((covers_iff_yields hij (Nat.le_trans h.le hk)).1 hX) h

end Divides

/-! ## The search finds the splits -/

namespace Chart

variable [DecidableEq N] [SearchKey N] {g : Grammar T N} {n : Nat} [DecidableEq T]
  {chart : Chart g n} {origins : N → Nat → Std.ExtTreeSet Nat} {tokens : Array (Token T)}
  {kinds : Array T} {base : Nat} {rule : RuleId} {rhs : List (Symbol T N)}
  {origin dot stop : Nat} {X : Symbol T N}

/-- A token of the kind stands in front of `stop`. -/
theorem any_kind_iff (hkinds : ∀ k : Nat, tokens[base + k]?.map Token.kind = kinds[k]?) {k : Nat}
    {kind : T} : tokens[base + k]?.any (·.kind = kind) = true ↔ kinds[k]? = some kind := by
  rw [← hkinds]
  cases tokens[base + k]? <;> simp

omit [DecidableEq N] [SearchKey N] [DecidableEq T] in
theorem filter_toList_eq (s : Std.ExtTreeSet Nat) (a : Nat) :
    s.toList.filter (· = a) = if a ∈ s then [a] else [] := by
  rw [List.filter_eq, (nodup_toList s).count]
  split <;> simp_all

/-- The search tries the boundaries that the recursion does, and in front of the first symbol also
those where the rule does not begin. -/
theorem boundaries_eq_filter (hkinds : ∀ k : Nat, tokens[base + k]?.map Token.kind = kinds[k]?) :
    chart.boundaries origins kinds rule origin dot stop X =
      (chart.starts origins tokens base rule origin dot stop X).filter
        fun p => dot = 0 → p = origin := by
  cases X with
  | terminal kind =>
    simp only [starts, boundaries, any_kind_iff hkinds]
    by_cases hstop : stop = 0
    · simp [hstop]
    · by_cases hkind : kinds[stop - 1]? = some kind
      · grind
      · simp [hkind]
  | nonterminal A =>
    simp only [starts, boundaries]
    by_cases hdot : dot = 0
    · have hswap (p : Nat → Bool) : ((origins A stop).toList.filter p).filter (· = origin) =
          (if origin ∈ origins A stop then [origin] else []).filter p := by
        rw [← filter_toList_eq, List.filter_filter, List.filter_filter]
        simp only [Bool.and_comm]
      simp only [hdot, forall_const, if_true, hswap]
      split <;> simp_all [List.filter_cons]
    · simp [hdot]

/-- Leaving out what gives nothing changes nothing. -/
theorem flatMap_filter_eq {α β : Type} {p : α → Bool} {f : α → List β} {l : List α}
    (h : ∀ a ∈ l, p a = false → f a = []) : (l.filter p).flatMap f = l.flatMap f := by
  induction l with
  | nil => rfl
  | cons a l ih =>
    have ih := ih fun b hb => h b (.tail a hb)
    cases hp : p a with
    | true => simp [hp, ih]
    | false => simp [hp, ih, h a (.head l) hp]

theorem searchStep_of_eq_none {behind : List Nat} {stack : List PartialSplit}
    {found : List (List Nat)} (hX : rhs[dot]? = none) :
    chart.searchStep origins tokens base rule rhs origin
      (⟨dot + 1, stop :: behind⟩ :: stack, found) = .inl (stack, found) := by
  simp only [searchStep, hX]

theorem searchStep_of_eq_some {behind : List Nat} {stack : List PartialSplit}
    {found : List (List Nat)} (hX : rhs[dot]? = some X) :
    chart.searchStep origins tokens base rule rhs origin
        (⟨dot + 1, stop :: behind⟩ :: stack, found) =
      .inl ((chart.starts origins tokens base rule origin dot stop X).reverse.map
        (fun start => ⟨dot, start :: stop :: behind⟩) ++ stack, found) := by
  simp only [searchStep, hX, List.map_reverse]

/-- With `partials` on top of the stack the search finds `more`, before it goes on with what lies
below. -/
def Finds (chart : Chart g n) (origins : N → Nat → Std.ExtTreeSet Nat) (tokens : Array (Token T))
    (base : Nat) (rule : RuleId) (rhs : List (Symbol T N)) (origin : Nat)
    (partials : List PartialSplit) (more : List (List Nat)) : Prop :=
  ∀ {stack found splits},
    Ends (chart.searchStep origins tokens base rule rhs origin) (stack, found ++ more) splits →
    Ends (chart.searchStep origins tokens base rule rhs origin) (partials ++ stack, found) splits

theorem finds_nil : chart.Finds origins tokens base rule rhs origin [] [] := fun h => by
  rwa [List.append_nil] at h

theorem Finds.append {partials partials' : List PartialSplit} {more more' : List (List Nat)}
    (h : chart.Finds origins tokens base rule rhs origin partials more)
    (h' : chart.Finds origins tokens base rule rhs origin partials' more') :
    chart.Finds origins tokens base rule rhs origin (partials ++ partials') (more ++ more') := by
  intro stack found splits hends
  rw [List.append_assoc]
  exact h (h' (by rwa [List.append_assoc]))

/-- What is pushed together is found together. -/
theorem exists_finds_map {mk : Nat → PartialSplit} {F : Nat → List (List Nat)}
    (h : ∀ start, ∃ more, more.Perm (F start) ∧
      chart.Finds origins tokens base rule rhs origin [mk start] more) (starts : List Nat) :
    ∃ more, more.Perm (starts.flatMap F) ∧
      chart.Finds origins tokens base rule rhs origin (starts.map mk) more := by
  induction starts with
  | nil => exact ⟨[], .refl _, finds_nil⟩
  | cons start starts ih =>
    obtain ⟨more, hperm, hfinds⟩ := h start
    obtain ⟨more', hperm', hfinds'⟩ := ih
    exact ⟨more ++ more', hperm.append hperm', hfinds.append hfinds'⟩

/-- The search finds what the recursion does, in another order. -/
theorem exists_finds (hkinds : ∀ k : Nat, tokens[base + k]?.map Token.kind = kinds[k]?)
    (dot stop : Nat) (behind : List Nat) :
    ∃ more, more.Perm (chart.splitsFrom origins kinds rule origin rhs dot stop behind) ∧
      chart.Finds origins tokens base rule rhs origin [⟨dot, stop :: behind⟩] more := by
  induction dot generalizing stop behind with
  | zero =>
    refine ⟨_, .refl _, fun h => .next rfl ?_⟩
    unfold splitsFrom at h
    split
    · rwa [if_pos ‹_›] at h
    · rwa [if_neg ‹_›, List.append_nil] at h
  | succ dot ih =>
    unfold splitsFrom
    cases hX : rhs[dot]? with
    | none => exact ⟨[], .refl _, fun h => .next (searchStep_of_eq_none hX) (finds_nil h)⟩
    | some X =>
      obtain ⟨more, hperm, hfinds⟩ := exists_finds_map (fun start => ih start (stop :: behind))
        (chart.starts origins tokens base rule origin dot stop X).reverse
      refine ⟨more, hperm.trans ?_, fun h => .next (searchStep_of_eq_some hX) (hfinds h)⟩
      dsimp only
      rw [boundaries_eq_filter hkinds, flatMap_filter_eq]
      · exact (List.reverse_perm _).flatMap_right _
      · intro p _ hp
        obtain ⟨rfl, hne⟩ : dot = 0 ∧ p ≠ origin := by simpa using hp
        simp [splitsFrom, hne]

theorem lexLe_antisymm {a b : List Nat} (h : lexLe a b = true) (h' : lexLe b a = true) : a = b := by
  rcases eq_or_lex_of_lexLe h with heq | hlt
  · exact heq
  · rcases eq_or_lex_of_lexLe h' with heq | hlt'
    · exact heq.symm
    · exact absurd hlt' (List.lt_asymm hlt)

theorem mergeSort_eq_of_perm {l l' : List (List Nat)} (h : l.Perm l') :
    l.mergeSort lexLe = l'.mergeSort lexLe := by
  refine List.Perm.eq_of_pairwise (fun _ _ _ _ => lexLe_antisymm) (pairwise_mergeSort_lexLe l)
    (pairwise_mergeSort_lexLe l') ?_
  exact (List.mergeSort_perm l _).trans (h.trans (List.mergeSort_perm l' _).symm)

/-- The search for splits comes to its end, with the splits. -/
theorem searchEnds_iff (hkinds : ∀ k : Nat, tokens[base + k]?.map Token.kind = kinds[k]?)
    {splits : List (List Nat)} :
    chart.SearchEnds tokens base rule rhs origin stop splits ↔
      splits = chart.splits (lookupOrigins chart.originTable) kinds rule rhs origin stop := by
  let origins := lookupOrigins chart.originTable
  obtain ⟨more, hperm, hfinds⟩ : ∃ more,
      more.Perm (chart.splitsFrom origins kinds rule origin rhs rhs.length stop []) ∧
        chart.Finds origins tokens base rule rhs origin [⟨rhs.length, [stop]⟩] more :=
    exists_finds hkinds rhs.length stop []
  refine Ends.iff_eq (hfinds (.done ?_))
  rw [List.nil_append, searchStep, Chart.splits, mergeSort_eq_of_perm hperm]

/-- The splits of a rule that was recognised over a range are exactly the lists of boundaries that
divide the range among its symbols. There is one at least, each is there once, and they ascend. The
search comes to its end with them. -/
theorem splits_exact (g : Grammar T N) (hg : g.rules.size < 4294967296) (config : ParserConfig)
    (stream : TokenStream T) (start : N)
    {chart : Chart g (stream.rest.map Token.kind).length}
    (hread : Chart.read g config start (stream.rest.map Token.kind) = .ok chart)
    {rule : RuleId} {r : Rule T N} (hr : g.rule? rule = some r) {origin stop : Nat}
    (hitem : chart.contains stop ⟨rule, r.rhs.length, origin⟩ = true) :
    let kinds := stream.rest.map Token.kind
    let splits :=
      chart.splits (lookupOrigins chart.originTable) kinds.toArray rule r.rhs origin stop
    (∀ found, chart.SearchEnds stream.tokens stream.position rule r.rhs origin stop found ↔
        found = splits) ∧
      splits ≠ [] ∧ splits.Pairwise (List.Lex (· < ·)) ∧
      ∀ bounds, bounds ∈ splits ↔ Divides g.rules.toList kinds r.rhs bounds origin stop := by
  intro kinds splits
  have hg' := Nat.le_of_lt hg
  have hreads := Chart.reads_of_read hg' hread
  have hitem := Chart.contains_iff.1 hitem
  obtain ⟨r', hr', -, ho, hstop, hy, hcontext⟩ := hreads.valid hitem
  cases hr.symm.trans hr'
  rw [List.take_length] at hy
  have hmem (bounds : List Nat) :
      bounds ∈ splits ↔ IsSplit g.rules.toList kinds r.rhs bounds origin stop := by
    have hsplits : bounds ∈ chart.splits chart.origins kinds.toArray rule r.rhs origin stop ↔
        IsSplit g.rules.toList kinds r.rhs bounds origin stop :=
      hreads.mem_splits_iff hg' hr hcontext hitem.lt_size
    rwa [← lookupOrigins_eq_origins] at hsplits
  refine ⟨fun found => searchEnds_iff fun k => ?_, fun hnil => ?_, pairwise_splits, fun bounds =>
    (hmem bounds).trans (isSplit_iff_divides hstop)⟩
  · rw [← TokenStream.getElem?_rest, List.getElem?_toArray, List.getElem?_map]
  · obtain ⟨bounds, hsplit⟩ := exists_isSplit hy ho hstop
    have := (hmem bounds).2 hsplit
    rw [hnil] at this
    cases this

/-- A single `'a'` is divided among the two symbols of `S -> A A` in two ways. -/
theorem splits_exact_pairs :
    let kinds := secondOfTwo.rest.map Token.kind
    ∃ (chart : Chart pairs kinds.length) (r : Rule Char Char),
      pairs.rules.size < 4294967296 ∧ Chart.read pairs {} 'S' kinds = .ok chart ∧
      pairs.rule? 0 = some r ∧ chart.contains 1 ⟨0, r.rhs.length, 0⟩ = true ∧
      chart.SearchEnds secondOfTwo.tokens secondOfTwo.position 0 r.rhs 0 1
        [[0, 0, 1], [0, 1, 1]] ∧
      Divides pairs.rules.toList kinds r.rhs [0, 1, 1] 0 1 := by
  intro kinds
  let r : Rule Char Char := ⟨'S', [.nonterminal 'A', .nonterminal 'A'], .ofNat 1⟩
  have hchart : ∃ chart : Chart pairs kinds.length, Chart.read pairs {} 'S' kinds = .ok chart ∧
      chart.contains 1 ⟨0, r.rhs.length, 0⟩ = true ∧
      chart.splitsFrom (lookupOrigins chart.originTable) kinds.toArray 0 0 r.rhs 2 1 [] =
        [[0, 0, 1], [0, 1, 1]] := by
    have h : (Chart.read pairs {} 'S' kinds).toOption.any (fun chart =>
        chart.contains 1 ⟨0, r.rhs.length, 0⟩ && chart.splitsFrom
          (lookupOrigins chart.originTable) kinds.toArray 0 0 r.rhs 2 1 [] =
            [[0, 0, 1], [0, 1, 1]]) = true := by decide +kernel
    cases hread : Chart.read pairs {} 'S' kinds with
    | error e => simp [hread, Except.toOption] at h
    | ok chart => exact ⟨chart, rfl, by simpa [hread, Except.toOption] using h⟩
  obtain ⟨chart, hread, hitem, hfrom⟩ := hchart
  have hsplits : chart.splits (lookupOrigins chart.originTable) kinds.toArray 0 r.rhs 0 1 =
      [[0, 0, 1], [0, 1, 1]] := by
    rw [splits, show r.rhs.length = 2 from rfl, hfrom]
    exact List.mergeSort_of_pairwise (by decide)
  have hsize : pairs.rules.size < 4294967296 := by decide
  have hr : pairs.rule? 0 = some r := by decide +kernel
  obtain ⟨hsearch, -, -, hmem⟩ := splits_exact pairs hsize {} secondOfTwo 'S' hread hr hitem
  exact ⟨chart, r, hsize, hread, hr, hitem, (hsearch _).2 hsplits.symm,
    (hmem _).1 (hsplits ▸ by decide)⟩

end Chart

end EarleyForest
