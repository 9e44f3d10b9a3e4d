import EarleyForest.Proofs.Forest.Blame

/-!
# Resuming behind a cursor

The check of a cursor follows the derivation that the cursor describes and writes nothing down. What
it accepts is the record that unfolding that derivation would have written, in full
(`Sound.exists_of_replay`), and it accepts every such record. Among records the order of their
alternatives is the order in which they part (`Sound.precedes_iff`). So a cursor that is not the
record of a derivation is turned down, or stops the request where there is no word behind a number
in it, and otherwise the derivation given is the very next one (`resumes_of_price`).
-/

namespace EarleyForest

variable {T N : Type} [DecidableEq N] [SearchKey N] {g : Grammar T N} {f : Forest g}

/-- Compared by the alternatives that they name, `r` comes before `s`. -/
def ComesBefore (r s : List Choice) : Prop :=
  List.Lex (· < ·) (r.map Choice.alternative) (s.map Choice.alternative)

theorem ComesBefore.irrefl (r : List Choice) : ¬ ComesBefore r r :=
  lt_irrefl (r.map Choice.alternative)

theorem ComesBefore.asymm {r s : List Choice} (h : ComesBefore r s) : ¬ ComesBefore s r :=
  lt_asymm (a := r.map Choice.alternative) h

namespace Forest

variable {root : NodeId} {t t' : ParseTree T N} {r s : List Choice}

/-! ## What the check of a cursor accepts -/

/-- A cursor is accepted only if it is the whole record of a derivation. -/
theorem Sound.exists_of_replay (hf : f.Sound) {d : Directions} {counts : List Nat}
    (h : f.replay root d = .ok counts) : ∃ t, f.Unfolds root t d.choices := by
  obtain ⟨ts, hts⟩ := hf.exists_unfoldsAll_of_leads (leads_of_replay h).1 .nil
  rw [List.append_nil] at hts
  exact hts.exists_unfolds

theorem Sound.exists_of_nextParse (hf : f.Sound) (hroot : f.root? = some root) {d : Directions}
    {next? : Option (NextParse T N)} (h : f.nextParse (some d) = .ok next?) :
    ∃ t, f.Unfolds root t d.choices := by
  simp only [nextParse, hroot] at h
  obtain ⟨choices?, hsuccessor, -⟩ := bind_eq_ok_iff.1 h
  obtain ⟨counts, hreplay, -⟩ := bind_eq_ok_iff.1 hsuccessor
  exact hf.exists_of_replay hreplay

/-- A cursor is turned down, or stops the request, just if it is not the record of a derivation. -/
theorem Sound.nextParse_foreign_iff (hf : f.Sound) (hroot : f.root? = some root) (d : Directions) :
    ((∃ fault, f.nextParse (some d) = .error (.fails (.invalidDirections fault))) ∨
        f.nextParse (some d) = .error .overflow) ↔ ¬ ∃ t, f.Unfolds root t d.choices := by
  constructor
  · rintro hforeign ⟨t, ht⟩
    obtain ⟨next?, hnext⟩ : ∃ next?, f.nextParse (some d) = .ok next? := by
      rcases hf.nextParse_some hroot ht with ⟨hnone, -⟩ | ⟨next, hnext, -⟩
      · exact ⟨none, hnone⟩
      · exact ⟨some next, hnext⟩
    simp only [hnext, reduceCtorEq, exists_false, or_self] at hforeign
  · intro hforeign
    rcases hf.nextParse_cases d with ⟨next?, hnext⟩ | hrest
    · exact absurd (hf.exists_of_nextParse hroot hnext) hforeign
    · exact hrest

/-- Each cursor that is given out is taken back. -/
theorem Sound.exists_nextParse (hf : f.Sound) (hroot : f.root? = some root)
    {cursor? : Option Directions} {next : NextParse T N}
    (h : f.nextParse cursor? = .ok (some next)) :
    ∃ next?, f.nextParse (some next.directions) = .ok next? := by
  rcases hf.nextParse_some hroot (unfolds_of_nextParse hroot h) with
    ⟨hnone, -⟩ | ⟨next', hnext, -⟩
  · exact ⟨none, hnone⟩
  · exact ⟨some next', hnext⟩

/-! ## The next derivation in order -/

/-- Records of derivations are ordered by the alternatives that they name. -/
theorem Sound.precedes_iff (hf : f.Sound) (h : f.Unfolds root t r) (h' : f.Unfolds root t' s) :
    Precedes r s ↔ ComesBefore r s := by
  refine ⟨Precedes.lex_alternative, fun hlt => ?_⟩
  rcases hf.eq_or_precedes h h' with rfl | hrs | hsr
  · exact absurd hlt (ComesBefore.irrefl r)
  · exact hrs
  · exact absurd hlt (ComesBefore.asymm hsr.lex_alternative)

/-- The derivation that comes next behind the record `r`, with what it costs. -/
structure IsNextBehind (f : Forest g) (root : NodeId) (r : List Choice) (next : NextParse T N) :
    Prop where
  unfolds : f.Unfolds root next.parse.tree next.directions.choices
  weight_eq : next.parse.weight = next.parse.tree.weight g
  behind : ComesBefore r next.directions.choices
  immediate : ∀ t s, f.Unfolds root t s → ComesBefore r s →
    s = next.directions.choices ∨ ComesBefore next.directions.choices s

theorem IsFirst.isNextBehind (hf : f.Sound) {next : NextParse T N} (hr : f.Unfolds root t r)
    (h : f.IsFirst root (Precedes r) next)
    (hweight : next.parse.weight = next.parse.tree.weight g) : f.IsNextBehind root r next where
  unfolds := h.unfolds
  weight_eq := hweight
  behind := h.holds.lex_alternative
  immediate t' s hs hlt :=
    (h.least t' s hs ((hf.precedes_iff hr hs).2 hlt)).imp_right Precedes.lex_alternative

/-- Handing in a cursor to a forest that can be priced. One that is not the record of a derivation is
turned down, unless it stops the request: it leads to an ambiguous node and takes an alternative
there that is out of range and has no word behind it. Behind the last derivation there is none, and
behind any other one the derivation given is the next in the order of the alternatives taken. -/
theorem resumes_of_price (f : Forest g) (hf : f.InRange) (htokens : f.HasTokens) (root : NodeId)
    (hroot : f.root? = some root) (prices : PriceTable) (h : f.price = .ok prices)
    (d : Directions) :
    ((∃ fault, f.nextParse (some d) = .error (.fails (.invalidDirections fault))) ↔
        (¬ ∃ t, f.Unfolds root t d.choices) ∧
          ¬ ∃ c, f.Blames root d c ∧ 18446744073709551615 ≤ c.alternative) ∧
      (f.nextParse (some d) = .error .overflow ↔
        ∃ c, f.Blames root d c ∧ 18446744073709551615 ≤ c.alternative) ∧
      (f.nextParse (some d) = .ok none ↔ (∃ t, f.Unfolds root t d.choices) ∧
        ∀ t s, f.Unfolds root t s → ¬ ComesBefore d.choices s) ∧
      ((∃ t, f.Unfolds root t d.choices) →
        (∃ t s, f.Unfolds root t s ∧ ComesBefore d.choices s) →
          ∃ next, f.nextParse (some d) = .ok (some next) ∧ f.IsNextBehind root d.choices next) := by
  have hsound := sound_of_price hf htokens h
  have hstops : f.nextParse (some d) = .error .overflow ↔
      ∃ c, f.Blames root d c ∧ 18446744073709551615 ≤ c.alternative :=
    nextParse_eq_overflow_iff hroot (hsound.endsWithin (hsound.root_lt root hroot))
  have hforeign := hsound.nextParse_foreign_iff hroot d
  refine ⟨?_, hstops, ⟨fun hnone => ?_, fun ⟨⟨t, ht⟩, hlast⟩ => ?_⟩,
    fun ⟨t, ht⟩ ⟨t', s, hs, hlt⟩ => ?_⟩
  · rw [← hforeign, ← hstops]
    refine ⟨fun ⟨fault, hfault⟩ => ⟨.inl ⟨fault, hfault⟩, fun hstop => ?_⟩, fun ⟨hor, hne⟩ => ?_⟩
    · cases hfault.symm.trans hstop
    · exact hor.resolve_right hne
  · obtain ⟨t, ht⟩ := hsound.exists_of_nextParse hroot hnone
    refine ⟨⟨t, ht⟩, fun t' s hs hlt => ?_⟩
    rcases hsound.nextParse_some hroot ht with ⟨-, hlast⟩ | ⟨next, hnext, -⟩
    · exact hlast t' s hs ((hsound.precedes_iff ht hs).2 hlt)
    · cases hnone.symm.trans hnext
  · rcases hsound.nextParse_some hroot ht with ⟨hnone, -⟩ | ⟨next, -, hfirst⟩
    · exact hnone
    · exact absurd hfirst.holds.lex_alternative (hlast _ _ hfirst.unfolds)
  · rcases hsound.nextParse_some hroot ht with ⟨-, hlast⟩ | ⟨next, hnext, hfirst⟩
    · exact absurd ((hsound.precedes_iff ht hs).2 hlt) (hlast t' s hs)
    · exact ⟨next, hnext, hfirst.isNextBehind hsound ht (weight_of_nextParse hnext)⟩

/-- A cursor that ends before the second occurrence of the node is turned down, and the last word as
the first choice stops the request. With both choices given, the last one that can be is raised, and
the choice behind it starts over. -/
theorem resumes_of_price_twins : twins.InRange ∧ twins.HasTokens ∧ twins.root? = some 0 ∧
    twins.price = .ok twinPrices ∧ (¬ ∃ t, twins.Unfolds 0 t [⟨1, 0⟩]) ∧
      (∃ c, twins.Blames 0 ⟨[⟨1, 18446744073709551615⟩]⟩ c) ∧
      ∃ next, twins.nextParse (some ⟨[⟨1, 0⟩, ⟨1, 1⟩]⟩) = .ok (some next) ∧
        next.directions.choices = [⟨1, 1⟩, ⟨1, 0⟩] ∧
        twins.IsNextBehind 0 [⟨1, 0⟩, ⟨1, 1⟩] next := by
  have resumes := resumes_of_price twins inRange_twins hasTokens_twins 0 root_twins twinPrices
    price_twins
  refine ⟨inRange_twins, hasTokens_twins, root_twins, price_twins, ?_, ?_, ?_⟩
  · exact ((resumes ⟨[⟨1, 0⟩]⟩).1.1 ⟨.endsEarly 1 1, rfl⟩).1
  · obtain ⟨c, hc, -⟩ := (resumes _).2.1.1 nextParse_twins_lastWord
    exact ⟨c, hc⟩
  · obtain ⟨hinvalid, hstops, hnone, hnext⟩ := resumes ⟨[⟨1, 0⟩, ⟨1, 1⟩]⟩
    have hchoices : (twins.nextParse (some ⟨[⟨1, 0⟩, ⟨1, 1⟩]⟩)).map
        (·.map (·.directions.choices)) = .ok (some [⟨1, 1⟩, ⟨1, 0⟩]) := rfl
    obtain ⟨_, hsome, hmap⟩ := map_eq_ok_iff.1 hchoices
    obtain ⟨next, rfl, hraised⟩ := Option.map_eq_some_iff.1 hmap
    have hrecord : ∃ t, twins.Unfolds 0 t [⟨1, 0⟩, ⟨1, 1⟩] := by
      by_contra hforeign
      by_cases hblames : ∃ c, twins.Blames 0 ⟨[⟨1, 0⟩, ⟨1, 1⟩]⟩ c ∧
          18446744073709551615 ≤ c.alternative
      · cases (hstops.2 hblames).symm.trans hsome
      · obtain ⟨fault, hfault⟩ := hinvalid.2 ⟨hforeign, hblames⟩
        cases hfault.symm.trans hsome
    have hbehind : ∃ t s, twins.Unfolds 0 t s ∧ ComesBefore [⟨1, 0⟩, ⟨1, 1⟩] s := by
      by_contra hlast
      cases hsome.symm.trans (hnone.2 ⟨hrecord, fun t s hs hlt => hlast ⟨t, s, hs, hlt⟩⟩)
    obtain ⟨next', hsome', hnext'⟩ := hnext hrecord hbehind
    cases hsome.symm.trans hsome'
    exact ⟨next, hsome, hraised, hnext'⟩

/-- So not all that are foreign are turned down: a cursor of words that is no record stops the
request. -/
theorem exists_foreign_overflow_twins : twins.InRange ∧ twins.HasTokens ∧
    twins.root? = some 0 ∧ twins.price = .ok twinPrices ∧
    (¬ ∃ t, twins.Unfolds 0 t [⟨1, 18446744073709551615⟩]) ∧
    twins.nextParse (some ⟨[⟨1, 18446744073709551615⟩]⟩) = .error .overflow ∧
    ¬ ∀ d : Directions, AreWords d.choices →
      ((∃ fault, twins.nextParse (some d) = .error (.fails (.invalidDirections fault))) ↔
        ¬ ∃ t, twins.Unfolds 0 t d.choices) := by
  have hforeign : ¬ ∃ t, twins.Unfolds 0 t [⟨1, 18446744073709551615⟩] := by
    rintro ⟨t, ht⟩
    have hlt := ht.lt_countAt ⟨1, 18446744073709551615⟩ List.mem_cons_self
    have hcount : twins.countAt ⟨1, 18446744073709551615⟩ = 2 := by decide +kernel
    rw [hcount] at hlt
    exact absurd hlt (by decide)
  refine ⟨inRange_twins, hasTokens_twins, root_twins, price_twins, hforeign,
    nextParse_twins_lastWord, fun h => ?_⟩
  obtain ⟨fault, hfault⟩ := (h ⟨[⟨1, 18446744073709551615⟩]⟩ (by simp [AreWords])).2 hforeign
  cases hfault.symm.trans nextParse_twins_lastWord

end Forest

end EarleyForest
