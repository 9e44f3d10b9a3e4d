import EarleyForest.Grammar.Cycle
import EarleyForest.Grammar.Nullable
import EarleyForest.SearchKey
import Std.Data.TreeMap
import Std.Data.TreeSet

/-!
# Grammars

A `Grammar` is a table of rules with an entry point that has been checked: the entry point and every
nonterminal in a rule have rules of their own, and no nonterminal derives itself. Rules are known by
number, and the alternatives of a nonterminal are its rules in that order.
-/

namespace EarleyForest

variable {T N : Type} [SearchKey N]

/-- The numbers of numbered rules for each left-hand side, in order. -/
def indexNumbered (rules : List (Rule T N × Nat)) : Std.TreeMap N (List RuleId) :=
  rules.foldr (fun (r, i) index => index.insert r.lhs (.ofNat i :: index.getD r.lhs [])) {}

/-- The numbers of the rules for each left-hand side, in order. -/
def ruleIndex (rules : List (Rule T N)) : Std.TreeMap N (List RuleId) :=
  indexNumbered rules.zipIdx

theorem contains_indexNumbered (rules : List (Rule T N × Nat)) (A : N) :
    (indexNumbered rules).contains A = true ↔ ∃ p ∈ rules, p.1.lhs = A := by
  induction rules with
  | nil => simp [indexNumbered]
  | cons p rules ih =>
    rw [indexNumbered] at ih
    simp [indexNumbered, Std.TreeMap.contains_insert, Std.LawfulEqCmp.compare_eq_iff_eq, ih]

theorem contains_ruleIndex (rules : List (Rule T N)) (A : N) :
    (ruleIndex rules).contains A = true ↔ ∃ r ∈ rules, r.lhs = A := by
  rw [ruleIndex, contains_indexNumbered]
  constructor
  · rintro ⟨⟨r, i⟩, hr, hA⟩
    exact ⟨r, List.fst_mem_of_mem_zipIdx hr, hA⟩
  · rintro ⟨r, hr, hA⟩
    obtain ⟨i, hi⟩ := List.mem_iff_getElem?.1 hr
    exact ⟨(r, i), List.mem_zipIdx_iff_getElem?.2 hi, hA⟩

variable [DecidableEq N]

theorem getD_indexNumbered (rules : List (Rule T N × Nat)) (A : N) :
    (indexNumbered rules).getD A [] =
      (rules.filter (·.1.lhs = A)).map fun (_, i) => .ofNat i := by
  induction rules with
  | nil => simp [indexNumbered]
  | cons p rules ih =>
    rw [indexNumbered] at ih
    simp only [indexNumbered, List.foldr_cons, Std.TreeMap.getD_insert, List.filter_cons,
      Std.LawfulEqCmp.compare_eq_iff_eq, decide_eq_true_eq]
    split
    · rename_i h
      subst h
      simp [ih]
    · exact ih

/-- The first nonterminal in a rule that is not `defined`, behind the left-hand side of that
rule. -/
def findUndefined (defined : N → Bool) (rules : List (Rule T N)) : Option (N × N) :=
  rules.findSome? fun r => r.rhs.findSome? fun
    | .terminal _ => none
    | .nonterminal A => if defined A then none else some (r.lhs, A)

/-- A checked table of rules. -/
structure Grammar (T N : Type) [DecidableEq N] [SearchKey N] where
  rules : Array (Rule T N)
  entry : N
  /-- The numbers of the rules for each nonterminal. -/
  index : Std.TreeMap N (List RuleId)
  /-- The nonterminals that derive the empty string. -/
  nullable : Std.TreeSet N
  index_eq : index = ruleIndex rules.toList
  entry_mem : index.contains entry = true
  findUndefined_eq : findUndefined index.contains rules.toList = none
  nullable_eq : nullable = .ofList (nullableSymbols rules.toList)
  findCycle_eq : findCycle rules.toList nullable.contains = none

namespace Grammar

/-- The rule known as `id`. -/
def rule? (g : Grammar T N) (id : RuleId) : Option (Rule T N) := g.rules[id.toNat]?

/-- The numbers of the rules for `A`, in order. -/
def alternatives (g : Grammar T N) (A : N) : List RuleId := g.index.getD A []

/-- The nonterminal that is parsed where `A` is asked for: the left-hand side of the first of its
rules, looked up by number. That is `A`, as long as 32 bits suffice to number the rules. -/
def startOf? (g : Grammar T N) (A : N) : Option N :=
  ((g.alternatives A).head?.bind g.rule?).map Rule.lhs

/-- Whether `A` has rules. -/
def hasRules (g : Grammar T N) (A : N) : Bool := g.index.contains A

/-- Whether `A` derives the empty string. -/
def isNullable (g : Grammar T N) (A : N) : Bool := g.nullable.contains A

/-- The cost of a rule. A number without a rule costs nothing. -/
def cost (g : Grammar T N) (id : RuleId) : Cost := ((g.rule? id).map Rule.cost).getD 0

variable {g : Grammar T N} {A B : N}

theorem alternatives_eq (g : Grammar T N) (A : N) : g.alternatives A =
    (g.rules.toList.zipIdx.filter (·.1.lhs = A)).map fun (_, i) => .ofNat i := by
  rw [alternatives, g.index_eq, ruleIndex, getD_indexNumbered]

theorem mem_alternatives {id : RuleId} :
    id ∈ g.alternatives A ↔ ∃ i r, g.rules[i]? = some r ∧ r.lhs = A ∧ .ofNat i = id := by
  simp only [alternatives_eq, List.mem_map, List.mem_filter, Prod.exists,
    List.mem_zipIdx_iff_getElem?, Array.getElem?_toList, decide_eq_true_eq]
  constructor
  · rintro ⟨r, i, ⟨hr, hA⟩, hi⟩
    exact ⟨i, r, hr, hA, hi⟩
  · rintro ⟨i, r, hr, hA, hi⟩
    exact ⟨r, i, ⟨hr, hA⟩, hi⟩

/-- A number that is given to a rule names one, though it may be another one. -/
theorem exists_rule_of_mem_alternatives {id : RuleId} (h : id ∈ g.alternatives A) :
    ∃ r, g.rule? id = some r := by
  obtain ⟨i, r, hr, -, rfl⟩ := mem_alternatives.1 h
  have hi := (Array.getElem?_eq_some_iff.1 hr).1
  have hlt : (.ofNat i : RuleId).toNat < g.rules.size := by
    rw [Saturating.toNat_ofNat]
    omega
  exact ⟨_, Array.getElem?_eq_getElem hlt⟩

/-- As long as 32 bits suffice to number the rules, a number names one rule only. -/
theorem mem_alternatives_iff_rule? (h : g.rules.size ≤ 4294967296) {id : RuleId} :
    id ∈ g.alternatives A ↔ ∃ r, g.rule? id = some r ∧ r.lhs = A := by
  rw [mem_alternatives]
  constructor
  · rintro ⟨i, r, hr, hA, rfl⟩
    have hi := (Array.getElem?_eq_some_iff.1 hr).1
    exact ⟨r, by rwa [rule?, Saturating.toNat_ofNat, Nat.min_eq_left (by omega)], hA⟩
  · rintro ⟨r, hr, hA⟩
    exact ⟨id.toNat, r, hr, hA, Saturating.ofNat_toNat id⟩

theorem pairwise_alternatives (h : g.rules.size ≤ 4294967296) (A : N) :
    (g.alternatives A).Pairwise (· < ·) := by
  have numbered : g.rules.toList.zipIdx.Pairwise fun p q => p.2 < q.2 := by
    refine List.pairwise_iff_getElem.2 fun i j _ _ hij => ?_
    simpa using hij
  rw [alternatives_eq]
  refine List.pairwise_map.2 (List.Pairwise.imp_of_mem ?_ (numbered.filter _))
  intro p q _ hq hpq
  have := (List.mem_zipIdx (List.mem_filter.1 hq).1).2.1
  simp only [Array.length_toList] at this
  rw [Saturating.lt_def, Saturating.toNat_ofNat, Saturating.toNat_ofNat]
  omega

theorem hasRules_iff : g.hasRules A = true ↔ ∃ r ∈ g.rules, r.lhs = A := by
  simp only [hasRules, g.index_eq, contains_ruleIndex, Array.mem_toList_iff]

theorem isNullable_iff : g.isNullable A = true ↔ A ∈ nullableSymbols g.rules.toList := by
  simp [isNullable, g.nullable_eq, Std.TreeSet.contains_ofList]

theorem hasRules_iff_exists_alternative : g.hasRules A = true ↔ ∃ i, i ∈ g.alternatives A := by
  simp only [hasRules_iff, mem_alternatives, Array.mem_iff_getElem?]
  constructor
  · rintro ⟨r, ⟨i, hr⟩, hA⟩
    exact ⟨.ofNat i, i, r, hr, hA, rfl⟩
  · rintro ⟨id, i, r, hr, hA, -⟩
    exact ⟨r, ⟨i, hr⟩, hA⟩

theorem startOf?_eq_none_iff : g.startOf? A = none ↔ g.hasRules A = false := by
  rw [← Bool.not_eq_true, hasRules_iff_exists_alternative, startOf?]
  cases halternatives : g.alternatives A with
  | nil => simp
  | cons id ids =>
    have hid : id ∈ g.alternatives A := halternatives ▸ List.mem_cons_self
    obtain ⟨r, hr⟩ := exists_rule_of_mem_alternatives hid
    simp [hr]

theorem exists_startOf? (h : g.hasRules A = true) : ∃ B, g.startOf? A = some B := by
  cases hstart : g.startOf? A with
  | some B => exact ⟨B, rfl⟩
  | none => exact absurd h (Bool.eq_false_iff.1 (startOf?_eq_none_iff.1 hstart))

/-- What is parsed has rules. -/
theorem hasRules_of_startOf? (h : g.startOf? A = some B) : g.hasRules B = true := by
  obtain ⟨r, hr, rfl⟩ := Option.map_eq_some_iff.1 h
  obtain ⟨id, -, hr⟩ := Option.bind_eq_some_iff.1 hr
  exact hasRules_iff.2 ⟨r, Array.mem_of_getElem? hr, rfl⟩

theorem eq_of_startOf? (hg : g.rules.size ≤ 4294967296) (h : g.startOf? A = some B) : B = A := by
  obtain ⟨r, hr, rfl⟩ := Option.map_eq_some_iff.1 h
  obtain ⟨id, hid, hr⟩ := Option.bind_eq_some_iff.1 hr
  obtain ⟨r', hr', hA⟩ := (mem_alternatives_iff_rule? hg).1 (List.mem_of_head? hid)
  cases hr.symm.trans hr'
  exact hA

end Grammar

/-! ## Building grammars -/

/-- Why a table of rules is refused. -/
inductive GrammarError (N : Type) where
  | missingEntryPoint
  | noRulesForEntry (entry : N)
  /-- A rule for `lhs` mentions `symbol`, which has no rules. -/
  | undefinedNonterminal (lhs symbol : N)
  /-- Each nonterminal of the cycle leads to the next one, and the last to the first. -/
  | cyclic (cycle : List N)
deriving DecidableEq

/-- The error in words. -/
def GrammarError.message [Named N] : GrammarError N → String
  | missingEntryPoint => "missing entry point"
  | noRulesForEntry A => "entry point `" ++ name A ++ "` has no rules"
  | undefinedNonterminal A B =>
    "undefined nonterminal `" ++ name B ++ "` used by a rule for `" ++ name A ++ "`"
  | cyclic cycle => "grammar is cyclic: " ++ " => ".intercalate ((cycle ++ cycle.take 1).map name)

/-- Rules in the order in which they were added, and the entry point once it is set. -/
structure GrammarBuilder (T N : Type) where
  rules : Array (Rule T N) := #[]
  entry? : Option N := none

namespace GrammarBuilder

/-- Sets the entry point. -/
def entryPoint (b : GrammarBuilder T N) (A : N) : GrammarBuilder T N := { b with entry? := some A }

/-- Adds a rule for `A`. -/
def rule (b : GrammarBuilder T N) (A : N) (rhs : List (Symbol T N)) (cost : Cost) :
    GrammarBuilder T N :=
  { b with rules := b.rules.push ⟨A, rhs, cost⟩ }

/-- Adds rules for `A`, in order. -/
def alternatives (b : GrammarBuilder T N) (A : N) (rules : List (List (Symbol T N) × Cost)) :
    GrammarBuilder T N :=
  rules.foldl (fun b (rhs, cost) => b.rule A rhs cost) b

/-- Checks the rules. Of several faults the first in the order of `GrammarError` is reported. -/
def build (b : GrammarBuilder T N) : Except (GrammarError N) (Grammar T N) :=
  match b.entry? with
  | none => .error .missingEntryPoint
  | some entry =>
    let index := ruleIndex b.rules.toList
    match hentry : index.contains entry with
    | false => .error (.noRulesForEntry entry)
    | true =>
      match hundefined : findUndefined index.contains b.rules.toList with
      | some (A, B) => .error (.undefinedNonterminal A B)
      | none =>
        let nullable : Std.TreeSet N := .ofList (nullableSymbols b.rules.toList)
        match hcycle : findCycle b.rules.toList nullable.contains with
        | some cycle => .error (.cyclic cycle)
        | none => .ok
          { rules := b.rules
            entry := entry
            index := index
            nullable := nullable
            index_eq := rfl
            entry_mem := hentry
            findUndefined_eq := hundefined
            nullable_eq := rfl
            findCycle_eq := hcycle }

end GrammarBuilder

end EarleyForest
