import EarleyForest.Chart.Item
import Std.Data.ExtTreeSet

/-!
# Item sets

An `ItemSet` holds the items recognised at one position, without repetition and in the order in
which they were found. That order is also the worklist: a set is closed by walking it by index while
it grows. Only items of the grammar are admitted, so a set stays finite and every walk ends.
-/

namespace EarleyForest

variable {T N : Type} [DecidableEq N] [SearchKey N]

/-- Items of `g` over an input of `n` tokens, in the order in which they were found. -/
structure ItemSet (g : Grammar T N) (n : Nat) where
  items : Array Item
  seen : Std.TreeSet Item Item.compare
  /-- Those of the items whose dot stands before a nonterminal. -/
  waiting : Array Item
  mem_seen : ∀ i, i ∈ seen ↔ i ∈ items
  nodup : items.toList.Nodup
  proper : ∀ i ∈ items, i.isProper g n = true
  waiting_eq : waiting = items.filter (·.isWaiting g)

namespace ItemSet

variable {g : Grammar T N} {n : Nat}

/-- The set without items. -/
def empty : ItemSet g n where
  items := #[]
  seen := {}
  waiting := #[]
  mem_seen := by simp
  nodup := by simp
  proper := by simp
  waiting_eq := by simp

instance : Inhabited (ItemSet g n) := ⟨empty⟩

instance : Membership Item (ItemSet g n) := ⟨fun s i => i ∈ s.items⟩

instance (i : Item) (s : ItemSet g n) : Decidable (i ∈ s) := decidable_of_iff _ (s.mem_seen i)

/-- The number of items. -/
def size (s : ItemSet g n) : Nat := s.items.size

/-- A set has at most as many items as there are. -/
theorem size_le (s : ItemSet g n) : s.items.size ≤ (Item.all g n).length := by
  rw [← Array.length_toList]
  exact s.nodup.length_le_of_subset fun i hi =>
    Item.mem_all_of_isProper (s.proper i (by simpa using hi))

theorem waiting_size_le (s : ItemSet g n) : s.waiting.size ≤ (Item.all g n).length := by
  rw [s.waiting_eq]
  exact Nat.le_trans Array.size_filter_le s.size_le

/-- Adds `i` behind the other items, unless it is there already or is not an item of the grammar. -/
def add (s : ItemSet g n) (i : Item) : ItemSet g n :=
  if hs : i ∈ s then s
  else if hp : i.isProper g n = true then
    { items := s.items.push i
      seen := s.seen.insert i
      waiting := if i.isWaiting g then s.waiting.push i else s.waiting
      mem_seen := fun j => by
        rw [Std.TreeSet.mem_insert, Std.LawfulEqCmp.compare_eq_iff_eq, Array.mem_push, s.mem_seen]
        grind
      nodup := by
        have : i ∉ s.items.toList := fun h => hs (Array.mem_toList_iff.1 h)
        simp only [Array.toList_push]
        exact List.nodup_append.2 ⟨s.nodup, by simp, by grind⟩
      proper := fun j hj => by
        rcases Array.mem_push.1 hj with hj | rfl
        · exact s.proper j hj
        · exact hp
      waiting_eq := by rw [Array.filter_push, ← s.waiting_eq] }
  else s

/-- Adds `items` in order. -/
def addAll (s : ItemSet g n) (items : List Item) : ItemSet g n := items.foldl add s

/-- Advances those of `items` over their next symbol for which `p` holds, and adds them to `s`. -/
def addAdvanced (s : ItemSet g n) (items : Array Item) (p : Item → Bool) : ItemSet g n :=
  items.foldl (fun s i => if p i then s.add i.advance else s) s

/-- Advances the waiting items of the set itself that wait for `A`, from index `k` on, those
included that are added on the way. -/
def advanceOwn (A : N) (k : Nat) (s : ItemSet g n) : ItemSet g n :=
  if h : k < s.waiting.size then
    let i := s.waiting[k]
    advanceOwn A (k + 1) (if i.waitsFor g A then s.add i.advance else s)
  else s
termination_by (Item.all g n).length - k
decreasing_by
  have := s.waiting_size_le
  omega

/-- Adds what `i` calls for at the position behind the closed sets `earlier`: before a nonterminal
the start of its rules, and the advanced item too if the nonterminal derives the empty string; at
the end of a rule the items, advanced, that wait for its left-hand side where it began. -/
def extend (earlier : Array (ItemSet g n)) (s : ItemSet g n) (i : Item) : ItemSet g n :=
  match i.next? g with
  | some (.terminal _) => s
  | some (.nonterminal A) =>
    let s := s.addAll ((g.alternatives A).map (.start earlier.size))
    if g.isNullable A then s.add i.advance else s
  | none =>
    match i.lhs? g with
    | none => s
    | some A =>
      match earlier[i.origin]? with
      | some source => s.addAdvanced source.waiting (·.waitsFor g A)
      | none => s.advanceOwn A 0

/-- Extends the set by its items from index `k` on, those included that are added on the way. -/
def closeFrom (earlier : Array (ItemSet g n)) (k : Nat) (s : ItemSet g n) : ItemSet g n :=
  if h : k < s.items.size then
    let i := s.items[k]
    closeFrom earlier (k + 1) (s.extend earlier i)
  else s
termination_by (Item.all g n).length - k
decreasing_by
  have := s.size_le
  omega

/-- The closed set at the position behind the closed sets `earlier`. -/
def close (earlier : Array (ItemSet g n)) (s : ItemSet g n) : ItemSet g n := closeFrom earlier 0 s

/-- The items that have read a token of the given kind. -/
def scan [DecidableEq T] (s : ItemSet g n) (kind : T) : ItemSet g n :=
  empty.addAdvanced s.items (·.waitsForKind g kind)

/-- The kinds that items of the set wait for, in the order in which they were found. -/
def expected [DecidableEq T] (s : ItemSet g n) : List T :=
  (s.items.toList.filterMap fun i => match i.next? g with
    | some (.terminal kind) => some kind
    | _ => none).eraseDups

/-- Whether `A` was recognised from `origin` on. -/
def hasCompleted (s : ItemSet g n) (A : N) (origin : Nat) : Bool :=
  s.items.any fun i => i.completes g A && i.origin = origin

/-- Where the recognitions of `A` that are complete here began. -/
def origins (s : ItemSet g n) (A : N) : Std.ExtTreeSet Nat :=
  .ofList ((s.items.toList.filter (·.completes g A)).map Item.origin)

/-- Where the complete recognitions among `items` began, by nonterminals. -/
def tableOrigins (g : Grammar T N) (items : List Item) : Std.TreeMap N (Std.ExtTreeSet Nat) :=
  items.foldr (fun i table => match i.completed? g with
    | some A => table.insert A ((table.getD A {}).insert i.origin)
    | none => table) {}

/-! ## Membership -/

theorem mem_def {s : ItemSet g n} {i : Item} : i ∈ s ↔ i ∈ s.items := Iff.rfl

@[simp] theorem not_mem_empty (i : Item) : i ∉ (empty : ItemSet g n) := by
  simp [mem_def, empty]

theorem mem_add {s : ItemSet g n} {i j : Item} :
    j ∈ s.add i ↔ j ∈ s ∨ (j = i ∧ i.isProper g n = true) := by
  unfold add
  split
  · constructor
    · exact .inl
    · rintro (h | ⟨rfl, -⟩) <;> assumption
  · split
    · change j ∈ s.items.push i ↔ j ∈ s.items ∨ _
      rw [Array.mem_push]
      grind
    · grind

theorem mem_addAll {items : List Item} {s : ItemSet g n} {j : Item} :
    j ∈ s.addAll items ↔ j ∈ s ∨ (j ∈ items ∧ j.isProper g n = true) := by
  unfold addAll
  induction items generalizing s with
  | nil => simp
  | cons i items ih =>
    simp only [List.foldl_cons, ih, mem_add, List.mem_cons]
    grind

theorem mem_waiting {s : ItemSet g n} {i : Item} :
    i ∈ s.waiting ↔ i ∈ s ∧ i.isWaiting g = true := by
  rw [s.waiting_eq, Array.mem_filter, mem_def]

theorem mem_addAdvanced {s : ItemSet g n} {items : Array Item} {p : Item → Bool} {j : Item} :
    j ∈ s.addAdvanced items p ↔
      j ∈ s ∨ ∃ i ∈ items, p i = true ∧ j = i.advance ∧ j.isProper g n = true := by
  have key : ∀ (items : List Item) (s : ItemSet g n),
      j ∈ items.foldl (fun s i => if p i then s.add i.advance else s) s ↔
        j ∈ s ∨ ∃ i ∈ items, p i = true ∧ j = i.advance ∧ j.isProper g n = true := by
    intro items
    induction items with
    | nil => simp
    | cons i items ih =>
      intro s
      simp only [List.foldl_cons, ih, List.mem_cons, exists_eq_or_imp]
      by_cases hp : p i = true
      · simp only [if_pos hp, mem_add]
        grind
      · simp only [if_neg hp]
        grind
  unfold addAdvanced
  rw [← Array.foldl_toList, key]
  simp

/-- It is enough to advance the waiting items: others wait for no nonterminal. -/
theorem mem_addAdvanced_waiting {s source : ItemSet g n} {A : N} {j : Item} :
    j ∈ s.addAdvanced source.waiting (·.waitsFor g A) ↔
      j ∈ s ∨ ∃ i ∈ source, i.waitsFor g A = true ∧ j = i.advance ∧ j.isProper g n = true := by
  rw [mem_addAdvanced]
  refine or_congr_right (exists_congr fun i => ⟨?_, ?_⟩)
  · rintro ⟨hi, h⟩
    exact ⟨(mem_waiting.1 hi).1, h⟩
  · rintro ⟨hi, hw, h⟩
    exact ⟨mem_waiting.2 ⟨hi, Item.isWaiting_of_waitsFor hw⟩, hw, h⟩

theorem mem_scan [DecidableEq T] {s : ItemSet g n} {kind : T} {j : Item} :
    j ∈ s.scan kind ↔
      ∃ i ∈ s, i.waitsForKind g kind = true ∧ j = i.advance ∧ j.isProper g n = true := by
  rw [scan, mem_addAdvanced]
  exact or_iff_right (not_mem_empty j)

theorem mem_expected [DecidableEq T] {s : ItemSet g n} {kind : T} :
    kind ∈ s.expected ↔ ∃ i ∈ s, i.next? g = some (.terminal kind) := by
  simp only [expected, List.mem_eraseDups, List.mem_filterMap, Array.mem_toList_iff, mem_def]
  refine exists_congr fun i => and_congr_right fun _ => ?_
  split <;> simp_all

theorem mem_origins {s : ItemSet g n} {A : N} {origin : Nat} :
    origin ∈ s.origins A ↔ ∃ i ∈ s, i.completes g A = true ∧ i.origin = origin := by
  simp [origins, mem_def, and_assoc]

theorem mem_getD_tableOrigins {items : List Item} {A : N} {origin : Nat} :
    origin ∈ (tableOrigins g items).getD A {} ↔
      ∃ i ∈ items, i.completes g A = true ∧ i.origin = origin := by
  induction items with
  | nil => simp [tableOrigins]
  | cons i items ih =>
    rw [tableOrigins] at ih
    simp only [tableOrigins, List.foldr_cons, List.mem_cons, exists_eq_or_imp, Item.completes,
      decide_eq_true_eq] at ih ⊢
    rw [← ih]
    split
    · rename_i B hB
      simp only [hB, Std.TreeMap.getD_insert, Std.LawfulEqCmp.compare_eq_iff_eq, Option.some.injEq]
      split
      · rename_i h
        subst h
        simp [Std.ExtTreeSet.mem_insert, Std.LawfulEqCmp.compare_eq_iff_eq]
      · simp [*]
    · simp [*]

/-- The table holds for each nonterminal where its recognitions began. -/
theorem getD_tableOrigins (s : ItemSet g n) (A : N) :
    (tableOrigins g s.items.toList).getD A {} = s.origins A := by
  refine Std.ExtTreeSet.ext_mem fun origin => ?_
  simp [mem_getD_tableOrigins, mem_origins, mem_def]

theorem hasCompleted_iff {s : ItemSet g n} {A : N} {origin : Nat} :
    s.hasCompleted A origin = true ↔ ∃ i ∈ s, i.completes g A = true ∧ i.origin = origin := by
  simp [hasCompleted, mem_def, ← Array.any_toList, List.any_eq_true]

end ItemSet

end EarleyForest
