import EarleyForest.Forest.Visits
import EarleyForest.Proofs.Forest.Faultless

/-!
# Pricing by visits, and its errors

The stack of visits does what the recursion of `Forest.price` does. While the recursion stands at
the inner end of a path, the nodes of the path are the ones that are being visited, and the priced
nodes are done (`marksAt`). Working off a stack with the visit of a node on top is to price what is
below that node, and then to work off the rest (`visit_enter_eq`). So the prices and the errors are
the same (`priceByVisits_eq_price`), and an error is reported just if the forest has a cycle or a
nonterminal without alternatives, and names it (`price_faults_exact`).
-/

namespace EarleyForest

variable {T N : Type} [DecidableEq N] [SearchKey N] {g : Grammar T N} {f : Forest g}

namespace Forest

variable {marks : Array Mark} {table table' : Array (Option Price)} {stack : List Visit}
  {id child : NodeId} {path : Std.TreeSet NodeId} {depth : Nat} {p : Price}

/-! ## One visit -/

theorem visit_nil : f.visit marks table [] = .ok (marks, table) := by
  rw [visit]

theorem visit_enter_of_done (h : marks[id]? = some .done) :
    f.visit marks table (.enter id :: stack) = f.visit marks table stack := by
  rw [visit]
  split <;> simp_all

theorem visit_enter_of_unvisited (h : marks[id]? = some .unvisited) :
    f.visit marks table (.enter id :: stack) =
      f.pushChildren (marks.setIfInBounds id .visiting) (f.children id) (.exit id :: stack) >>=
        f.visit (marks.setIfInBounds id .visiting) table := by
  rw [visit]
  split
  · simp_all
  · simp_all
  · dsimp only
    cases f.pushChildren (marks.setIfInBounds id .visiting) (f.children id) (.exit id :: stack) <;>
      rfl
  · simp_all

theorem visit_exit : f.visit marks table (.exit id :: stack) =
    f.priceNode table id >>= fun price =>
      f.visit (marks.setIfInBounds id .done) (table.setIfInBounds id (some price)) stack := by
  rw [visit]
  cases f.priceNode table id <;> rfl

/-! ## The marks on the way -/

/-- The mark of a node while the walk stands at the inner end of `path`. -/
def markAt (path : Std.TreeSet NodeId) (table : Array (Option Price)) (id : NodeId) : Mark :=
  if table[id]?.join.isSome then .done else if id ∈ path then .visiting else .unvisited

theorem markAt_eq_done (hp : table[id]?.join = some p) : markAt path table id = .done := by
  simp [markAt, hp]

theorem markAt_eq_visiting (hnone : table[id]?.join = none) (hmem : id ∈ path) :
    markAt path table id = .visiting := by
  simp [markAt, hnone, hmem]

theorem markAt_eq_unvisited (hnone : table[id]?.join = none) (hnot : id ∉ path) :
    markAt path table id = .unvisited := by
  simp [markAt, hnone, hnot]

/-- The marks of all nodes. -/
def marksAt (f : Forest g) (path : Std.TreeSet NodeId) (table : Array (Option Price)) :
    Array Mark :=
  (Array.range f.size).map (markAt path table)

theorem getElem?_marksAt (hid : id < f.size) :
    (f.marksAt path table)[id]? = some (markAt path table id) := by
  simp [marksAt, hid]

theorem marksAt_replicate : f.marksAt {} (Array.replicate f.size none) =
    Array.replicate f.size .unvisited := by
  apply Array.ext
  · simp [marksAt]
  · intro k hk _
    have hk : k < f.size := by simpa [marksAt] using hk
    simp [marksAt, markAt, hk]

/-- The marks after a step that changes the mark of the node `id` only. -/
theorem marksAt_set {path' : Std.TreeSet NodeId}
    (h : ∀ k ≠ id, markAt path' table' k = markAt path table k) :
    (f.marksAt path table).setIfInBounds id (markAt path' table' id) = f.marksAt path' table' := by
  apply Array.ext_getElem?
  intro k
  by_cases heq : id = k
  · by_cases hk : k < f.size <;> simp [marksAt, heq, hk]
  · by_cases hk : k < f.size <;> simp [marksAt, heq, hk, h k (Ne.symm heq)]

/-- The node that is entered becomes the inner end of the path. -/
theorem marksAt_enter (hnone : table[id]?.join = none) :
    (f.marksAt path table).setIfInBounds id .visiting = f.marksAt (path.insert id) table := by
  rw [← markAt_eq_visiting hnone (mem_insert_iff.2 (.inl rfl)), marksAt_set]
  intro k hk
  simp [markAt, Ne.symm hk]

/-- The node that gets its price leaves the path. -/
theorem marksAt_exit (hid : id < table.size) :
    (f.marksAt (path.insert id) table).setIfInBounds id .done =
      f.marksAt path (table.setIfInBounds id (some p)) := by
  have hp : (table.setIfInBounds id (some p))[id]?.join = some p := by
    simp [hid]
  have hdone : markAt path (table.setIfInBounds id (some p)) id = .done := markAt_eq_done hp
  rw [← hdone, marksAt_set]
  intro k hk
  simp [markAt, Ne.symm hk]

/-! ## The children -/

/-- What is pushed are the children without price, if the path is not met again. -/
theorem pushChildren_eq_ok {children : List NodeId} (hlt : ∀ child ∈ children, child < f.size)
    (hnot : ∀ child ∈ children, child ∉ path) :
    f.pushChildren (f.marksAt path table) children stack =
      .ok ((children.filter fun child => table[child]?.join.isNone).map .enter ++ stack) := by
  rw [pushChildren, List.foldlM_reverse]
  induction children with
  | nil => rfl
  | cons child children ih =>
    rw [List.forall_mem_cons] at hlt hnot
    rw [List.foldrM_cons, ih hlt.2 hnot.2]
    cases hp : table[child]?.join with
    | some p => simp [bind, Except.bind, getElem?_marksAt hlt.1, markAt_eq_done hp, hp]
    | none =>
      simp [bind, Except.bind, getElem?_marksAt hlt.1, markAt_eq_unvisited hp hnot.1, hp]

/-- The cycle that is reported is the last child that is met again. -/
theorem pushChildren_eq_error {children : List NodeId} (hlt : ∀ child ∈ children, child < f.size)
    (hpath : ∀ above ∈ path, table[above]?.join = none)
    (h : children.reverse.find? (fun child => child ∈ path) = some child) :
    f.pushChildren (f.marksAt path table) children stack = .error (.cycle (f.site child)) := by
  rw [pushChildren]
  replace hlt : ∀ child ∈ children.reverse, child < f.size :=
    fun child hc => hlt child (List.mem_reverse.1 hc)
  generalize children.reverse = backwards at h hlt
  induction backwards generalizing stack with
  | nil => cases h
  | cons c children ih =>
    rw [List.forall_mem_cons] at hlt
    rw [List.foldlM_cons, getElem?_marksAt hlt.1]
    by_cases hc : c ∈ path
    · obtain rfl : c = child := by simpa [hc] using h
      simp [bind, Except.bind, markAt_eq_visiting (hpath c hc) hc]
    · have h : children.find? (fun child => child ∈ path) = some child := by simpa [hc] using h
      cases hp : table[c]?.join with
      | some p => simpa [bind, Except.bind, markAt_eq_done hp] using ih h hlt.2
      | none => simpa [bind, Except.bind, markAt_eq_unvisited hp hc] using ih h hlt.2

/-! ## The walk -/

section

variable (hchild : ∀ id, ∀ child ∈ f.children id, child < f.size)
include hchild

/-- To work off the visits of some children, those that had no price when they were pushed, is to
price all of them in turn, if that holds of a single visit. -/
theorem visit_children_eq {pushed : Array (Option Price)} {children : List NodeId}
    (hvisit : ∀ {table stack child}, f.IsWalking depth path table → f.IsNext path child →
      f.visit (f.marksAt path table) table (.enter child :: stack) =
        f.priceFrom depth path table child >>= fun table =>
          f.visit (f.marksAt path table) table stack)
    (hext : Extends pushed table) (hw : f.IsWalking depth path table)
    (hnext : ∀ child ∈ children, f.IsNext path child) :
    f.visit (f.marksAt path table) table
        ((children.filter fun child => pushed[child]?.join.isNone).map .enter ++ stack) =
      children.foldlM (f.priceFrom depth path) table >>= fun table =>
        f.visit (f.marksAt path table) table stack := by
  induction children generalizing table with
  | nil => rfl
  | cons child children ih =>
    rw [List.forall_mem_cons] at hnext
    rw [List.foldlM_cons, bind_assoc]
    cases hp : pushed[child]?.join with
    | some p =>
      -- nothing was pushed for the child, and the recursion finds its price
      obtain ⟨d, rfl⟩ := hw.exists_depth hnext.1
      rw [List.filter_cons_of_neg (by simp [hp]), ih hext hw hnext.2,
        priceFrom_of_priced (hext _ _ hp)]
      rfl
    | none =>
      rw [List.filter_cons_of_pos (by simp [hp]), List.map_cons, List.cons_append,
        hvisit hw hnext.1]
      cases hstep : f.priceFrom depth path table child with
      | error e => rfl
      | ok table' =>
        exact ih (hext.trans (priceFrom_keeps hstep hw.partly).2)
          (hw.of_priceFrom hchild hnext.1 hstep) hnext.2

/-- To work off a stack with the visit of a node on top is to price what is below the node, and to
work off the rest then. -/
theorem visit_enter_eq (hw : f.IsWalking depth path table) (hid : f.IsNext path id) :
    f.visit (f.marksAt path table) table (.enter id :: stack) =
      f.priceFrom depth path table id >>= fun table =>
        f.visit (f.marksAt path table) table stack := by
  induction depth generalizing path table id stack with
  | zero =>
    obtain ⟨d, hd⟩ := hw.exists_depth hid
    cases hd
  | succ depth ih =>
    obtain ⟨p, hp, heq⟩ | ⟨hnone, hx⟩ := f.priceFrom_succ_cases depth path table id
    · have hdone : (f.marksAt path table)[id]? = some .done := by
        rw [getElem?_marksAt hid.lt_size, markAt_eq_done hp]
      rw [visit_enter_of_done hdone, heq]
      rfl
    · have hunvisited : (f.marksAt path table)[id]? = some .unvisited := by
        rw [getElem?_marksAt hid.lt_size, markAt_eq_unvisited hnone hid.not_mem]
      have hw' := hw.insert hid hnone
      rw [visit_enter_of_unvisited hunvisited, marksAt_enter hnone]
      obtain ⟨child, -, -, hfind, heq⟩ | ⟨hnot, heq⟩ := hx
      · rw [pushChildren_eq_error (hchild id) hw'.unpriced hfind, heq]
        rfl
      · have hnext : ∀ child ∈ f.children id, f.IsNext (path.insert id) child :=
          fun child hc => hid.of_child hchild hc (hnot child hc)
        rw [pushChildren_eq_ok (hchild id) hnot, heq, bind_assoc]
        show f.visit (f.marksAt (path.insert id) table) table _ = _
        rw [visit_children_eq hchild ih (fun _ _ hp => hp) hw' hnext]
        cases hbelow : (f.children id).foldlM (f.priceFrom depth (path.insert id)) table with
        | error e => rfl
        | ok below =>
          have hsize := (hw'.of_foldlM hchild hnext hbelow).1.partly.size_eq
          show f.visit (f.marksAt (path.insert id) below) below (.exit id :: stack) = _
          rw [visit_exit]
          show _ = (f.priceNode below id >>= _) >>= _
          rw [bind_assoc]
          cases f.priceNode below id with
          | error e => rfl
          | ok p =>
            show f.visit _ _ stack = f.visit _ _ stack
            rw [marksAt_exit (hsize ▸ hid.lt_size)]

theorem visitFrom_eq (hw : f.IsWalking f.size {} table) (hid : id < f.size) :
    f.visitFrom (f.marksAt {} table, table) id =
      f.priceFrom f.size {} table id >>= fun table => .ok (f.marksAt {} table, table) := by
  rw [visitFrom, getElem?_marksAt hid]
  cases hp : table[id]?.join with
  | some p =>
    obtain ⟨d, hd⟩ := hw.exists_depth (isNext_empty hid)
    rw [markAt_eq_done hp, hd, priceFrom_of_priced hp]
    rfl
  | none =>
    rw [markAt_eq_unvisited hp Std.TreeSet.not_mem_emptyc]
    dsimp only
    rw [visit_enter_eq hchild hw (isNext_empty hid)]
    simp only [visit_nil]

theorem foldlM_visitFrom_eq {ids : List NodeId} (hw : f.IsWalking f.size {} table)
    (hids : ∀ id ∈ ids, id < f.size) :
    ids.foldlM f.visitFrom (f.marksAt {} table, table) =
      ids.foldlM (f.priceFrom f.size {}) table >>= fun table =>
        .ok (f.marksAt {} table, table) := by
  induction ids generalizing table with
  | nil => rfl
  | cons id ids ih =>
    rw [List.forall_mem_cons] at hids
    rw [List.foldlM_cons, List.foldlM_cons, visitFrom_eq hchild hw hids.1, bind_assoc, bind_assoc]
    cases hstep : f.priceFrom f.size {} table id with
    | error e => rfl
    | ok table' => exact ih (hw.of_priceFrom hchild (isNext_empty hids.1) hstep) hids.2

/-- The stack of visits gives the same prices as the recursion, and the same errors. -/
theorem priceByVisits_eq_price : f.priceByVisits = f.price := by
  have hrange : ∀ id ∈ List.range f.size, id < f.size := fun _ => List.mem_range.1
  rw [priceByVisits, ← marksAt_replicate,
    foldlM_visitFrom_eq hchild f.isWalking_replicate hrange, bind_assoc]
  rfl

/-- A forest has prices just if it has no cycle and no nonterminal without alternatives. -/
theorem exists_price_iff : (∃ prices, f.price = .ok prices) ↔
    f.Acyclic ∧ ∀ id A i j, f.node? id ≠ some (.nonterminal A i j []) := by
  constructor
  · intro hx
    obtain ⟨prices, h⟩ := hx
    exact ⟨acyclic_of_wellFounded (wellFounded_children_of_price h),
      fun _ _ _ _ hn => alternatives_ne_nil_of_price h hn rfl⟩
  · intro hx
    exact exists_price_of_acyclic hchild hx.1 hx.2

end

end Forest

/-- Prices are known after they have been asked for, just if there are any. -/
theorem PricedForest.isPriced_price (q : PricedForest g) :
    q.price.2.isPriced = true ↔ ∃ prices, q.forest.price = .ok prices := by
  unfold price
  split
  · rename_i table htable
    simp [isPriced, htable, q.price_eq table htable]
  · rename_i hnone
    split
    · rename_i table h
      simp [isPriced, h]
    · rename_i e h
      simp [isPriced, hnone, h]

/-- The stack of visits comes to an end with what the recursion gives. There are prices just if the
forest has no cycle and no nonterminal without alternatives; else the error names one of these, with
its symbol and its range. Where the prices are kept, they are known after a success only. -/
theorem Forest.price_faults_exact (f : Forest g)
    (hchild : ∀ id, ∀ child ∈ f.children id, child < f.size) :
    f.priceByVisits = f.price ∧
      ((∃ prices, f.price = .ok prices) ↔
        f.Acyclic ∧ ∀ id A i j, f.node? id ≠ some (.nonterminal A i j [])) ∧
      (∀ e, f.price = .error e → f.IsFault e) ∧
      ∀ q : PricedForest g, q.forest = f →
        q.price.1 = f.price ∧ q.price.2.forest = f ∧
          (q.price.2.isPriced = true ↔ ∃ prices, f.price = .ok prices) := by
  refine ⟨priceByVisits_eq_price hchild, exists_price_iff hchild,
    fun _ => isFault_of_price hchild, ?_⟩
  rintro q rfl
  exact ⟨q.price_fst, q.price_snd_forest, q.isPriced_price⟩

/-- A forest made by hand from the rules of `pairs`: `S` derives `A` twice and `A` derives `S`. -/
def knot : Forest pairs :=
  let ((s, _), arena) := Arena.nonterminal {} 'S' 0 1
  let ((a, _), arena) := arena.nonterminal 'A' 0 1
  let (token, arena) := arena.terminal 0
  let arena := arena.pushAlternative s ⟨.ofNat 0, [a, a]⟩
  let arena := arena.pushAlternatives a [⟨.ofNat 1, [token]⟩, ⟨.ofNat 2, [s]⟩]
  { tokens := #[⟨'a', "a", default⟩], arena, root? := some s, chartItems := 0 }

theorem Forest.price_faults_exact_knot :
    (∀ id, ∀ child ∈ knot.children id, child < knot.size) ∧
      knot.priceByVisits = .error (.cycle ⟨0, some 'S', 0, 1⟩) ∧
      knot.IsFault (.cycle ⟨0, some 'S', 0, 1⟩) ∧ ¬ knot.Acyclic := by
  have hrange : knot.InRange := by decide +kernel
  have hprice : knot.price = .error (.cycle ⟨0, some 'S', 0, 1⟩) := by decide +kernel
  have hne : ∀ id A i j, knot.node? id ≠ some (.nonterminal A i j []) := by
    intro id A i j hn
    have hnodes : knot.arena.nodes = #[.nonterminal 'S' 0 1 [⟨.ofNat 0, [1, 1]⟩],
        .nonterminal 'A' 0 1 [⟨.ofNat 1, [2]⟩, ⟨.ofNat 2, [0]⟩], .terminal 0] := by decide +kernel
    rw [Forest.node?, hnodes] at hn
    rcases id with _ | _ | _ | id <;> simp at hn
  obtain ⟨heq, hiff, hfault, -⟩ := price_faults_exact knot hrange.child_lt
  refine ⟨hrange.child_lt, heq.trans hprice, hfault _ hprice, fun hacyclic => ?_⟩
  obtain ⟨prices, h⟩ := hiff.2 ⟨hacyclic, hne⟩
  cases hprice.symm.trans h

end EarleyForest
