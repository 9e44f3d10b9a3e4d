import EarleyForest.Proofs.Text.Lines

/-!
# Positions counted from one

Offsets, line starts and the length of a text stop at the largest 32-bit word, and lines and columns
are words that are counted from zero first. To count them from one is a sum of words, which may
wrap around. In a text of that length, the offset at its end is the largest word; the line that is
found there is the last one (`IsLineAt.eq_length`), which starts at 0 or not, and so its column is
the largest word just if it is the only line (`lineCol_eq_limit_iff`). The exact condition is
`LineIndex.isOneBased_iff`.
-/

namespace EarleyForest

/-- The span has the line and the column of `position`, counted from one. -/
def Span.IsOneBased (s : Span) (position : LineCol) : Prop :=
  s.line.toNat = position.line.toNat + 1 ∧ s.column.toNat = position.column.toNat + 1

/-- A word can be counted from one unless it is the largest. -/
theorem toNat_add_one_iff {a : UInt32} : (a + 1).toNat = a.toNat + 1 ↔ a.toNat ≠ 4294967295 := by
  have hlt := a.toNat_lt
  rw [UInt32.toNat_add, UInt32.toNat_one]
  omega

/-! ## Ends of lines that stop at the largest word -/

/-- The terminators in front of one take a byte each. -/
theorem succ_le_of_getElem? {ends : List Nat} (h : (0 :: ends).Pairwise (· < ·)) {k stop : Nat}
    (hk : ends[k]? = some stop) : k + 1 ≤ stop := by
  induction k generalizing stop with
  | zero => exact lt_of_getElem? h Nat.zero_lt_one rfl hk
  | succ k ih =>
    obtain ⟨hlt, -⟩ := List.getElem?_eq_some_iff.1 hk
    have hprevious := List.getElem?_eq_getElem (Nat.lt_of_succ_lt hlt)
    have hle := ih hprevious
    have hstep : ends[k] < stop := lt_of_getElem? h (Nat.lt_succ_self (k + 1)) hprevious hk
    omega

section Limit

variable {ends : List Nat} {line start : Nat}

/-- At the largest word all lines have started. -/
theorem IsLineAt.eq_length (h : IsLineAt (ends.map (min · 4294967295)) 4294967295 line start) :
    line = ends.length := by
  have hle := h.le_length
  rw [List.length_map] at hle
  rcases Nat.lt_or_eq_of_le hle with hlt | heq
  · obtain ⟨k, hk⟩ : ∃ k, ends.length = k + 1 := ⟨ends.length - 1, by omega⟩
    have hget : (0 :: ends.map (min · 4294967295))[k + 1]? = some (min ends[k] 4294967295) := by
      simp [hk]
    have hbehind := h.behind (by omega) hget
    omega
  · exact heq

/-- The line at the largest word starts at 0 just if it is the only one. -/
theorem IsLineAt.start_eq_zero_iff (hasc : (0 :: ends).Pairwise (· < ·))
    (h : IsLineAt (ends.map (min · 4294967295)) 4294967295 line start) : start = 0 ↔ ends = [] := by
  obtain rfl := h.eq_length
  have hstart := h.start_eq
  rcases List.eq_nil_or_concat ends with rfl | ⟨front, stop, rfl⟩
  · simpa using hstart.symm
  · have hpos := succ_le_of_getElem? hasc
      (show (front.concat stop)[front.length]? = some stop by simp)
    simp only [List.concat_eq_append, List.length_append, List.length_singleton] at hstart
    have heq : start = min stop 4294967295 := by simpa using hstart.symm
    simp only [List.concat_eq_append, List.append_eq_nil_iff, List.cons_ne_nil, and_false,
      iff_false]
    omega

/-- Fewer lines start in front of an offset than it has bytes in front of it. -/
theorem IsLineAt.line_le {off : Nat} (hasc : (0 :: ends).Pairwise (· < ·))
    (h : IsLineAt (ends.map (min · 4294967295)) off line start) : min line 4294967295 ≤ off := by
  have hstart := h.start_eq
  have hle := h.le
  cases line with
  | zero => omega
  | succ k =>
    rw [List.getElem?_cons_succ, List.getElem?_map] at hstart
    obtain ⟨stop, hstop, rfl⟩ := Option.map_eq_some_iff.1 hstart
    have hk := succ_le_of_getElem? hasc hstop
    omega

end Limit

namespace LineIndex

/-! ## What is found for an offset -/

theorem toNat_starts_saturated (text : String) : (ofText text).starts.toList.map Saturating.toNat =
    0 :: (lineStarts 0 text.toList).map (min · 4294967295) := by
  rw [ofText, List.toList_toArray, List.map_map, List.map_cons]
  rfl

theorem toNat_clamp_saturated (text : String) (offset : TextSize) :
    (min offset (ofText text).textLength).toNat = min offset.toNat text.utf8ByteSize := by
  have hle := offset.toNat_le
  rw [Saturating.toNat_min, ofText, Saturating.toNat_ofNat, byteLength_toList]
  omega

theorem exists_isLineAt_saturated (text : String) (offset : TextSize) :
    ∃ line start, IsLineAt ((lineStarts 0 text.toList).map (min · 4294967295))
        (min offset.toNat text.utf8ByteSize) line start ∧
      ((ofText text).lineCol offset).line.toNat = min line 4294967295 ∧
      ((ofText text).lineCol offset).column.toNat =
        min offset.toNat text.utf8ByteSize - start := by
  have hstarts := toNat_starts_saturated text
  have hclamp := toNat_clamp_saturated text offset
  have hsize : (ofText text).starts.size = (lineStarts 0 text.toList).length + 1 := by
    simpa using congrArg List.length hstarts
  have hasc : (0 :: (lineStarts 0 text.toList).map (min · 4294967295)).Pairwise (· ≤ ·) := by
    refine List.Pairwise.cons (fun _ _ => Nat.zero_le _) (List.pairwise_map.2 ?_)
    refine (pairwise_lineStarts 0 text.toList).imp ?_
    intro a b hlt
    omega
  let x := min offset (ofText text).textLength
  let line := lastLine (ofText text).starts x 0 (ofText text).starts.size
  obtain ⟨start, hline⟩ : ∃ start, IsLineAt ((lineStarts 0 text.toList).map (min · 4294967295))
      x.toNat line start := by
    refine isLineAt_lastLine hstarts hasc (by omega) (Nat.le_refl _) ⟨0, rfl, Nat.zero_le _⟩ ?_
    intro k e hk he
    have hlt := (List.getElem?_eq_some_iff.1 he).1
    rw [List.length_cons, List.length_map] at hlt
    omega
  replace hline := hclamp ▸ hline
  refine ⟨line, start, hline, ?_, ?_⟩
  · show (UInt32.ofNat (min line 4294967295)).toNat = min line 4294967295
    rw [UInt32.toNat_ofNat']
    omega
  · have hstart : ((ofText text).starts.getD line 0).toNat = start := by
      have hget := (getElem?_starts hstarts line).trans hline.start_eq
      obtain ⟨s, hs, rfl⟩ := Option.map_eq_some_iff.1 hget
      rw [Array.getD_eq_getD_getElem?, hs]
      rfl
    have hle := offset.toNat_le
    show (UInt32.ofNat (x.toNat - ((ofText text).starts.getD line 0).toNat)).toNat = _
    rw [UInt32.toNat_ofNat', hstart, hclamp]
    omega

/-- Where the line or the column is the largest word. -/
theorem lineCol_eq_limit_iff (text : String) (offset : TextSize) :
    ((ofText text).lineCol offset).line.toNat = 4294967295 ∨
        ((ofText text).lineCol offset).column.toNat = 4294967295 ↔
      offset.toNat = 4294967295 ∧ 4294967295 ≤ text.utf8ByteSize ∧
        (lineStarts 0 text.toList = [] ∨ 4294967295 ≤ (lineStarts 0 text.toList).length) := by
  have hasc := pairwise_starts text
  have hle := offset.toNat_le
  obtain ⟨line, start, hline, hl, hc⟩ := exists_isLineAt_saturated text offset
  rw [hl, hc]
  by_cases hoff : min offset.toNat text.utf8ByteSize = 4294967295
  · rw [hoff] at hline ⊢
    have hlast := hline.eq_length
    have hzero := hline.start_eq_zero_iff hasc
    have hcolumn : 4294967295 - start = 4294967295 ↔ lineStarts 0 text.toList = [] := by
      rw [← hzero]
      omega
    have hend : offset.toNat = 4294967295 ∧ 4294967295 ≤ text.utf8ByteSize := by omega
    rw [hcolumn, hlast, or_comm, and_iff_right hend.1, and_iff_right hend.2]
    exact or_congr_right (by omega)
  · have hfirst := hline.line_le hasc
    have hstart := hline.le
    constructor
    · intro hlimit
      omega
    · intro hend
      omega

/-! ## Counting from one -/

/-- In a text that has so many bytes the last position does not fit in a word, counted from one: it
has one line only, or so many lines. -/
def Overflows (text : String) : Prop :=
  4294967295 ≤ text.utf8ByteSize ∧
    (lineStarts 0 text.toList = [] ∨ 4294967295 ≤ (lineStarts 0 text.toList).length)

theorem isOneBased_point_iff (text : String) (offset : TextSize) (range : TextRange) :
    let position := (ofText text).lineCol offset
    (⟨range, position.line + 1, position.column + 1⟩ : Span).IsOneBased position ↔
      ¬ (offset.toNat = 4294967295 ∧ Overflows text) := by
  intro position
  rw [Overflows, ← lineCol_eq_limit_iff, not_or]
  exact and_congr toNat_add_one_iff toNat_add_one_iff

theorem isOneBased_span_iff (text : String) (start stop : Nat) :
    ((ofText text).span start stop).IsOneBased ((ofText text).lineCol (.ofNat start)) ↔
      ¬ (4294967295 ≤ start ∧ Overflows text) := by
  have hstart : (Saturating.ofNat start : TextSize).toNat = 4294967295 ↔ 4294967295 ≤ start := by
    rw [Saturating.toNat_ofNat]
    omega
  rw [← hstart]
  exact isOneBased_point_iff text (.ofNat start) _

theorem isOneBased_endSpan_iff (text : String) :
    (ofText text).endSpan.IsOneBased ((ofText text).lineCol (ofText text).textLength) ↔
      ¬ Overflows text := by
  refine (isOneBased_point_iff text (ofText text).textLength _).trans (not_congr ?_)
  refine and_iff_right_of_imp fun hover => ?_
  have hbytes := hover.1
  rw [← byteLength_toList] at hbytes
  show min (byteLength text.toList) 4294967295 = 4294967295
  omega

/-- Positions can be counted from one except at the end of a text that has 2^32 - 1 bytes or more,
and either no line terminator or 2^32 - 1 of them or more. Where checked sums of words stop, the
ones here wrap around. That so many terminators are too many holds of the line that `lastLine`
finds, the last of all that start at the largest word; a binary search may find another one of these,
and that one may have a smaller number. A text without terminators has one line only, so nothing is
left open there. -/
theorem isOneBased_iff (text : String) (start stop : Nat) :
    let index := ofText text
    let ends := lineStarts 0 text.toList
    (ends.Pairwise (· < ·) ∧ ∀ stop, stop ∈ ends ↔ EndsLine text.toList stop) ∧
      (Overflows text ↔
        4294967295 ≤ text.utf8ByteSize ∧ (ends = [] ∨ 4294967295 ≤ ends.length)) ∧
      ((index.span start stop).IsOneBased (index.lineCol (.ofNat start)) ↔
        ¬ (4294967295 ≤ start ∧ Overflows text)) ∧
      (index.endSpan.IsOneBased (index.lineCol index.textLength) ↔ ¬ Overflows text) := by
  intro index ends
  exact ⟨⟨pairwise_lineStarts 0 _, fun _ => mem_lineStarts_iff⟩, Iff.rfl,
    isOneBased_span_iff text start stop, isOneBased_endSpan_iff text⟩

/-! ## A text of one line -/

theorem lineStarts_replicate (n offset : Nat) : lineStarts offset (List.replicate n 'a') = [] := by
  induction n generalizing offset with
  | zero => rfl
  | succ n ih =>
    have hlone : 'a' = '\r' → (List.replicate n 'a').head? ≠ some '\n' := fun h =>
      absurd h (by decide)
    rw [List.replicate_succ, lineStarts_cons hlone, if_neg (by decide)]
    exact ih _

theorem utf8ByteSize_replicate (n : Nat) :
    (String.ofList (List.replicate n 'a')).utf8ByteSize = n := by
  rw [← byteLength_toList, String.toList_ofList]
  induction n with
  | zero => rfl
  | succ n ih =>
    rw [List.replicate_succ, byteLength, ih]
    exact Nat.add_comm 1 n

theorem overflows_replicate {n : Nat} (h : 4294967295 ≤ n) :
    Overflows (String.ofList (List.replicate n 'a')) := by
  refine ⟨Nat.le_trans h (Nat.le_of_eq (utf8ByteSize_replicate n).symm), .inl ?_⟩
  rw [String.toList_ofList]
  exact lineStarts_replicate n 0

/-- At the end of a text of 2^32 - 1 letters the column wraps around. -/
theorem not_isOneBased_oneLine :
    let index := ofText (String.ofList (List.replicate 4294967295 'a'))
    ¬ (index.span 4294967295 4294967295).IsOneBased (index.lineCol (.ofNat 4294967295)) ∧
      ¬ index.endSpan.IsOneBased (index.lineCol index.textLength) := by
  intro index
  have hover := overflows_replicate (Nat.le_refl 4294967295)
  constructor
  · rw [isOneBased_span_iff]
    exact fun h => h ⟨Nat.le_refl _, hover⟩
  · rw [isOneBased_endSpan_iff]
    exact fun h => h hover

end LineIndex

end EarleyForest
