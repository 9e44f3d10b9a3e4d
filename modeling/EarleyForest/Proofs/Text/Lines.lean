import EarleyForest.Text.LineScan

/-!
# Lines and columns are exact

`lineStarts` are the ends of the line terminators, all of them and in ascending order
(`mem_lineStarts_iff`, `pairwise_lineStarts`). The scan of the bytes finds the same, because no
character but the line feed and the carriage return has their bytes in it (`ends_scan`). The search
finds the last line that starts at the offset or before (`IsLineAt`), and there is only one such
line. So much is put together in `LineIndex.isExact_ofText`.
-/

namespace EarleyForest

/-! ## Bytes of characters -/

/-- A byte below 128 is a whole character. -/
theorem toNat_eq_of_mem_utf8EncodeChar {c : Char} {byte : UInt8}
    (h : byte ∈ String.utf8EncodeChar c) (hlt : byte.toNat < 128) : byte.toNat = c.toNat := by
  unfold String.utf8EncodeChar at h
  dsimp only at h
  have hc : c.val.toNat = c.toNat := rfl
  rw [hc] at h
  split at h
  · obtain rfl := List.mem_singleton.1 h
    rw [UInt8.toNat_ofNat']
    omega
  split at h
  · simp only [List.mem_cons, List.not_mem_nil, or_false] at h
    rcases h with rfl | rfl <;> rw [UInt8.toNat_ofNat'] at hlt <;> omega
  split at h
  · simp only [List.mem_cons, List.not_mem_nil, or_false] at h
    rcases h with rfl | rfl | rfl <;> rw [UInt8.toNat_ofNat'] at hlt <;> omega
  · simp only [List.mem_cons, List.not_mem_nil, or_false] at h
    rcases h with rfl | rfl | rfl | rfl <;> rw [UInt8.toNat_ofNat'] at hlt <;> omega

theorem eq_lineFeed_of_mem {c : Char} (h : (10 : UInt8) ∈ String.utf8EncodeChar c) : c = '\n' :=
  Char.toNat_inj.1 (toNat_eq_of_mem_utf8EncodeChar h (by decide)).symm

theorem eq_carriageReturn_of_mem {c : Char} (h : (13 : UInt8) ∈ String.utf8EncodeChar c) :
    c = '\r' :=
  Char.toNat_inj.1 (toNat_eq_of_mem_utf8EncodeChar h (by decide)).symm

/-- A carriage return that is not the first half of a terminator has no line feed behind it. -/
theorem head?_ne_lineFeed {c : Char} {cs : List Char}
    (hpair : ∀ rest, c = '\r' → cs = '\n' :: rest → False) (hc : c = '\r') :
    cs.head? ≠ some '\n' := by
  intro hfeed
  obtain ⟨rest, hrest⟩ := List.head?_eq_some_iff.1 hfeed
  exact hpair rest hc hrest

/-- A line feed comes first in the bytes just if it is the first character. -/
theorem head?_eq_lineFeed {cs : List Char}
    (h : (cs.flatMap String.utf8EncodeChar).head? = some 10) : cs.head? = some '\n' := by
  cases cs with
  | nil => cases h
  | cons c cs =>
    rw [List.flatMap_cons] at h
    cases hbytes : String.utf8EncodeChar c with
    | nil =>
      have hsize := String.length_utf8EncodeChar c
      rw [hbytes] at hsize
      exact absurd hsize (Nat.ne_of_lt c.utf8Size_pos)
    | cons byte bytes =>
      rw [hbytes] at h
      obtain rfl := Option.some.inj h
      exact congrArg some (eq_lineFeed_of_mem (hbytes ▸ List.mem_cons_self))

theorem byteLength_eq (cs : List Char) :
    byteLength cs = (cs.flatMap String.utf8EncodeChar).length := by
  induction cs with
  | nil => rfl
  | cons c cs ih => simp [byteLength, ih, String.length_utf8EncodeChar]

theorem byteLength_append (cs cs' : List Char) :
    byteLength (cs ++ cs') = byteLength cs + byteLength cs' := by
  simp [byteLength_eq]

theorem toList_data_toByteArray (text : String) :
    text.toByteArray.data.toList = text.toList.flatMap String.utf8EncodeChar := by
  rw [← String.utf8Encode_toList, List.utf8Encode, List.data_toByteArray]

theorem byteLength_toList (text : String) : byteLength text.toList = text.utf8ByteSize := by
  rw [byteLength_eq, ← toList_data_toByteArray, ← String.size_toByteArray]
  rfl

/-! ## The scan of the bytes -/

section Scan

variable {bytes : Array UInt8} {i : Nat} {starts out : Array TextSize}

theorem getElem?_of_drop {left : List UInt8} (h : bytes.toList.drop i = left) :
    bytes[i]? = left.head? := by
  rw [← Array.getElem?_toList, ← List.head?_drop, h]

theorem drop_succ_of_drop {byte : UInt8} {left : List UInt8}
    (h : bytes.toList.drop i = byte :: left) : bytes.toList.drop (i + 1) = left := by
  rw [← List.tail_drop, h]
  rfl

/-- Bytes that end no line are passed over. -/
theorem ends_scan_skip {skipped rest : List UInt8} (hbytes : bytes.toList.drop i = skipped ++ rest)
    (hskip : ∀ byte ∈ skipped, byte ≠ 10 ∧ byte ≠ 13)
    (h : Ends (scanStep bytes) (i + skipped.length, starts) out) :
    Ends (scanStep bytes) (i, starts) out := by
  induction skipped generalizing i with
  | nil => exact h
  | cons byte skipped ih =>
    rw [List.forall_mem_cons] at hskip
    rw [List.length_cons, Nat.add_comm skipped.length, ← Nat.add_assoc] at h
    refine .next ?_ (ih (drop_succ_of_drop hbytes) hskip.2 h)
    simp [scanStep, getElem?_of_drop hbytes, hskip.1]

/-- The scan finds the line starts behind `i`. -/
theorem ends_scan {cs : List Char} (h : bytes.toList.drop i = cs.flatMap String.utf8EncodeChar)
    (starts : Array TextSize) : Ends (scanStep bytes) (i, starts)
      (starts ++ ((lineStarts i cs).map .ofNat : List TextSize).toArray) := by
  fun_induction lineStarts i cs generalizing starts with
  | case1 i =>
    refine .done ?_
    simp [scanStep, getElem?_of_drop h]
  | case2 i cs ih =>
    replace h : bytes.toList.drop i = 13 :: 10 :: cs.flatMap String.utf8EncodeChar := h
    have hnext := drop_succ_of_drop h
    refine .next ?_ (by simpa using ih (drop_succ_of_drop hnext) (starts.push (.ofNat (i + 2))))
    simp [scanStep, getElem?_of_drop h, getElem?_of_drop hnext]
  | case3 i c cs hpair hc ih =>
    rcases hc with rfl | rfl
    · replace h : bytes.toList.drop i = 10 :: cs.flatMap String.utf8EncodeChar := h
      refine .next ?_ (by simpa using ih (drop_succ_of_drop h) (starts.push (.ofNat (i + 1))))
      simp [scanStep, getElem?_of_drop h]
    · replace h : bytes.toList.drop i = 13 :: cs.flatMap String.utf8EncodeChar := h
      have hnext := drop_succ_of_drop h
      have hlone : bytes[i + 1]? ≠ some 10 := by
        intro hfeed
        rw [getElem?_of_drop hnext] at hfeed
        exact head?_ne_lineFeed hpair rfl (head?_eq_lineFeed hfeed)
      refine .next ?_ (by simpa using ih hnext (starts.push (.ofNat (i + 1))))
      simp [scanStep, getElem?_of_drop h, hlone]
  | case4 i c cs hpair hc ih =>
    rw [List.flatMap_cons] at h
    have hrest : bytes.toList.drop (i + c.utf8Size) = cs.flatMap String.utf8EncodeChar := by
      rw [← List.drop_drop, h, ← String.length_utf8EncodeChar, List.drop_left]
    refine ends_scan_skip h (fun byte hbyte => ⟨?_, ?_⟩) ?_
    · rintro rfl
      exact hc (.inl (eq_lineFeed_of_mem hbyte))
    · rintro rfl
      exact hc (.inr (eq_carriageReturn_of_mem hbyte))
    · rw [String.length_utf8EncodeChar]
      exact ih hrest starts

end Scan

/-! ## The ends of the lines -/

section Ends

variable {front before mark after cs : List Char} {c : Char} {offset stop : Nat}

theorem utf8Size_eq_one (h : c = '\n' ∨ c = '\r') : c.utf8Size = 1 := by
  rcases h with rfl | rfl <;> rfl

theorem IsTerminator.tail (h : IsTerminator (c :: before) mark after) :
    IsTerminator before mark after := by
  cases h with
  | pair => exact .pair before after
  | lineFeed h =>
    refine .lineFeed (fun hlast => h ?_) after
    rw [List.getLast?_cons, hlast]
    rfl
  | carriageReturn _ h => exact .carriageReturn before h

/-- A carriage return without a line feed behind it is no more than a character that ends a line. -/
theorem lineStarts_cons (h : c = '\r' → cs.head? ≠ some '\n') : lineStarts offset (c :: cs) =
    if c = '\n' ∨ c = '\r' then (offset + 1) :: lineStarts (offset + 1) cs
    else lineStarts (offset + c.utf8Size) cs := by
  refine lineStarts.eq_3 offset c cs ?_
  rintro cs' rfl rfl
  exact h rfl rfl

theorem byteLength_append_singleton (front : List Char) (c : Char) :
    byteLength (front ++ [c]) = byteLength front + c.utf8Size := by
  rw [byteLength_append]
  rfl

theorem IsTerminator.single (h : c = '\n' ∨ c = '\r')
    (hbefore : before.getLast? = some '\r' → c ≠ '\n')
    (hafter : c = '\r' → after.head? ≠ some '\n') : IsTerminator before [c] after := by
  rcases h with rfl | rfl
  · exact .lineFeed (fun hlast => hbefore hlast rfl) after
  · exact .carriageReturn before (hafter rfl)

/-- Line starts are ends of terminators, where `front` does not end with the first half of one. -/
theorem endsLine_of_mem_lineStarts (front : List Char) (hoffset : offset = byteLength front)
    (hfront : front.getLast? = some '\r' → cs.head? ≠ some '\n')
    (h : stop ∈ lineStarts offset cs) : EndsLine (front ++ cs) stop := by
  fun_induction lineStarts offset cs generalizing front with
  | case1 => cases h
  | case2 offset cs ih =>
    have hpair : offset + 2 = byteLength (front ++ ['\r', '\n']) := by
      rw [byteLength_append, hoffset]
      rfl
    rcases List.mem_cons.1 h with rfl | h
    · exact ⟨front, ['\r', '\n'], cs, by simp, .pair front cs, hpair⟩
    · simpa using ih (front ++ ['\r', '\n']) hpair (by simp) h
  | case3 offset c cs hpair hc ih =>
    have hnext := head?_ne_lineFeed hpair
    have hsize : offset + 1 = byteLength (front ++ [c]) := by
      rw [byteLength_append_singleton, hoffset, utf8Size_eq_one hc]
    rcases List.mem_cons.1 h with rfl | h
    · exact ⟨front, [c], cs, by simp,
        .single hc (fun hlast heq => hfront hlast (heq ▸ rfl)) hnext, hsize⟩
    · simpa using ih (front ++ [c]) hsize (by simpa using hnext) h
  | case4 offset c cs hpair hc ih =>
    have hsize : offset + c.utf8Size = byteLength (front ++ [c]) := by
      rw [byteLength_append_singleton, hoffset]
    simpa using ih (front ++ [c]) hsize (by simpa using fun hlast => absurd (.inr hlast) hc) h

theorem IsTerminator.head?_ne (h : IsTerminator (c :: before) mark after)
    (hpair : ∀ cs, c = '\r' → before = '\n' :: cs → False) (hc : c = '\r') :
    (before ++ mark ++ after).head? ≠ some '\n' := by
  cases before with
  | cons b before =>
    show (b :: before).head? ≠ some '\n'
    exact head?_ne_lineFeed hpair hc
  | nil =>
    cases h with
    | pair | carriageReturn => simp
    | lineFeed hlast => exact absurd (congrArg some hc) hlast

/-- The end of each terminator is a line start. -/
theorem mem_lineStarts_of_isTerminator (h : IsTerminator before mark after) (offset : Nat) :
    offset + byteLength (before ++ mark) ∈ lineStarts offset (before ++ mark ++ after) := by
  fun_induction lineStarts offset before with
  | case1 offset =>
    cases h with
    | pair => exact List.mem_cons_self
    | lineFeed => exact List.mem_cons_self
    | carriageReturn _ hafter =>
      show offset + 1 ∈ lineStarts offset ('\r' :: after)
      rw [lineStarts_cons fun _ => hafter]
      exact List.mem_cons_self
  | case2 offset before ih =>
    have hmem := ih h.tail.tail
    show offset + (1 + (1 + byteLength (before ++ mark))) ∈
      (offset + 2) :: lineStarts (offset + 2) (before ++ mark ++ after)
    rw [show offset + (1 + (1 + byteLength (before ++ mark))) =
      offset + 2 + byteLength (before ++ mark) by omega]
    exact List.mem_cons_of_mem _ hmem
  | case3 offset c before hpair hc ih =>
    have hmem := ih h.tail
    rw [List.cons_append, List.cons_append, lineStarts_cons (h.head?_ne hpair), if_pos hc,
      byteLength, utf8Size_eq_one hc, ← Nat.add_assoc]
    exact List.mem_cons_of_mem _ hmem
  | case4 offset c before hpair hc ih =>
    rw [List.cons_append, List.cons_append, lineStarts_cons (h.head?_ne hpair), if_neg hc,
      byteLength, ← Nat.add_assoc]
    exact ih h.tail

theorem mem_lineStarts_iff {text : List Char} : stop ∈ lineStarts 0 text ↔ EndsLine text stop := by
  constructor
  · exact endsLine_of_mem_lineStarts [] rfl nofun
  · rintro ⟨before, mark, after, rfl, h, rfl⟩
    simpa using mem_lineStarts_of_isTerminator h 0

/-! ## Line starts ascend -/

theorem lineStarts_within (h : stop ∈ lineStarts offset cs) :
    offset < stop ∧ stop ≤ offset + byteLength cs := by
  fun_induction lineStarts offset cs with
  | case1 => cases h
  | case2 offset cs ih =>
    have hsize : byteLength ('\r' :: '\n' :: cs) = 1 + (1 + byteLength cs) := rfl
    rcases List.mem_cons.1 h with rfl | h
    · omega
    · have := ih h
      omega
  | case3 offset c cs hpair hc ih =>
    have hsize : byteLength (c :: cs) = 1 + byteLength cs := by rw [byteLength, utf8Size_eq_one hc]
    rcases List.mem_cons.1 h with rfl | h
    · omega
    · have := ih h
      omega
  | case4 offset c cs hpair hc ih =>
    have := ih h
    rw [byteLength]
    omega

theorem pairwise_lineStarts (offset : Nat) (cs : List Char) :
    (lineStarts offset cs).Pairwise (· < ·) := by
  fun_induction lineStarts offset cs with
  | case1 => exact .nil
  | case2 offset cs ih => exact .cons (fun stop h => (lineStarts_within h).1) ih
  | case3 offset c cs hpair hc ih => exact .cons (fun stop h => (lineStarts_within h).1) ih
  | case4 offset c cs hpair hc ih => exact ih

theorem length_lineStarts_le (offset : Nat) (cs : List Char) :
    (lineStarts offset cs).length ≤ byteLength cs := by
  fun_induction lineStarts offset cs with
  | case1 => exact Nat.le_refl 0
  | case2 offset cs ih =>
    have hsize : byteLength ('\r' :: '\n' :: cs) = 1 + (1 + byteLength cs) := rfl
    rw [List.length_cons]
    omega
  | case3 offset c cs hpair hc ih =>
    have hsize : byteLength (c :: cs) = 1 + byteLength cs := by rw [byteLength, utf8Size_eq_one hc]
    rw [List.length_cons]
    omega
  | case4 offset c cs hpair hc ih =>
    rw [byteLength]
    omega

end Ends

/-! ## The line of an offset -/

/-- Lines start at 0 and at `ends`. The line number `line` starts at `start`, and is the last that
does not start behind `off`. -/
structure IsLineAt (ends : List Nat) (off line start : Nat) : Prop where
  start_eq : (0 :: ends)[line]? = some start
  le : start ≤ off
  behind : ∀ {k e : Nat}, line < k → (0 :: ends)[k]? = some e → off < e

section Search

variable {ends : List Nat} {starts : Array TextSize} {x : TextSize} {off line start : Nat}

theorem lt_of_getElem? {l : List Nat} (h : l.Pairwise (· < ·)) {i j a b : Nat} (hij : i < j)
    (ha : l[i]? = some a) (hb : l[j]? = some b) : a < b := by
  obtain ⟨hi, rfl⟩ := List.getElem?_eq_some_iff.1 ha
  obtain ⟨hj, rfl⟩ := List.getElem?_eq_some_iff.1 hb
  exact List.pairwise_iff_getElem.1 h i j hi hj hij

namespace IsLineAt

variable (h : IsLineAt ends off line start)
include h

theorem le_length : line ≤ ends.length :=
  Nat.le_of_lt_succ (List.getElem?_eq_some_iff.1 h.start_eq).1

/-- The lines that end at `off` or before are those in front of it. -/
theorem filter_eq (hasc : (0 :: ends).Pairwise (· < ·)) :
    ends.filter (· ≤ off) = ends.take line := by
  have hbefore : (ends.take line).filter (· ≤ off) = ends.take line := by
    refine List.filter_eq_self.2 fun e he => decide_eq_true (Nat.le_trans ?_ h.le)
    obtain ⟨k, hk⟩ := List.mem_iff_getElem?.1 he
    rw [List.getElem?_take] at hk
    split at hk
    · rcases Nat.eq_or_lt_of_le (Nat.succ_le_of_lt ‹k < line›) with rfl | hlt
      · exact Nat.le_of_eq (Option.some.inj (hk.symm.trans h.start_eq))
      · exact Nat.le_of_lt (lt_of_getElem? hasc hlt hk h.start_eq)
    · cases hk
  have hbehind : (ends.drop line).filter (· ≤ off) = [] := by
    refine List.filter_eq_nil_iff.2 fun e he hle => ?_
    obtain ⟨k, hk⟩ := List.mem_iff_getElem?.1 he
    rw [List.getElem?_drop] at hk
    have hlt : off < e := h.behind (Nat.lt_succ_of_le (Nat.le_add_right line k)) hk
    exact Nat.not_le_of_lt hlt (of_decide_eq_true hle)
  calc ends.filter (· ≤ off)
      = (ends.take line ++ ends.drop line).filter (· ≤ off) := by rw [List.take_append_drop]
    _ = ends.take line := by rw [List.filter_append, hbefore, hbehind, List.append_nil]

theorem start_eq_getLast : start = (ends.take line).getLast?.getD 0 := by
  have hstart := h.start_eq
  cases line with
  | zero => exact (Option.some.inj hstart).symm
  | succ line =>
    rw [List.getElem?_cons_succ] at hstart
    simp [List.take_add_one, hstart]

/-- There is one such line. -/
theorem unique {line' start' : Nat} (h' : IsLineAt ends off line' start') :
    line' = line ∧ start' = start := by
  rcases Nat.lt_trichotomy line' line with hlt | rfl | hlt
  · exact absurd (h'.behind hlt h.start_eq) (Nat.not_lt_of_le h.le)
  · exact ⟨rfl, Option.some.inj (h'.start_eq.symm.trans h.start_eq)⟩
  · exact absurd (h.behind hlt h'.start_eq) (Nat.not_lt_of_le h'.le)

/-- Further on the line is a later one, or the same with a later column. -/
theorem lt {off' line' start' : Nat} (h' : IsLineAt ends off' line' start') (hlt : off < off') :
    line < line' ∨ line = line' ∧ off - start < off' - start' := by
  have hle := h.le
  rcases Nat.lt_trichotomy line line' with hline | rfl | hline
  · exact .inl hline
  · obtain rfl := Option.some.inj (h.start_eq.symm.trans h'.start_eq)
    exact .inr ⟨rfl, by omega⟩
  · have := h'.behind hline h.start_eq
    omega

end IsLineAt

theorem getElem?_starts (hstarts : starts.toList.map Saturating.toNat = 0 :: ends) (k : Nat) :
    starts[k]?.map Saturating.toNat = (0 :: ends)[k]? := by
  rw [← hstarts, List.getElem?_map, Array.getElem?_toList]

/-- Every answer of the search points to the line. -/
theorem IsLineAt.eq_of_isAnswer (h : IsLineAt ends x.toNat line start)
    (hstarts : starts.toList.map Saturating.toNat = 0 :: ends) (hasc : (0 :: ends).Pairwise (· < ·))
    {answer : Except Nat Nat} (ha : IsAnswer starts x answer) :
    answer ≠ .error 0 ∧ lineOfAnswer answer = line := by
  obtain ⟨s, hs, rfl⟩ := Option.map_eq_some_iff.1 ((getElem?_starts hstarts line).trans h.start_eq)
  cases ha with
  | @ok i hi =>
    have hi' : (0 :: ends)[i]? = some x.toNat := by rw [← getElem?_starts hstarts, hi]; rfl
    refine ⟨nofun, (h.unique ⟨hi', Nat.le_refl _, fun hk he => ?_⟩).1⟩
    exact lt_of_getElem? hasc hk hi' he
  | @error next hnext hbefore hbehind =>
    have hlt : line < next := Nat.lt_of_not_le fun hle =>
      Nat.not_le_of_lt (Saturating.lt_def.1 (hbehind line s hle hs)) h.le
    have hge : next ≤ line + 1 := Nat.le_of_not_lt fun hgt => by
      have hsome := Array.getElem?_eq_getElem (Nat.lt_of_lt_of_le hgt hnext)
      have hbefore' := Saturating.lt_def.1 (hbefore _ _ hgt hsome)
      have hbehind' := h.behind (Nat.lt_succ_self line)
        ((getElem?_starts hstarts _).symm.trans (congrArg (Option.map Saturating.toNat) hsome))
      omega
    refine ⟨?_, ?_⟩
    · rintro heq
      obtain rfl := Except.error.inj heq
      omega
    · show next - 1 = line
      omega

/-- The search has an answer. -/
theorem IsLineAt.exists_isAnswer (h : IsLineAt ends x.toNat line start)
    (hstarts : starts.toList.map Saturating.toNat = 0 :: ends)
    (hasc : (0 :: ends).Pairwise (· < ·)) : ∃ answer, IsAnswer starts x answer := by
  obtain ⟨s, hs, rfl⟩ := Option.map_eq_some_iff.1 ((getElem?_starts hstarts line).trans h.start_eq)
  have hget {k : Nat} {y : TextSize} (hy : starts[k]? = some y) :
      (0 :: ends)[k]? = some y.toNat := by
    rw [← getElem?_starts hstarts, hy]
    rfl
  rcases Nat.eq_or_lt_of_le h.le with heq | hlt
  · exact ⟨.ok line, .ok (Saturating.ext heq ▸ hs)⟩
  · refine ⟨.error (line + 1), .error (Array.getElem?_eq_some_iff.1 hs).1 (fun k y hk hy => ?_)
      fun k y hk hy => h.behind hk (hget hy)⟩
    rcases Nat.eq_or_lt_of_le (Nat.le_of_lt_succ hk) with rfl | hk
    · cases hs.symm.trans hy
      exact hlt
    · exact Nat.lt_trans (lt_of_getElem? hasc hk (hget hy) h.start_eq) hlt

theorem le_of_getElem? {l : List Nat} (h : l.Pairwise (· ≤ ·)) {i j a b : Nat} (hij : i < j)
    (ha : l[i]? = some a) (hb : l[j]? = some b) : a ≤ b := by
  obtain ⟨hi, rfl⟩ := List.getElem?_eq_some_iff.1 ha
  obtain ⟨hj, rfl⟩ := List.getElem?_eq_some_iff.1 hb
  exact List.pairwise_iff_getElem.1 h i j hi hj hij

/-- The last line that starts at the offset or before is found, also where lines start together. -/
theorem isLineAt_lastLine (hstarts : starts.toList.map Saturating.toNat = 0 :: ends)
    (hasc : (0 :: ends).Pairwise (· ≤ ·)) {low high : Nat} (hlt : low < high)
    (hsize : high ≤ starts.size) (hlow : ∃ start, (0 :: ends)[low]? = some start ∧ start ≤ x.toNat)
    (hhigh : ∀ {k e : Nat}, high ≤ k → (0 :: ends)[k]? = some e → x.toNat < e) :
    ∃ start, IsLineAt ends x.toNat (LineIndex.lastLine starts x low high) start := by
  have hget (k : Nat) (hk : k < starts.size) : (0 :: ends)[k]? = some (starts.getD k 0).toNat := by
    rw [← getElem?_starts hstarts, Array.getD_eq_getD_getElem?, Array.getElem?_eq_getElem hk]
    rfl
  fun_induction LineIndex.lastLine starts x low high with
  | case1 low high hlt' middle hle ih =>
    exact ih (by omega) hsize ⟨_, hget middle (by omega), hle⟩ hhigh
  | case2 low high hlt' middle hle ih =>
    refine ih (by omega) (by omega) hlow fun {k e} hk he => ?_
    have hmiddle : x.toNat < (starts.getD middle 0).toNat := Nat.lt_of_not_le hle
    rcases Nat.eq_or_lt_of_le hk with rfl | hk
    · rw [hget middle (by omega)] at he
      exact Option.some.inj he ▸ hmiddle
    · exact Nat.lt_of_lt_of_le hmiddle (le_of_getElem? hasc hk (hget middle (by omega)) he)
  | case3 low high hle =>
    obtain ⟨start, hstart, hle'⟩ := hlow
    exact ⟨start, hstart, hle', fun hk he => hhigh (by omega) he⟩

end Search

/-! ## The index of a text -/

namespace LineIndex

/-- The index has the lines of `text`, whose terminators end at `ends`. No subtraction goes below
zero in looking up an offset, neither in the answer of the search nor for the column. -/
structure IsExact (index : LineIndex) (text : String) (ends : List Nat) : Prop where
  scanned : Ends (scanStep text.toByteArray.data) (0, #[0]) index.starts
  ascending : ends.Pairwise (· < ·)
  mem_ends_iff : ∀ {stop : Nat}, stop ∈ ends ↔ EndsLine text.toList stop
  lineCount_eq : index.lineCount = ends.length + 1
  lineCol_eq : ∀ offset : TextSize,
    let off := min offset.toNat text.utf8ByteSize
    let before := ends.filter (· ≤ off)
    (index.lineCol offset).line.toNat = before.length ∧
      (index.lineCol offset).column.toNat = off - before.getLast?.getD 0
  searched : ∀ offset : TextSize,
    let x := min offset index.textLength
    (∃ answer, IsAnswer index.starts x answer) ∧
      ∀ answer, IsAnswer index.starts x answer → answer ≠ .error 0 ∧
        lineOfAnswer answer = (index.lineCol offset).line.toNat ∧
        ∃ start, index.starts[lineOfAnswer answer]? = some start ∧ start ≤ x
  increasing : ∀ {a b : TextSize}, a < b → b.toNat ≤ text.utf8ByteSize →
    (index.lineCol a).line < (index.lineCol b).line ∨
      (index.lineCol a).line = (index.lineCol b).line ∧
        (index.lineCol a).column < (index.lineCol b).column
  injective : ∀ {a b : TextSize}, a.toNat ≤ text.utf8ByteSize → b.toNat ≤ text.utf8ByteSize →
    index.lineCol a = index.lineCol b → a = b

variable {text : String} (h : text.utf8ByteSize < 4294967296)

theorem scanned_ofText (text : String) :
    Ends (scanStep text.toByteArray.data) (0, #[0]) (ofText text).starts := by
  have hbytes : text.toByteArray.data.toList.drop 0 = text.toList.flatMap String.utf8EncodeChar :=
    toList_data_toByteArray text
  have hstarts : (ofText text).starts =
      #[0] ++ ((lineStarts 0 text.toList).map .ofNat : List TextSize).toArray := by
    simp [ofText, show (Saturating.ofNat 0 : TextSize) = 0 from rfl]
  exact hstarts ▸ ends_scan hbytes #[0]

theorem pairwise_starts (text : String) : (0 :: lineStarts 0 text.toList).Pairwise (· < ·) :=
  .cons (fun _ hstop => (lineStarts_within hstop).1) (pairwise_lineStarts 0 _)

include h

theorem toNat_starts : (ofText text).starts.toList.map Saturating.toNat =
    0 :: lineStarts 0 text.toList := by
  have hends : (lineStarts 0 text.toList).map (min · 4294967295) = lineStarts 0 text.toList := by
    refine (List.map_congr_left fun stop hstop => ?_).trans (List.map_id _)
    have hle := (lineStarts_within hstop).2
    rw [byteLength_toList] at hle
    exact Nat.min_eq_left (by omega)
  rw [ofText, List.toList_toArray, List.map_map]
  exact congrArg (0 :: ·) hends

theorem toNat_clamp (offset : TextSize) : (min offset (ofText text).textLength).toNat =
    min offset.toNat text.utf8ByteSize := by
  rw [Saturating.toNat_min, ofText, Saturating.toNat_ofNat, byteLength_toList,
    Nat.min_eq_left (Nat.le_of_lt_succ h)]

/-- What is found for an offset. -/
theorem exists_isLineAt (offset : TextSize) :
    ∃ line start, IsLineAt (lineStarts 0 text.toList) (min offset (ofText text).textLength).toNat
        line start ∧
      ((ofText text).lineCol offset).line.toNat = line ∧
      ((ofText text).lineCol offset).column.toNat =
        (min offset (ofText text).textLength).toNat - start := by
  have hstarts := toNat_starts h
  have hsize : (ofText text).starts.size = (lineStarts 0 text.toList).length + 1 := by
    simpa using congrArg List.length hstarts
  let x := min offset (ofText text).textLength
  let line := lastLine (ofText text).starts x 0 (ofText text).starts.size
  obtain ⟨start, hline⟩ : ∃ start, IsLineAt (lineStarts 0 text.toList) x.toNat line start := by
    refine isLineAt_lastLine hstarts ((pairwise_starts text).imp Nat.le_of_lt) (by omega)
      (Nat.le_refl _) ⟨0, rfl, Nat.zero_le _⟩ fun hk he => ?_
    have hlt := (List.getElem?_eq_some_iff.1 he).1
    rw [List.length_cons] at hlt
    omega
  have hclamp : x.toNat = min offset.toNat text.utf8ByteSize := toNat_clamp h offset
  have hlength := length_lineStarts_le 0 text.toList
  rw [byteLength_toList] at hlength
  refine ⟨line, start, hline, ?_, ?_⟩
  · have hle := hline.le_length
    show (UInt32.ofNat (min line 4294967295)).toNat = line
    rw [UInt32.toNat_ofNat']
    omega
  · have hstart : ((ofText text).starts.getD line 0).toNat = start := by
      have hget := (getElem?_starts hstarts line).trans hline.start_eq
      obtain ⟨s, hs, rfl⟩ := Option.map_eq_some_iff.1 hget
      rw [Array.getD_eq_getD_getElem?, hs]
      rfl
    show (UInt32.ofNat (x.toNat - ((ofText text).starts.getD line 0).toNat)).toNat = x.toNat - start
    rw [UInt32.toNat_ofNat', hstart]
    omega

/-- Further on comes a later line, or the same line and a later column. -/
theorem lineCol_increasing {a b : TextSize} (hlt : a < b) (hb : b.toNat ≤ text.utf8ByteSize) :
    ((ofText text).lineCol a).line < ((ofText text).lineCol b).line ∨
      ((ofText text).lineCol a).line = ((ofText text).lineCol b).line ∧
        ((ofText text).lineCol a).column < ((ofText text).lineCol b).column := by
  obtain ⟨line, start, hline, hl, hc⟩ := exists_isLineAt h a
  obtain ⟨line', start', hline', hl', hc'⟩ := exists_isLineAt h b
  have hoff : (min a (ofText text).textLength).toNat < (min b (ofText text).textLength).toNat := by
    have := Saturating.lt_def.1 hlt
    rw [toNat_clamp h, toNat_clamp h]
    omega
  rw [UInt32.lt_iff_toNat_lt, UInt32.lt_iff_toNat_lt, ← UInt32.toNat_inj, hl, hl', hc, hc']
  exact hline.lt hline' hoff

theorem lineCol_ne {a b : TextSize} (hlt : a < b) (hb : b.toNat ≤ text.utf8ByteSize) :
    (ofText text).lineCol a ≠ (ofText text).lineCol b := by
  intro heq
  rcases lineCol_increasing h hlt hb with hl | ⟨-, hc⟩
  · exact UInt32.lt_irrefl _ (heq ▸ hl)
  · exact UInt32.lt_irrefl _ (heq ▸ hc)

/-- Lines and columns are exact. -/
theorem isExact_ofText : (ofText text).IsExact text (lineStarts 0 text.toList) := by
  have hasc := pairwise_starts text
  have hstarts := toNat_starts h
  refine {
    scanned := scanned_ofText text
    ascending := pairwise_lineStarts 0 _
    mem_ends_iff := mem_lineStarts_iff
    lineCount_eq := by simpa [lineCount] using congrArg List.length hstarts
    lineCol_eq := fun offset => ?lineCol_eq
    searched := fun offset => ?searched
    increasing := lineCol_increasing h
    injective := fun {a b} ha hb heq => ?injective }
  case lineCol_eq =>
    obtain ⟨line, start, hline, hl, hc⟩ := exists_isLineAt h offset
    rw [toNat_clamp h] at hline hc
    have hfilter := hline.filter_eq hasc
    intro off before
    have hbefore : before = (lineStarts 0 text.toList).take line := hfilter
    rw [hbefore, hl, hc, List.length_take, Nat.min_eq_left hline.le_length,
      ← hline.start_eq_getLast]
    exact ⟨rfl, rfl⟩
  case searched =>
    obtain ⟨line, start, hline, hl, -⟩ := exists_isLineAt h offset
    refine ⟨hline.exists_isAnswer hstarts hasc, fun answer hanswer => ?_⟩
    obtain ⟨hne, hanswer⟩ := hline.eq_of_isAnswer hstarts hasc hanswer
    refine ⟨hne, hanswer.trans hl.symm, ?_⟩
    obtain ⟨s, hs, rfl⟩ :=
      Option.map_eq_some_iff.1 ((getElem?_starts hstarts line).trans hline.start_eq)
    exact ⟨s, hanswer ▸ hs, hline.le⟩
  case injective =>
    rcases Nat.lt_trichotomy a.toNat b.toNat with hlt | hab | hlt
    · exact absurd heq (lineCol_ne h (Saturating.lt_def.2 hlt) hb)
    · exact Saturating.ext hab
    · exact absurd heq.symm (lineCol_ne h (Saturating.lt_def.2 hlt) ha)

omit h in
/-- A carriage return, a carriage return with a line feed, and a line feed at the end. -/
theorem isExact_ofText_mixed : "a\r\r\nb\n".utf8ByteSize < 4294967296 ∧
    (ofText "a\r\r\nb\n").IsExact "a\r\r\nb\n" [2, 4, 6] := by
  have hsize : "a\r\r\nb\n".utf8ByteSize < 4294967296 := by decide
  have hends : lineStarts 0 "a\r\r\nb\n".toList = [2, 4, 6] := by decide +kernel
  exact ⟨hsize, hends ▸ isExact_ofText hsize⟩

end LineIndex

end EarleyForest
