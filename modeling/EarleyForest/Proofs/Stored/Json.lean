import EarleyForest.Stored.Json
import Mathlib.Data.List.TakeWhile

/-!
# Reading JSON text back

A tree whose numbers are naturals and whose strings need no escapes is read back from its text
(`read_write`). Inside a text the reader takes a value just up to where it ends (`readValue_write`);
a number ends there because what follows cannot go on with it.
-/

namespace EarleyForest

namespace Json

variable {n fuel : Nat} {c : Char} {cs body rest : List Char} {items : List Json}
  {fields : List (List Char × Json)} {j : Json}

/-- Text that stands in a string as it is. -/
def IsPlain (body : List Char) : Prop := ∀ c ∈ body, c ≠ '"' ∧ c ≠ '\\' ∧ ¬ c < ' '

/-- Trees whose numbers are naturals and whose strings are plain. -/
inductive IsWritten : Json → Prop where
  | null : IsWritten .null
  | bool (b : Bool) : IsWritten (.bool b)
  | number (n : Nat) : IsWritten (.number (Nat.toDigits 10 n))
  | string {body : List Char} (h : IsPlain body) : IsWritten (.string body)
  | array {items : List Json} (h : ∀ item ∈ items, IsWritten item) : IsWritten (.array items)
  | object {fields : List (List Char × Json)} (hkeys : ∀ f ∈ fields, IsPlain f.1)
    (h : ∀ f ∈ fields, IsWritten f.2) : IsWritten (.object fields)

/-! ## Strings -/

theorem readString_append (h : IsPlain body) (rest : List Char) :
    readString (body ++ '"' :: rest) = some (body, rest) := by
  induction body with
  | nil => rfl
  | cons c body ih =>
    obtain ⟨⟨hquote, hescape, hcontrol⟩, h⟩ := List.forall_mem_cons.1 h
    rw [List.cons_append, readString.eq_def]
    split
    · cases ‹c :: _ = []›
    · exact absurd (List.head_eq_of_cons_eq ‹_›) hquote
    · exact absurd (List.head_eq_of_cons_eq ‹_›) hescape
    · exact absurd (List.head_eq_of_cons_eq ‹_›) hescape
    · rename_i heq
      obtain ⟨rfl, rfl⟩ := List.cons_eq_cons.1 heq
      simp [hescape, hcontrol, ih h]

/-! ## Numbers -/

theorem exists_toDigits_eq_cons (hn : 0 < n) : ∃ c cs, Nat.toDigits 10 n = c :: cs ∧ c ≠ '0' := by
  induction n using Nat.strongRecOn with
  | ind n ih =>
    rcases Nat.lt_or_ge n 10 with hlt | hge
    · refine ⟨_, [], Nat.toDigits_of_lt_base hlt, ?_⟩
      rw [ne_eq, Nat.digitChar_eq_zero]
      omega
    · obtain ⟨c, cs, heq, hc⟩ := ih (n / 10) (by omega) (by omega)
      exact ⟨c, _, by rw [Nat.toDigits_of_base_le (by decide) hge, heq]; rfl, hc⟩

theorem isDigit_of_mem_toDigits (hc : c ∈ Nat.toDigits 10 n) : c.isDigit = true :=
  Nat.isDigit_of_mem_toDigits (by decide) (by decide) hc

/-- No value but a number begins with a digit. -/
theorem ne_of_isDigit (hc : c.isDigit = true) (c' : Char) (hc' : c'.isDigit = false) : c ≠ c' := by
  rintro rfl
  rw [hc] at hc'
  cases hc'

/-- Decimal digits are a number, whatever their value. -/
theorem isNumber_toDigits (n : Nat) : isNumber (Nat.toDigits 10 n) = true := by
  rcases Nat.eq_zero_or_pos n with rfl | hn
  · decide
  · obtain ⟨c, cs, heq, hc⟩ := exists_toDigits_eq_cons hn
    have hdigits : ∀ d ∈ c :: cs, d.isDigit = true := fun d hd =>
      isDigit_of_mem_toDigits (heq ▸ hd)
    obtain ⟨hdigit, hdigits⟩ := List.forall_mem_cons.1 hdigits
    have hminus : c ≠ '-' := ne_of_isDigit hdigit '-' rfl
    have hrest : cs.dropWhile Char.isDigit = [] := List.dropWhile_eq_nil_iff.2 hdigits
    rw [heq]
    simp [isNumber, isUnsigned, hminus, hdigit, hrest, isFraction, isExponent]

/-- What follows cannot go on with a number. -/
def EndsNumber (rest : List Char) : Prop := ∀ c ∈ rest.head?, isNumberChar c = false

theorem readNumber_append (n : Nat) (h : EndsNumber rest) :
    readNumber (Nat.toDigits 10 n ++ rest) = some (.number (Nat.toDigits 10 n), rest) := by
  have hdigits : ∀ c ∈ Nat.toDigits 10 n, isNumberChar c = true := fun c hc => by
    simp [isNumberChar, isDigit_of_mem_toDigits hc]
  have hrest : rest.takeWhile isNumberChar = [] ∧ rest.dropWhile isNumberChar = rest := by
    cases rest with
    | nil => exact ⟨rfl, rfl⟩
    | cons c rest =>
      have hc : isNumberChar c = false := h c rfl
      simp [hc]
  simp [readNumber, List.takeWhile_append_of_pos hdigits, List.dropWhile_append_of_pos hdigits,
    hrest, isNumber_toDigits]

/-! ## Values -/

theorem skipSpace_cons (hc : isSpace c = false) (cs : List Char) :
    skipSpace (c :: cs) = c :: cs := by
  simp [skipSpace, hc]

/-- The text of a tree begins with no blank, and not as an array ends. -/
theorem IsWritten.exists_write_eq (h : IsWritten j) :
    ∃ c cs, write j = c :: cs ∧ isSpace c = false ∧ c ≠ ']' := by
  cases h with
  | null => exact ⟨_, _, rfl, by decide, by decide⟩
  | bool b => cases b <;> exact ⟨_, _, rfl, by decide, by decide⟩
  | number n =>
    obtain ⟨c, cs, heq⟩ := List.exists_cons_of_ne_nil (Nat.toDigits_ne_nil (n := n) (b := 10))
    have hc : c.isDigit = true := isDigit_of_mem_toDigits (n := n) (heq ▸ List.mem_cons_self)
    refine ⟨c, cs, heq, ?_, ne_of_isDigit hc ']' rfl⟩
    simp [isSpace, ne_of_isDigit hc ' ' rfl, ne_of_isDigit hc '\n' rfl,
      ne_of_isDigit hc '\t' rfl, ne_of_isDigit hc '\r' rfl]
  | string => exact ⟨_, _, rfl, by decide, by decide⟩
  | array => exact ⟨_, _, rfl, by decide, by decide⟩
  | object => exact ⟨_, _, rfl, by decide, by decide⟩

theorem readValue_number (n fuel : Nat) (h : EndsNumber rest) :
    readValue (fuel + 1) (Nat.toDigits 10 n ++ rest) =
      some (.number (Nat.toDigits 10 n), rest) := by
  rw [← readNumber_append n h]
  obtain ⟨c, cs, heq, hspace, -⟩ := (IsWritten.number n).exists_write_eq
  rw [write] at heq
  have hc : c.isDigit = true := isDigit_of_mem_toDigits (n := n) (heq ▸ List.mem_cons_self)
  rw [heq, List.cons_append, readValue, skipSpace_cons hspace]
  have hne (c' : Char) (hc' : c'.isDigit = false) := ne_of_isDigit hc c' hc'
  split
  · cases hne 'n' rfl (List.head_eq_of_cons_eq ‹_›)
  · cases hne 't' rfl (List.head_eq_of_cons_eq ‹_›)
  · cases hne 'f' rfl (List.head_eq_of_cons_eq ‹_›)
  · cases hne '"' rfl (List.head_eq_of_cons_eq ‹_›)
  · cases hne '[' rfl (List.head_eq_of_cons_eq ‹_›)
  · cases hne '\x7b' rfl (List.head_eq_of_cons_eq ‹_›)
  · rfl

/-- Wherever the text of the value stands, the reader takes just that. -/
def IsTaken (j : Json) : Prop := ∀ (fuel : Nat) (rest : List Char),
  2 * (write j).length + 1 ≤ fuel → EndsNumber rest →
    readValue fuel (write j ++ rest) = some (j, rest)

theorem writeItems_cons_cons (item next : Json) (items : List Json) :
    writeItems (item :: next :: items) = write item ++ ',' :: writeItems (next :: items) := by
  rw [writeItems]
  exact nofun

theorem writeFields_cons_cons (f next : List Char × Json) (fields : List (List Char × Json)) :
    writeFields (f :: next :: fields) =
      '"' :: (f.1 ++ '"' :: ':' :: (write f.2 ++ ',' :: writeFields (next :: fields))) := by
  rw [writeFields]
  exact nofun

theorem IsWritten.exists_writeItems_eq {item : Json} (h : IsWritten item) (items : List Json) :
    ∃ c cs, writeItems (item :: items) = c :: cs ∧ isSpace c = false ∧ c ≠ ']' := by
  obtain ⟨c, cs, heq, hc⟩ := h.exists_write_eq
  cases items with
  | nil => exact ⟨c, cs, by rw [writeItems, heq], hc⟩
  | cons next items => exact ⟨c, _, by rw [writeItems_cons_cons, heq]; rfl, hc⟩

theorem exists_writeFields_eq (f : List Char × Json) (fields : List (List Char × Json)) :
    ∃ cs, writeFields (f :: fields) = '"' :: cs := by
  cases fields with
  | nil => exact ⟨_, rfl⟩
  | cons next fields => exact ⟨_, writeFields_cons_cons f next fields⟩

theorem endsNumber_cons (hc : isNumberChar c = false) (cs : List Char) : EndsNumber (c :: cs) := by
  simp [EndsNumber, hc]

/-- The items of an array are taken, up to the closing bracket. -/
theorem readItems_append (hne : items ≠ []) (hitems : ∀ item ∈ items, IsTaken item)
    (fuel : Nat) (hfuel : 2 * (writeItems items).length + 2 ≤ fuel) (rest : List Char) :
    readItems fuel (writeItems items ++ ']' :: rest) = some (items, rest) := by
  induction items generalizing fuel with
  | nil => exact absurd rfl hne
  | cons item items ih =>
    obtain ⟨hitem, hitems⟩ := List.forall_mem_cons.1 hitems
    obtain ⟨fuel, rfl⟩ : ∃ k, fuel = k + 1 := ⟨fuel - 1, by omega⟩
    cases items with
    | nil =>
      rw [writeItems] at hfuel ⊢
      rw [readItems, hitem fuel _ (by omega) (endsNumber_cons rfl rest)]
      rfl
    | cons next items =>
      rw [writeItems_cons_cons, List.length_append, List.length_cons] at hfuel
      rw [writeItems_cons_cons, List.append_assoc, List.cons_append, readItems,
        hitem fuel _ (by omega) (endsNumber_cons rfl _)]
      have hrest := ih (List.cons_ne_nil next items) hitems fuel (by omega)
      simp only [skipSpace_cons (c := ',') rfl, hrest, Option.map_some]

/-- The fields of an object are taken, up to the closing brace. -/
theorem readFields_append (hne : fields ≠ []) (hkeys : ∀ f ∈ fields, IsPlain f.1)
    (hvalues : ∀ f ∈ fields, IsTaken f.2) (fuel : Nat)
    (hfuel : 2 * (writeFields fields).length + 2 ≤ fuel) (rest : List Char) :
    readFields fuel (writeFields fields ++ '\x7d' :: rest) = some (fields, rest) := by
  induction fields generalizing fuel with
  | nil => exact absurd rfl hne
  | cons f fields ih =>
    obtain ⟨key, value⟩ := f
    obtain ⟨hkey, hkeys⟩ := List.forall_mem_cons.1 hkeys
    obtain ⟨hvalue, hvalues⟩ := List.forall_mem_cons.1 hvalues
    replace hvalue : IsTaken value := hvalue
    obtain ⟨fuel, rfl⟩ : ∃ k, fuel = k + 1 := ⟨fuel - 1, by omega⟩
    cases fields with
    | nil =>
      simp only [writeFields, List.length_cons, List.length_append] at hfuel
      simp only [writeFields, List.cons_append, List.append_assoc, readFields,
        skipSpace_cons (c := '"') rfl, readString_append hkey, skipSpace_cons (c := ':') rfl]
      rw [hvalue fuel _ (by omega) (endsNumber_cons rfl rest)]
      rfl
    | cons next fields =>
      simp only [writeFields_cons_cons, List.length_cons, List.length_append] at hfuel
      simp only [writeFields_cons_cons, List.cons_append, List.append_assoc, readFields,
        skipSpace_cons (c := '"') rfl, readString_append hkey, skipSpace_cons (c := ':') rfl]
      rw [hvalue fuel _ (by omega) (endsNumber_cons rfl _)]
      have hrest := ih (List.cons_ne_nil next fields) hkeys hvalues fuel (by omega)
      simp only [skipSpace_cons (c := ',') rfl, hrest, Option.map_some]

theorem readValue_array (hspace : isSpace c = false) (hc : c ≠ ']') (fuel : Nat)
    (cs : List Char) : readValue (fuel + 1) ('[' :: c :: cs) =
      (readItems fuel (c :: cs)).map fun (items, rest) => (.array items, rest) := by
  rw [readValue, skipSpace_cons rfl]
  simp only [skipSpace_cons hspace]
  split
  · exact absurd (List.head_eq_of_cons_eq ‹_›) hc
  · rfl

theorem readValue_object (fuel : Nat) (cs : List Char) :
    readValue (fuel + 1) ('\x7b' :: '"' :: cs) =
      (readFields fuel ('"' :: cs)).map fun (fields, rest) => (.object fields, rest) := by
  rw [readValue, skipSpace_cons rfl]
  simp only [skipSpace_cons (c := '"') rfl]
  rfl

theorem isTaken_of_succ (h : ∀ (fuel : Nat) (rest : List Char), 2 * (write j).length ≤ fuel →
    EndsNumber rest → readValue (fuel + 1) (write j ++ rest) = some (j, rest)) : IsTaken j := by
  intro fuel rest hfuel hrest
  obtain ⟨fuel, rfl⟩ : ∃ k, fuel = k + 1 := ⟨fuel - 1, by omega⟩
  exact h fuel rest (by omega) hrest

theorem isTaken_array (hwritten : ∀ item ∈ items, IsWritten item)
    (htaken : ∀ item ∈ items, IsTaken item) : IsTaken (.array items) := by
  refine isTaken_of_succ fun fuel rest hfuel _ => ?_
  rw [write, List.cons_append, List.append_assoc, List.singleton_append]
  simp only [write, List.length_cons, List.length_append, List.length_nil] at hfuel
  cases items with
  | nil => rfl
  | cons item items =>
    obtain ⟨c, cs, heq, hspace, hc⟩ := (hwritten item List.mem_cons_self).exists_writeItems_eq items
    have hread :=
      readItems_append (List.cons_ne_nil item items) htaken fuel (by omega) rest
    rw [heq, List.cons_append] at hread ⊢
    rw [readValue_array hspace hc, hread]
    rfl

theorem isTaken_object (hkeys : ∀ f ∈ fields, IsPlain f.1) (htaken : ∀ f ∈ fields, IsTaken f.2) :
    IsTaken (.object fields) := by
  refine isTaken_of_succ fun fuel rest hfuel _ => ?_
  rw [write, List.cons_append, List.append_assoc, List.singleton_append]
  simp only [write, List.length_cons, List.length_append, List.length_nil] at hfuel
  cases fields with
  | nil => rfl
  | cons f fields =>
    obtain ⟨cs, heq⟩ := exists_writeFields_eq f fields
    have hread :=
      readFields_append (List.cons_ne_nil f fields) hkeys htaken fuel (by omega) rest
    rw [heq, List.cons_append] at hread ⊢
    rw [readValue_object, hread]
    rfl

/-- Wherever the text of a tree stands, the reader takes just that. -/
theorem IsWritten.isTaken (h : IsWritten j) : IsTaken j := by
  induction h with
  | null => exact isTaken_of_succ fun fuel rest _ _ => rfl
  | bool b => exact isTaken_of_succ fun fuel rest _ _ => by cases b <;> rfl
  | number n =>
    refine isTaken_of_succ fun fuel rest _ hrest => ?_
    rw [write]
    exact readValue_number n fuel hrest
  | string h =>
    refine isTaken_of_succ fun fuel rest _ _ => ?_
    rw [write, List.cons_append, List.append_assoc, List.singleton_append, readValue,
      skipSpace_cons rfl]
    simp only [readString_append h, Option.map_some]
  | array h ih => exact isTaken_array h ih
  | object hkeys _ ih => exact isTaken_object hkeys ih

/-- A tree is read back from its text. -/
theorem read_write (h : IsWritten j) : read (write j) = some j := by
  have hread := h.isTaken (2 * (write j).length + 2) [] (by omega) nofun
  rw [List.append_nil] at hread
  rw [read, hread]
  rfl

end Json

end EarleyForest
