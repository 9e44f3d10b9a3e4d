import EarleyForest.Proofs.Stored.Json
import EarleyForest.Stored.Formats

/-!
# Stored data survives

Codecs are put together from small ones, and so is what is known of them: a codec keeps the values
of a kind if they are read as they are written and no other values are read (`Codec.Keeps`). Numbers
are kept within their bounds, lists and optional values if what is in them is, and a record if its
fields are. So all data that is stored comes back from its text, and what is read from any text at
all, however it is written, is written in one way from then on (`Codec.stored_roundTrips`).
-/

namespace EarleyForest

/-- The numbers of the choice are 64-bit words. -/
structure Choice.IsStorable (c : Choice) : Prop where
  node_le : c.node ≤ 18446744073709551615
  alternative_le : c.alternative ≤ 18446744073709551615

/-- The numbers of all choices are 64-bit words. -/
def Directions.IsStorable (d : Directions) : Prop := ∀ c ∈ d.choices, c.IsStorable

/-- The limit, if there is one, is a 64-bit word. -/
def ParserConfig.IsStorable (config : ParserConfig) : Prop :=
  ∀ limit ∈ config.maxItems, limit ≤ 18446744073709551615

namespace Codec

variable {α β : Type} {codec : Codec α} {IsValue : α → Prop} {IsMade : β → Prop} {a : α}

/-- The values are read as they are written, and no other values are read. -/
structure Keeps (codec : Codec α) (IsValue : α → Prop) : Prop where
  isWritten : ∀ a, (codec.encode a).IsWritten
  decode_encode : ∀ a, IsValue a → codec.decode (codec.encode a) = some a
  isValue : ∀ j a, codec.decode j = some a → IsValue a

/-! ## Values -/

theorem keeps_natural (max : Nat) : (natural max).Keeps (· ≤ max) where
  isWritten n := .number n
  decode_encode n hn := by
    have hdigits : (Nat.toDigits 10 n).all Char.isDigit = true :=
      List.all_eq_true.2 fun _ => Json.isDigit_of_mem_toDigits
    simp only [natural, hdigits, Nat.ofDigitChars_ten_toDigits, if_pos hn, if_true]
  isValue j n h := by
    unfold natural at h
    cases j with
    | number literal =>
      dsimp only at h
      split at h
      · split at h
        · cases h
          assumption
        · cases h
      · cases h
    | _ => cases h

theorem keeps_bool : bool.Keeps fun _ => True where
  isWritten := .bool
  decode_encode _ _ := rfl
  isValue _ _ _ := trivial

theorem optional_decode (codec : Codec α) {j : Json} (hj : j ≠ .null) :
    codec.optional.decode j = (codec.decode j).map some := by
  cases j with
  | null => exact absurd rfl hj
  | _ => rfl

/-- An optional value is told from none as it is not written as `null`. -/
theorem Keeps.optional (h : codec.Keeps IsValue) (hnull : ∀ a, codec.encode a ≠ .null) :
    codec.optional.Keeps fun a? => ∀ a ∈ a?, IsValue a where
  isWritten
    | none => .null
    | some a => h.isWritten a
  decode_encode
    | none, _ => rfl
    | some a, ha => by
      show codec.optional.decode (codec.encode a) = _
      rw [optional_decode codec (hnull a), h.decode_encode a (ha a rfl)]
      rfl
  isValue j a? hj := by
    by_cases hnull : j = .null
    · rw [hnull] at hj
      cases hj
      exact nofun
    · rw [optional_decode codec hnull] at hj
      obtain ⟨a, ha, rfl⟩ := Option.map_eq_some_iff.1 hj
      rintro _ ⟨⟩
      exact h.isValue j a ha

theorem mapM_decode_encode (h : codec.Keeps IsValue) {as : List α} (has : ∀ a ∈ as, IsValue a) :
    (as.map codec.encode).mapM codec.decode = some as := by
  induction as with
  | nil => rfl
  | cons a as ih =>
    obtain ⟨ha, has⟩ := List.forall_mem_cons.1 has
    simp [h.decode_encode a ha, ih has]

theorem isValue_of_mapM (h : codec.Keeps IsValue) {items : List Json} {as : List α}
    (has : items.mapM codec.decode = some as) : ∀ a ∈ as, IsValue a := by
  induction items generalizing as with
  | nil =>
    cases has
    exact nofun
  | cons j items ih =>
    simp only [List.mapM_cons, Option.bind_eq_bind, Option.bind_eq_some_iff] at has
    obtain ⟨a, ha, as, has, heq⟩ := has
    cases heq
    exact List.forall_mem_cons.2 ⟨h.isValue j a ha, ih has⟩

theorem Keeps.list (h : codec.Keeps IsValue) :
    (list codec).Keeps fun as => ∀ a ∈ as, IsValue a where
  isWritten _ := .array (List.forall_mem_map.2 fun a _ => h.isWritten a)
  decode_encode _ has := mapM_decode_encode h has
  isValue
    | .array _, _, has => isValue_of_mapM h has

/-- Values that are written as others are kept if those are. -/
theorem Keeps.imap (h : codec.Keeps IsValue) {back : α → Option β} {forth : β → α}
    (hforth : ∀ b, IsMade b → IsValue (forth b) ∧ back (forth b) = some b)
    (hback : ∀ a b, IsValue a → back a = some b → IsMade b) :
    (codec.imap back forth).Keeps IsMade where
  isWritten b := h.isWritten (forth b)
  decode_encode b hb := by
    obtain ⟨hvalue, heq⟩ := hforth b hb
    simp [Codec.imap, h.decode_encode _ hvalue, heq]
  isValue j b hj := by
    obtain ⟨a, ha, hb⟩ := Option.bind_eq_some_iff.1 hj
    exact hback a b (h.isValue j a ha) hb

/-! ## Records -/

/-- The pieces of a plain string are its characters. -/
theorem unescape_of_isPlain {body : List Char} (h : Json.IsPlain body) :
    Json.unescape body = some body := by
  have hpieces : Json.pieces body = body.map .char := by
    induction body with
    | nil => rfl
    | cons c body ih =>
      obtain ⟨⟨-, hescape, -⟩, h⟩ := List.forall_mem_cons.1 h
      rw [Json.pieces.eq_def]
      split
      · cases ‹c :: _ = []›
      · exact absurd (List.head_eq_of_cons_eq ‹_›) hescape
      · exact absurd (List.head_eq_of_cons_eq ‹_›) hescape
      · rename_i heq
        obtain ⟨rfl, rfl⟩ := List.cons_eq_cons.1 heq
        rw [ih h, List.map_cons]
  have hjoin (cs : List Char) : Json.joinPieces (cs.map .char) = some cs := by
    induction cs with
    | nil => rfl
    | cons c cs ih => simp [Json.joinPieces, ih]
  rw [Json.unescape, hpieces, hjoin]

theorem fields?_object {fields : List (List Char × Json)} (h : ∀ f ∈ fields, Json.IsPlain f.1)
    (names : List String) : (Json.object fields).fields? names = some fields := by
  unfold Json.fields?
  induction fields with
  | nil => rfl
  | cons f fields ih =>
    obtain ⟨hf, h⟩ := List.forall_mem_cons.1 h
    dsimp only at ih
    simp [unescape_of_isPlain hf, ih h]

/-- Records keep their values if what is made of the fields that are written is the value. -/
theorem keeps_record {names : List String} {fieldsOf : α → List (List Char × Json)}
    {make : List (List Char × Json) → Option α}
    (hkeys : ∀ a, ∀ f ∈ fieldsOf a, Json.IsPlain f.1)
    (hvalues : ∀ a, ∀ f ∈ fieldsOf a, f.2.IsWritten)
    (hmake : ∀ a, IsValue a → make (fieldsOf a) = some a)
    (hvalue : ∀ fields a, make fields = some a → IsValue a) :
    (⟨fun a => .object (fieldsOf a), fun j => j.fields? names >>= make⟩ : Codec α).Keeps
      IsValue where
  isWritten a := .object (hkeys a) (hvalues a)
  decode_encode a ha := by
    dsimp only
    rw [fields?_object (hkeys a), ← hmake a ha]
    rfl
  isValue j a ha := by
    obtain ⟨fields, -, ha⟩ := Option.bind_eq_some_iff.1 ha
    exact hvalue fields a ha

/-- The value of a field that is read has been decoded. -/
theorem Keeps.of_field (h : codec.Keeps IsValue) {key : String}
    {fields : List (List Char × Json)} (ha : codec.field key fields = some a) : IsValue a := by
  obtain ⟨j?, -, ha⟩ := Option.bind_eq_some_iff.1 ha
  obtain ⟨j, -, ha⟩ := Option.bind_eq_some_iff.1 ha
  exact h.isValue j a ha

theorem Keeps.of_fieldOrNull (h : codec.Keeps IsValue) {key : String}
    {fields : List (List Char × Json)} (ha : codec.fieldOrNull key fields = some a) :
    IsValue a := by
  obtain ⟨j?, -, ha⟩ := Option.bind_eq_some_iff.1 ha
  exact h.isValue _ a ha

/-! ## Formats -/

theorem keeps_word32 : word32.Keeps (· ≤ 4294967295) := keeps_natural _

theorem keeps_word64 : word64.Keeps (· ≤ 18446744073709551615) := keeps_natural _

/-- Numbers that saturate at 32 bits. -/
theorem keeps_saturating : (word32.imap (fun n => some (.ofNat n)) Saturating.toNat :
    Codec (Saturating 4294967295)).Keeps fun _ => True :=
  keeps_word32.imap (fun b _ => ⟨b.toNat_le, congrArg some b.ofNat_toNat⟩) fun _ _ _ _ => trivial

theorem keeps_position : position.Keeps fun _ => True :=
  keeps_word32.imap (fun b _ => ⟨Nat.le_of_lt_succ b.toNat_lt, congrArg some UInt32.ofNat_toNat⟩)
    fun _ _ _ _ => trivial

theorem keeps_textSize : textSize.Keeps fun _ => True := keeps_saturating

theorem keeps_textRange : textRange.Keeps fun _ => True :=
  keeps_record (by simp [Json.IsPlain]) (by simp [keeps_textSize.isWritten])
    (fun r _ => by simp [Codec.field, fieldValue?, keeps_textSize.decode_encode])
    fun _ _ _ => trivial

theorem keeps_span : span.Keeps fun _ => True :=
  keeps_record (by simp [Json.IsPlain])
    (by simp [keeps_textRange.isWritten, keeps_position.isWritten])
    (fun s _ => by
      simp [Codec.field, fieldValue?, keeps_textRange.decode_encode, keeps_position.decode_encode])
    fun _ _ _ => trivial

theorem keeps_choice : choice.Keeps Choice.IsStorable :=
  keeps_record (by simp [Json.IsPlain])
    (by simp [nodeId, keeps_word64.isWritten])
    (fun c hc => by
      simp [Codec.field, fieldValue?, nodeId, keeps_word64.decode_encode _ hc.node_le,
        keeps_word64.decode_encode _ hc.alternative_le])
    fun fields c h => by
      obtain ⟨node, hnode, h⟩ := Option.bind_eq_some_iff.1 h
      obtain ⟨alternative, halternative, h⟩ := Option.bind_eq_some_iff.1 h
      cases h
      exact ⟨keeps_word64.of_field hnode, keeps_word64.of_field halternative⟩

theorem keeps_directions : directions.Keeps Directions.IsStorable :=
  keeps_record (by simp [Json.IsPlain]) (by simp [keeps_choice.list.isWritten])
    (fun d hd => by simp [Codec.field, fieldValue?, keeps_choice.list.decode_encode _ hd])
    fun fields d h => by
      obtain ⟨choices, hchoices, h⟩ := Option.bind_eq_some_iff.1 h
      cases h
      exact keeps_choice.list.of_field hchoices

theorem keeps_limit : (optional word64).Keeps fun limit? =>
    ∀ limit ∈ limit?, limit ≤ 18446744073709551615 :=
  keeps_word64.optional fun _ => nofun

theorem keeps_parserConfig : parserConfig.Keeps ParserConfig.IsStorable :=
  keeps_record (by simp [Json.IsPlain]) (by simp [keeps_limit.isWritten, keeps_bool.isWritten])
    (fun config h => by
      simp [Codec.field, Codec.fieldOrNull, fieldValue?, keeps_limit.decode_encode _ h,
        keeps_bool.decode_encode])
    fun fields config h => by
      obtain ⟨limit?, hlimit, h⟩ := Option.bind_eq_some_iff.1 h
      obtain ⟨_, -, h⟩ := Option.bind_eq_some_iff.1 h
      cases h
      exact keeps_limit.of_fieldOrNull hlimit

/-! ## Texts -/

/-- Values come back from their texts. A value that is read from any text comes back from its own
text too, which is then written just as it is. -/
structure RoundTrips (codec : Codec α) (IsValue : α → Prop) : Prop where
  read_write : ∀ a, IsValue a → codec.read (codec.write a) = some a
  isValue : ∀ text a, codec.read text = some a → IsValue a
  read_again : ∀ text a, codec.read text = some a → codec.read (codec.write a) = some a ∧
    (codec.read (codec.write a)).map codec.write = some (codec.write a)

theorem Keeps.roundTrips (h : codec.Keeps IsValue) : codec.RoundTrips IsValue := by
  have hread (a : α) (ha : IsValue a) : codec.read (codec.write a) = some a := by
    rw [read, write, String.toList_ofList, Json.read_write (h.isWritten a)]
    exact h.decode_encode a ha
  have hvalue (text : String) (a : α) (ha : codec.read text = some a) : IsValue a := by
    obtain ⟨j, -, ha⟩ := Option.bind_eq_some_iff.1 ha
    exact h.isValue j a ha
  refine ⟨hread, hvalue, fun text a ha => ?_⟩
  have hagain := hread a (hvalue text a ha)
  exact ⟨hagain, by rw [hagain, Option.map_some]⟩

/-- All stored data survives a round trip, and so does what is read from any other text. -/
theorem stored_roundTrips : directions.RoundTrips Directions.IsStorable ∧
    choice.RoundTrips Choice.IsStorable ∧ nodeId.RoundTrips (· ≤ 18446744073709551615) ∧
    ruleId.RoundTrips (fun _ => True) ∧ textSize.RoundTrips (fun _ => True) ∧
    textRange.RoundTrips (fun _ => True) ∧ span.RoundTrips (fun _ => True) ∧
    parserConfig.RoundTrips ParserConfig.IsStorable :=
  ⟨keeps_directions.roundTrips, keeps_choice.roundTrips, keeps_word64.roundTrips,
    keeps_saturating.roundTrips, keeps_textSize.roundTrips, keeps_textRange.roundTrips,
    keeps_span.roundTrips, keeps_parserConfig.roundTrips⟩

/-- Blanks, another order of the fields, other fields among them, and an array are read alike. -/
example :
    choice.read " \x7b \"alternative\": 2, \"x\": [null], \"n\\u006fde\": 1 \x7d\n" = some ⟨1, 2⟩ ∧
      choice.read "[1,2]" = some ⟨1, 2⟩ ∧
      choice.write ⟨1, 2⟩ = "\x7b\"node\":1,\"alternative\":2\x7d" := by
  decide +kernel

end Codec

end EarleyForest
