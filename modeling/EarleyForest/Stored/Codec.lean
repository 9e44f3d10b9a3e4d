import EarleyForest.Stored.Json

/-!
# Codecs

A codec writes values of a type as JSON and reads them back. Reading is lenient where data from
elsewhere may differ without harm: fields may come in any order and with others among them, or as
an array of their values. It is strict where it matters: a known field must not be repeated, and a
number must be a whole one that fits.
-/

namespace EarleyForest

/-- How values of `α` are written as JSON and read back. -/
structure Codec (α : Type) where
  encode : α → Json
  decode : Json → Option α

namespace Codec

variable {α β : Type}

/-- The text of a value. -/
def write (codec : Codec α) (a : α) : String := .ofList (codec.encode a).write

/-- The value that `text` is the text of. -/
def read (codec : Codec α) (text : String) : Option α := (Json.read text.toList).bind codec.decode

/-- Whole numbers of at most `max`. -/
def natural (max : Nat) : Codec Nat where
  encode n := .number (Nat.toDigits 10 n)
  decode
    | .number literal =>
      if literal.all Char.isDigit then
        let n := Nat.ofDigitChars 10 literal 0
        if n ≤ max then some n else none
      else none
    | _ => none

/-- Truth values. -/
def bool : Codec Bool where
  encode := .bool
  decode
    | .bool b => some b
    | _ => none

/-- `null` for no value. -/
def optional (codec : Codec α) : Codec (Option α) where
  encode
    | none => .null
    | some a => codec.encode a
  decode
    | .null => some none
    | j => (codec.decode j).map some

/-- Lists as arrays. -/
def list (codec : Codec α) : Codec (List α) where
  encode as := .array (as.map codec.encode)
  decode
    | .array items => items.mapM codec.decode
    | _ => none

/-- Values of `β` written as those of `α`. Reading refuses what `back` does. -/
def imap (codec : Codec α) (back : α → Option β) (forth : β → α) : Codec β where
  encode b := codec.encode (forth b)
  decode j := (codec.decode j).bind back

end Codec

/-! ## Records -/

/-- The fields of a record by the names that they spell. The values of all its fields, which have
the given names, may also stand in an array. -/
def Json.fields? (names : List String) : Json → Option (List (List Char × Json))
  | .object fields => fields.mapM fun (key, value) => (unescape key).map fun key => (key, value)
  | .array items =>
    if items.length = names.length then some ((names.map String.toList).zip items) else none
  | _ => none

/-- The value of the field `key`, if it occurs. A field that occurs twice is an error. -/
def fieldValue? (key : String) (fields : List (List Char × Json)) : Option (Option Json) :=
  match fields.filter fun f => f.1 = key.toList with
  | [] => some none
  | [f] => some (some f.2)
  | _ => none

/-- The field `key` of a record. -/
def Codec.field {α : Type} (codec : Codec α) (key : String) (fields : List (List Char × Json)) :
    Option α := do
  codec.decode (← (← fieldValue? key fields))

/-- The field `key` of a record; one that is missing counts as `null`. -/
def Codec.fieldOrNull {α : Type} (codec : Codec α) (key : String)
    (fields : List (List Char × Json)) : Option α := do
  codec.decode ((← fieldValue? key fields).getD .null)

end EarleyForest
