/-!
# JSON text

The syntax tree of a JSON text, a strict reader and a writer without blanks. Numbers and strings are
kept as they are written, and an object keeps its fields in order, repeated ones too: what they mean
is for the reader of the data to decide.
-/

namespace EarleyForest

/-- The syntax tree of a JSON text. -/
inductive Json where
  | null
  | bool (b : Bool)
  /-- A number as it is written. -/
  | number (literal : List Char)
  /-- What is written between the quotes, escapes included. -/
  | string (body : List Char)
  | array (items : List Json)
  /-- Fields with the text between the quotes of their names. -/
  | object (fields : List (List Char × Json))
deriving Inhabited

namespace Json

/-! ## Blanks, numbers and strings -/

/-- Whether `c` may stand between the parts of a text. -/
def isSpace (c : Char) : Bool := c = ' ' || c = '\n' || c = '\t' || c = '\r'

/-- The text without its leading blanks. -/
def skipSpace (cs : List Char) : List Char := cs.dropWhile isSpace

/-- Whether `cs` is one or more digits. -/
def isDigits (cs : List Char) : Bool := !cs.isEmpty && cs.all Char.isDigit

/-- Whether `cs` is empty or an exponent. -/
def isExponent : List Char → Bool
  | [] => true
  | e :: sign :: ds =>
    (e = 'e' || e = 'E') && (isDigits (sign :: ds) || ((sign = '+' || sign = '-') && isDigits ds))
  | [_] => false

/-- Whether `cs` can follow the integer part of a number: digits after a point, an exponent, or
nothing. -/
def isFraction : List Char → Bool
  | '.' :: ds => !(ds.takeWhile Char.isDigit).isEmpty && isExponent (ds.dropWhile Char.isDigit)
  | cs => isExponent cs

/-- Whether `cs` is a number without sign. Its integer part has no needless zeros. -/
def isUnsigned : List Char → Bool
  | '0' :: cs => isFraction cs
  | c :: cs => c.isDigit && isFraction (cs.dropWhile Char.isDigit)
  | [] => false

/-- Whether `cs` is a number. -/
def isNumber : List Char → Bool
  | '-' :: cs => isUnsigned cs
  | cs => isUnsigned cs

/-- Whether `c` occurs in numbers. -/
def isNumberChar (c : Char) : Bool :=
  c.isDigit || c = '-' || c = '+' || c = '.' || c = 'e' || c = 'E'

/-- Whether `c` is a hexadecimal digit. -/
def isHexDigit (c : Char) : Bool :=
  c.isDigit || ('a' ≤ c && c ≤ 'f') || ('A' ≤ c && c ≤ 'F')

/-- Whether a backslash and `c` stand for a character. -/
def isEscape (c : Char) : Bool :=
  c = '"' || c = '\\' || c = '/' || c = 'b' || c = 'f' || c = 'n' || c = 'r' || c = 't'

/-- The rest of a string after its opening quote, and what follows the closing one. -/
def readString : List Char → Option (List Char × List Char)
  | [] => none
  | '"' :: cs => some ([], cs)
  | '\\' :: 'u' :: a :: b :: c :: d :: cs =>
    if isHexDigit a && isHexDigit b && isHexDigit c && isHexDigit d then
      (readString cs).map fun (body, rest) => ('\\' :: 'u' :: a :: b :: c :: d :: body, rest)
    else none
  | '\\' :: c :: cs =>
    if isEscape c then (readString cs).map fun (body, rest) => ('\\' :: c :: body, rest) else none
  | c :: cs =>
    if c = '\\' ∨ c < ' ' then none else (readString cs).map fun (body, rest) => (c :: body, rest)

/-! ## Reading -/

/-- A number at the start of `cs`: all the characters that occur in numbers together. -/
def readNumber (cs : List Char) : Option (Json × List Char) :=
  let literal := cs.takeWhile isNumberChar
  if isNumber literal then some (.number literal, cs.dropWhile isNumberChar) else none

mutual

/-- A value at the start of a text, and what follows it. The fuel bounds the number of values,
items and fields on the way down. -/
def readValue : Nat → List Char → Option (Json × List Char)
  | 0, _ => none
  | fuel + 1, cs =>
    match skipSpace cs with
    | 'n' :: 'u' :: 'l' :: 'l' :: cs => some (.null, cs)
    | 't' :: 'r' :: 'u' :: 'e' :: cs => some (.bool true, cs)
    | 'f' :: 'a' :: 'l' :: 's' :: 'e' :: cs => some (.bool false, cs)
    | '"' :: cs => (readString cs).map fun (body, rest) => (.string body, rest)
    | '[' :: cs =>
      match skipSpace cs with
      | ']' :: rest => some (.array [], rest)
      | cs => (readItems fuel cs).map fun (items, rest) => (.array items, rest)
    | '\x7b' :: cs =>
      match skipSpace cs with
      | '\x7d' :: rest => some (.object [], rest)
      | cs => (readFields fuel cs).map fun (fields, rest) => (.object fields, rest)
    | cs => readNumber cs

/-- One or more values with commas between them, up to the closing bracket. -/
def readItems : Nat → List Char → Option (List Json × List Char)
  | 0, _ => none
  | fuel + 1, cs =>
    match readValue fuel cs with
    | none => none
    | some (item, cs) =>
      match skipSpace cs with
      | ',' :: cs => (readItems fuel cs).map fun (items, rest) => (item :: items, rest)
      | ']' :: rest => some ([item], rest)
      | _ => none

/-- One or more fields with commas between them, up to the closing brace. -/
def readFields : Nat → List Char → Option (List (List Char × Json) × List Char)
  | 0, _ => none
  | fuel + 1, cs =>
    match skipSpace cs with
    | '"' :: cs =>
      match readString cs with
      | none => none
      | some (key, cs) =>
        match skipSpace cs with
        | ':' :: cs =>
          match readValue fuel cs with
          | none => none
          | some (value, cs) =>
            match skipSpace cs with
            | ',' :: cs =>
              (readFields fuel cs).map fun (fields, rest) => ((key, value) :: fields, rest)
            | '\x7d' :: rest => some ([(key, value)], rest)
            | _ => none
        | _ => none
    | _ => none

end

/-- The value that `cs` is the text of. Every value on the way down takes at least one character of
the text for two calls of the readers, so twice its length is fuel enough. -/
def read (cs : List Char) : Option Json :=
  match readValue (2 * cs.length + 2) cs with
  | some (value, rest) => if (skipSpace rest).isEmpty then some value else none
  | none => none

/-! ## Writing -/

mutual

/-- The text of a value, without blanks. -/
def write : Json → List Char
  | null => ['n', 'u', 'l', 'l']
  | bool true => ['t', 'r', 'u', 'e']
  | bool false => ['f', 'a', 'l', 's', 'e']
  | number literal => literal
  | string body => '"' :: (body ++ ['"'])
  | array items => '[' :: (writeItems items ++ [']'])
  | object fields => '\x7b' :: (writeFields fields ++ ['\x7d'])

/-- The texts of values with commas between them. -/
def writeItems : List Json → List Char
  | [] => []
  | [item] => write item
  | item :: items => write item ++ ',' :: writeItems items

/-- The texts of fields with commas between them. -/
def writeFields : List (List Char × Json) → List Char
  | [] => []
  | [(key, value)] => '"' :: (key ++ '"' :: ':' :: write value)
  | (key, value) :: fields =>
    '"' :: (key ++ '"' :: ':' :: (write value ++ ',' :: writeFields fields))

end

/-! ## The text that a string stands for -/

/-- A character of a string, or a 16-bit unit written with `\u`. -/
inductive Piece where
  | char (c : Char)
  | unit (n : Nat)
deriving DecidableEq

/-- The value of a hexadecimal digit. -/
def hexValue (c : Char) : Nat :=
  if c.isDigit then c.toNat - 48 else if c < 'a' then c.toNat - 55 else c.toNat - 87

/-- The character that a backslash and `c` stand for. -/
def escaped (c : Char) : Char :=
  if c = 'b' then '\x08' else if c = 'f' then '\x0c' else if c = 'n' then '\n'
  else if c = 'r' then '\r' else if c = 't' then '\t' else c

/-- The pieces of the body of a string. -/
def pieces : List Char → List Piece
  | [] => []
  | '\\' :: 'u' :: a :: b :: c :: d :: cs =>
    .unit (4096 * hexValue a + 256 * hexValue b + 16 * hexValue c + hexValue d) :: pieces cs
  | '\\' :: c :: cs => .char (escaped c) :: pieces cs
  | c :: cs => .char c :: pieces cs

/-- The characters that pieces stand for. A leading and a trailing surrogate stand for one character
together and for nothing alone. -/
def joinPieces : List Piece → Option (List Char)
  | [] => some []
  | .char c :: ps => (joinPieces ps).map (c :: ·)
  | .unit u :: .unit v :: ps =>
    if 0xD800 ≤ u ∧ u < 0xDC00 then
      if 0xDC00 ≤ v ∧ v < 0xE000 then
        (joinPieces ps).map (Char.ofNat (0x10000 + 0x400 * (u - 0xD800) + (v - 0xDC00)) :: ·)
      else none
    else if 0xDC00 ≤ u ∧ u < 0xE000 then none
    else (joinPieces (.unit v :: ps)).map (Char.ofNat u :: ·)
  | .unit u :: ps =>
    if 0xD800 ≤ u ∧ u < 0xE000 then none else (joinPieces ps).map (Char.ofNat u :: ·)

/-- The text that the body of a string stands for. -/
def unescape (body : List Char) : Option (List Char) := joinPieces (pieces body)

end Json

end EarleyForest
