import Diachrony.Json.Basic

/-!
# Reading JSON

`Json.parse?` reads one value that fills the whole text.  Each step returns the rest of the
text.  A value inside another costs two units of fuel and follows at least one character of
its own, so twice the number of characters and two more last for every text.
-/

namespace Diachrony.Json

def isSpace (c : Char) : Bool :=
  c == ' ' || c == '\n' || c == '\t' || c == '\r'

def skipSpace (text : List Char) : List Char :=
  text.dropWhile isSpace

def hexDigit? (c : Char) : Option Nat :=
  if '0' ≤ c && c ≤ '9' then some (c.toNat - '0'.toNat)
  else if 'a' ≤ c && c ≤ 'f' then some (c.toNat - 'a'.toNat + 10)
  else if 'A' ≤ c && c ≤ 'F' then some (c.toNat - 'A'.toNat + 10)
  else none

/-- The code unit of a `\u` escape, behind the `u`. -/
def codeUnit? : List Char → Option (Nat × List Char)
  | a :: b :: c :: d :: rest => do
      let units ← [a, b, c, d].mapM hexDigit?
      some (units.foldl (fun unit digit => unit * 16 + digit) 0, rest)
  | _ => none

def simpleEscape? : Char → Option Char
  | '"' => some '"'
  | '\\' => some '\\'
  | '/' => some '/'
  | 'b' => some '\x08'
  | 'f' => some '\x0c'
  | 'n' => some '\n'
  | 'r' => some '\r'
  | 't' => some '\t'
  | _ => none

/-- Whether a code unit is the first half of a surrogate pair. -/
def isLeading (unit : Nat) : Bool :=
  0xD800 ≤ unit && unit ≤ 0xDBFF

/-- Whether a code unit is the second half of a surrogate pair. -/
def isTrailing (unit : Nat) : Bool :=
  0xDC00 ≤ unit && unit ≤ 0xDFFF

def decodeLoop (decoded : List Char) : List (Char ⊕ Nat) → Option (List Char)
  | [] => some decoded.reverse
  | .inl c :: rest => decodeLoop (c :: decoded) rest
  | .inr first :: .inr second :: rest =>
      if isLeading first then
        if isTrailing second then
          let code := 0x10000 + (first - 0xD800) * 0x400 + (second - 0xDC00)
          decodeLoop (Char.ofNat code :: decoded) rest
        else none
      else if isTrailing first then none
      else decodeLoop (Char.ofNat first :: decoded) (.inr second :: rest)
  | .inr unit :: rest =>
      if isLeading unit || isTrailing unit then none
      else decodeLoop (Char.ofNat unit :: decoded) rest

/-- The text that characters and code units denote, `none` if a surrogate among the units is
unpaired. -/
def decodeUnits (units : List (Char ⊕ Nat)) : Option (List Char) :=
  decodeLoop [] units

/-- The characters and escaped code units of a string, behind its opening quote; `units` are
the reversed ones read so far. -/
def stringUnits (units : List (Char ⊕ Nat)) :
    Nat → List Char → Option (List (Char ⊕ Nat) × List Char)
  | 0, _ => none
  | fuel + 1, text =>
      match text with
      | [] => none
      | '"' :: rest => some (units.reverse, rest)
      | '\\' :: 'u' :: rest =>
          match codeUnit? rest with
          | none => none
          | some (unit, rest) => stringUnits (.inr unit :: units) fuel rest
      | '\\' :: escaped :: rest =>
          match simpleEscape? escaped with
          | none => none
          | some c => stringUnits (.inl c :: units) fuel rest
      | c :: rest => if c.toNat < 32 then none else stringUnits (.inl c :: units) fuel rest

def readString (fuel : Nat) (text : List Char) : Option (Option String × List Char) := do
  let (units, rest) ← stringUnits [] fuel text
  some ((decodeUnits units).map String.ofList, rest)

def readDigits (text : List Char) : Option (List Char × List Char) :=
  match text.span Char.isDigit with
  | ([], _) => none
  | (digits, rest) => some (digits, rest)

/-- The whole part of a number: no digit follows a leading zero. -/
def readWhole (text : List Char) : Option (List Char × List Char) := do
  let (digits, rest) ← readDigits text
  if digits.head? == some '0' && digits.length > 1 then none else some (digits, rest)

def readFraction : List Char → Option (List Char × List Char)
  | '.' :: rest => (readDigits rest).map fun (digits, rest) => ('.' :: digits, rest)
  | text => some ([], text)

def readExponent : List Char → Option (List Char × List Char)
  | mark :: rest =>
      if mark == 'e' || mark == 'E' then
        match rest with
        | sign :: digits =>
            if sign == '+' || sign == '-' then
              (readDigits digits).map fun (digits, rest) => (mark :: sign :: digits, rest)
            else (readDigits rest).map fun (digits, rest) => (mark :: digits, rest)
        | [] => none
      else some ([], mark :: rest)
  | [] => some ([], [])

def readNumber (text : List Char) : Option (Json × List Char) := do
  let (sign, rest) := match text with
    | '-' :: rest => (['-'], rest)
    | rest => ([], rest)
  let (whole, rest) ← readWhole rest
  let (fraction, rest) ← readFraction rest
  let (exponent, rest) ← readExponent rest
  some (.number (String.ofList (sign ++ whole ++ fraction ++ exponent)), rest)

def ofFields (fields : List (Option String × Json)) : Json :=
  match fields.mapM fun (key, value) => key.map (·, value) with
  | some fields => .object fields
  | none => .unpaired

mutual

/-- One value, with space before it skipped. -/
def readValue : Nat → List Char → Option (Json × List Char)
  | 0, _ => none
  | fuel + 1, text =>
      match skipSpace text with
      | [] => none
      | 'n' :: 'u' :: 'l' :: 'l' :: rest => some (.null, rest)
      | 't' :: 'r' :: 'u' :: 'e' :: rest => some (.bool true, rest)
      | 'f' :: 'a' :: 'l' :: 's' :: 'e' :: rest => some (.bool false, rest)
      | '"' :: rest =>
          (readString fuel rest).map fun (text, rest) => (text.elim .unpaired .string, rest)
      | '[' :: rest =>
          match skipSpace rest with
          | ']' :: rest => some (.array [], rest)
          | rest => readItems fuel rest []
      | '\x7b' :: rest =>
          match skipSpace rest with
          | '\x7d' :: rest => some (.object [], rest)
          | rest => readFields fuel rest []
      | rest => readNumber rest

def readItems : Nat → List Char → List Json → Option (Json × List Char)
  | 0, _, _ => none
  | fuel + 1, text, items => do
      let (item, rest) ← readValue fuel text
      match skipSpace rest with
      | ',' :: rest => readItems fuel rest (item :: items)
      | ']' :: rest => some (.array (item :: items).reverse, rest)
      | _ => none

def readFields : Nat → List Char → List (Option String × Json) → Option (Json × List Char)
  | 0, _, _ => none
  | fuel + 1, text, fields =>
      match skipSpace text with
      | '"' :: rest => do
          let (key, rest) ← readString fuel rest
          match skipSpace rest with
          | ':' :: rest => do
              let (value, rest) ← readValue fuel rest
              match skipSpace rest with
              | ',' :: rest => readFields fuel rest ((key, value) :: fields)
              | '\x7d' :: rest => some (ofFields ((key, value) :: fields).reverse, rest)
              | _ => none
          | _ => none
      | _ => none

end

/-- Read a text that holds exactly one value, apart from space around it. -/
def parse? (text : String) : Option Json :=
  let chars := text.toList
  match readValue (2 * chars.length + 2) chars with
  | some (value, rest) => if (skipSpace rest).isEmpty then some value else none
  | none => none

/-! ## Taking values apart -/

def asString? : Json → Option String
  | string text => some text
  | _ => none

def asBool? : Json → Option Bool
  | bool value => some value
  | _ => none

/-- A natural number below 2^64, spelled without sign, fraction and exponent. -/
def asCount? : Json → Option Nat
  | number spelling =>
      if spelling.toList.all Char.isDigit then
        spelling.toNat?.filter fun n => decide (n < Nat.pow 2 64)
      else none
  | _ => none

def asArray? : Json → Option (List Json)
  | array items => some items
  | _ => none

def asStrings? (value : Json) : Option (List String) := do
  (← value.asArray?).mapM asString?

/-- The values of a record with the given field names, in the order of the names.  A record
is written as an object, whose other fields are ignored and where a name given twice is an
error, or as the array of all its values. -/
def asRecord? (names : List String) : Json → Option (List (Option Json))
  | array items => if items.length == names.length then some (items.map some) else none
  | object fields =>
      if names.all fun name => (fields.filter fun field => field.1 == name).length ≤ 1 then
        some (names.map fun name => fields.lookup name)
      else none
  | _ => none

end Diachrony.Json
