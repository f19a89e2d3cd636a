/-!
# JSON values and their written forms

Values keep the spelling of numbers and the order of object fields.  There are two written
forms: a compact one on a single line, and one indented by two spaces per level.
-/

namespace Diachrony

inductive Json where
  | null
  | bool (value : Bool)
  /-- A number as spelled. -/
  | number (spelling : String)
  | string (text : String)
  | array (items : List Json)
  | object (fields : List (String × Json))
  /-- A string, or an object with a key, that has an unpaired surrogate escape and so denotes
  no text.  It only comes up in reading. -/
  | unpaired
  deriving Repr, Inhabited

namespace Json

def nat (n : Nat) : Json :=
  number (toString n)

def strings (texts : List String) : Json :=
  array (texts.map string)

/-- The two low hexadecimal digits of a control character. -/
def hexPair (code : Nat) : String :=
  String.ofList [Nat.digitChar (code / 16), Nat.digitChar (code % 16)]

def escapeChar (c : Char) : String :=
  match c with
  | '"' => "\\\""
  | '\\' => "\\\\"
  | '\n' => "\\n"
  | '\r' => "\\r"
  | '\t' => "\\t"
  | '\x08' => "\\b"
  | '\x0c' => "\\f"
  | c => if c.toNat < 32 then "\\u00" ++ hexPair c.toNat else c.toString

def quote (text : String) : String :=
  "\"" ++ text.toList.foldl (fun written c => written ++ escapeChar c) "" ++ "\""

mutual

def appendTo (written : String) : Json → String
  | null | unpaired => written ++ "null"
  | bool value => written ++ if value then "true" else "false"
  | number spelling => written ++ spelling
  | string text => written ++ quote text
  | array [] => written ++ "[]"
  | array (item :: rest) => appendItems (appendTo (written ++ "[") item) rest ++ "]"
  | object [] => written ++ "\x7b\x7d"
  | object ((key, value) :: rest) =>
      appendFields (appendTo (written ++ "\x7b" ++ quote key ++ ":") value) rest ++ "\x7d"

def appendItems (written : String) : List Json → String
  | [] => written
  | item :: rest => appendItems (appendTo (written ++ ",") item) rest

def appendFields (written : String) : List (String × Json) → String
  | [] => written
  | (key, value) :: rest => appendFields (appendTo (written ++ "," ++ quote key ++ ":") value) rest

end

def compact (value : Json) : String :=
  appendTo "" value

/-- Parts on lines of their own, one level deeper than the brackets around them. -/
def block (indent : String) (opening closing : String) (parts : List String) : String :=
  if parts.isEmpty then opening ++ closing
  else
    let inner := "\n" ++ indent ++ "  "
    opening ++ inner ++ ("," ++ inner).intercalate parts ++ "\n" ++ indent ++ closing

mutual

def prettyFrom (indent : String) : Json → String
  | null | unpaired => "null"
  | bool value => if value then "true" else "false"
  | number spelling => spelling
  | string text => quote text
  | array items => block indent "[" "]" (prettyItems (indent ++ "  ") items)
  | object fields => block indent "\x7b" "\x7d" (prettyFields (indent ++ "  ") fields)

def prettyItems (indent : String) : List Json → List String
  | [] => []
  | item :: rest => prettyFrom indent item :: prettyItems indent rest

def prettyFields (indent : String) : List (String × Json) → List String
  | [] => []
  | (key, value) :: rest =>
      (quote key ++ ": " ++ prettyFrom indent value) :: prettyFields indent rest

end

def pretty (value : Json) : String :=
  prettyFrom "" value

end Json

end Diachrony
