/-!
# JSON documents

A document tree with two layouts: `compact`, with no blanks, and `pretty`, with
one entry a line and two blanks of indentation for each level. In strings the
quote, the backslash and the control characters are escaped, and all else stands
as it is.
-/

namespace Treewalk

inductive Json where
  | null
  | bool (value : Bool)
  /-- A number, by the text that denotes it. -/
  | number (text : String)
  | string (value : String)
  | array (items : List Json)
  | object (fields : List (String × Json))

namespace Json

def hexDigit (n : Nat) : Char :=
  if n < 10 then Char.ofNat ('0'.toNat + n) else Char.ofNat ('a'.toNat + n - 10)

def escapeChar (c : Char) : List Char :=
  match c with
  | '"' => ['\\', '"']
  | '\\' => ['\\', '\\']
  | '\x08' => ['\\', 'b']
  | '\x0c' => ['\\', 'f']
  | '\n' => ['\\', 'n']
  | '\r' => ['\\', 'r']
  | '\t' => ['\\', 't']
  | _ =>
    if c.toNat < 0x20 then
      ['\\', 'u', '0', '0', hexDigit (c.toNat / 16), hexDigit (c.toNat % 16)]
    else [c]

def quote (s : String) : String :=
  "\"" ++ String.ofList (s.toList.flatMap escapeChar) ++ "\""

/-- Entries between brackets, each on a line of its own. -/
def block (left right : String) (indent : Nat) (entries : List String) : String :=
  if entries.isEmpty then left ++ right
  else
    let margin := "\n" ++ "".pushn ' ' (indent + 2)
    left ++ margin ++ ("," ++ margin).intercalate entries ++ "\n" ++ "".pushn ' ' indent ++ right

mutual

def compact : Json → String
  | null => "null"
  | bool value => if value then "true" else "false"
  | number text => text
  | string value => quote value
  | array items => "[" ++ ",".intercalate (compactAll items) ++ "]"
  | object fields => "\x7b" ++ ",".intercalate (compactFields fields) ++ "\x7d"

def compactAll : List Json → List String
  | [] => []
  | item :: rest => compact item :: compactAll rest

def compactFields : List (String × Json) → List String
  | [] => []
  | (key, value) :: rest => (quote key ++ ":" ++ compact value) :: compactFields rest

end

mutual

/-- The layout of a document that starts `indent` columns in. -/
def pretty (indent : Nat) : Json → String
  | null => "null"
  | bool value => if value then "true" else "false"
  | number text => text
  | string value => quote value
  | array items => block "[" "]" indent (prettyAll (indent + 2) items)
  | object fields => block "\x7b" "\x7d" indent (prettyFields (indent + 2) fields)

def prettyAll (indent : Nat) : List Json → List String
  | [] => []
  | item :: rest => pretty indent item :: prettyAll indent rest

def prettyFields (indent : Nat) : List (String × Json) → List String
  | [] => []
  | (key, value) :: rest =>
    (quote key ++ ": " ++ pretty indent value) :: prettyFields indent rest

end

end Json

end Treewalk
