import EL.Number.Layout
import EL.Text.Join

/-!
# JSON values and their two printed forms

A JSON value for description of trees: numbers are either natural numbers, which count something,
or doubles, which are always written so that they look like doubles. The fields of an object are
written in the order they are listed in; who builds an object lists them by key.

Of the two printed forms the compact one has no blanks outside strings. The indented one puts
every item and every field on a line of its own, two columns further in than its brackets; empty
brackets stay together in both.
-/

set_option autoImplicit false

namespace EL

open Text (joinWith)

/-- A JSON value. -/
inductive Json where
  | null
  | bool (value : Bool)
  /-- A natural number, written in decimal. -/
  | count (value : Nat)
  /-- A finite double. -/
  | real (negative : Bool) (magnitude : Magnitude)
  | string (value : String)
  | array (items : List Json)
  | object (fields : List (String × Json))

namespace Json

instance : Inhabited Json := ⟨.null⟩

/-- A number. JSON has no infinities and no `nan`, so null stands for them. -/
def ofNumber : Number → Json
  | .finite s m => real s m
  | _ => null

/-- A hexadecimal digit in lower case. -/
def hexDigit (n : Nat) : Char := if n < 10 then Char.ofNat (48 + n) else Char.ofNat (87 + n)

/-- One character between the quotes of a string. Quotes, backslashes and the control characters
    below the space must be escaped, and nothing else is. -/
def escapeChar (c : Char) : List Char :=
  if c = '"' then ['\\', '"']
  else if c = '\\' then ['\\', '\\']
  else if c = '\x08' then ['\\', 'b']
  else if c = '\t' then ['\\', 't']
  else if c = '\n' then ['\\', 'n']
  else if c = '\x0c' then ['\\', 'f']
  else if c = '\r' then ['\\', 'r']
  else if c.toNat < 0x20 then
    ['\\', 'u', '0', '0', hexDigit (c.toNat / 16), hexDigit (c.toNat % 16)]
  else [c]

/-- A string in quotes. -/
def quoted (s : String) : String := "\"" ++ (String.ofList (s.toList.flatMap escapeChar) ++ "\"")

/-- A finite double. -/
def realText (negative : Bool) (m : Magnitude) : String :=
  String.ofList (Number.signText negative ++ m.jsonText)

mutual

/-- The compact form of a value. -/
def compact : Json → String
  | null => "null"
  | bool true => "true"
  | bool false => "false"
  | count n => toString n
  | real s m => realText s m
  | string s => quoted s
  | array items => "[" ++ (joinWith "," (compactItems items) ++ "]")
  | object fields => "\x7b" ++ (joinWith "," (compactFields fields) ++ "\x7d")

/-- The items of an array. -/
def compactItems : List Json → List String
  | [] => []
  | j :: js => j.compact :: compactItems js

/-- The fields of an object. -/
def compactFields : List (String × Json) → List String
  | [] => []
  | (key, j) :: fields => (quoted key ++ (":" ++ j.compact)) :: compactFields fields

end

/-- Items of an indented list, each on a line of its own, between brackets of depth `depth`. -/
def block (depth : Nat) (opening : String) (items : List String) (closing : String) : String :=
  let line (depth : Nat) : String := "\n" ++ String.ofList (List.replicate (2 * depth) ' ')
  match items with
  | [] => opening ++ closing
  | items =>
    let inner := line (depth + 1)
    opening ++ (inner ++ (joinWith ("," ++ inner) items ++ (line depth ++ closing)))

mutual

/-- The indented form of a value that stands at the given depth. -/
def indentedAt (depth : Nat) : Json → String
  | null => "null"
  | bool true => "true"
  | bool false => "false"
  | count n => toString n
  | real s m => realText s m
  | string s => quoted s
  | array items => block depth "[" (indentedItems (depth + 1) items) "]"
  | object fields => block depth "\x7b" (indentedFields (depth + 1) fields) "\x7d"

/-- The items of an array. -/
def indentedItems (depth : Nat) : List Json → List String
  | [] => []
  | j :: js => j.indentedAt depth :: indentedItems depth js

/-- The fields of an object. -/
def indentedFields (depth : Nat) : List (String × Json) → List String
  | [] => []
  | (key, j) :: fields =>
    (quoted key ++ (": " ++ j.indentedAt depth)) :: indentedFields depth fields

end

/-- The indented form of a value. -/
def indented (j : Json) : String := j.indentedAt 0

end Json

end EL
