/-!
# Kinds of token

A token is classified once, when it is scanned, and everything after that decides by its `Kind`
alone. Most kinds are *symbols*: they have exactly one spelling (`Kind.spelling?`), and that
spelling in single quotes is also their name in messages. The other kinds are named for what they
are.

The order of the constructors is the order in which messages list the kinds that were expected.
-/

set_option autoImplicit false

namespace EL

/-- What a token is. -/
inductive Kind where
  /-- An identifier, the name of a variable that the host supplies. -/
  | name
  /-- A string literal. -/
  | string
  /-- A number literal. -/
  | number
  /-- One of the two truth values. -/
  | boolean
  /-- The null literal. -/
  | null
  /-- Opens an array or a subscript. -/
  | openBracket
  | closeBracket
  /-- Opens a map. -/
  | openBrace
  | closeBrace
  | openParen
  | closeParen
  | plus
  | minus
  | star
  | slash
  | percent
  /-- Stands between a key and its value. -/
  | colon
  | comma
  /-- Two dots, between or beside the bounds of a range. -/
  | range
  | exclamation
  | andAnd
  | orOr
  | less
  | lessOrEqual
  | equal
  | notEqual
  | greaterOrEqual
  | greater
  /-- Stands between the condition and the result of a case. -/
  | arrow
  | tilde
  | ampersand
  | pipe
  | caret
  | shiftLeft
  | shiftRight
  /-- Opens a switch. -/
  | openSwitch
  | closeSwitch
  /-- What a scan yields when nothing is left. -/
  | endOfInput
deriving DecidableEq

namespace Kind

/-- Every kind, once, in the order of messages. -/
def all : List Kind :=
  [name, string, number, boolean, null, openBracket, closeBracket, openBrace, closeBrace,
   openParen, closeParen, plus, minus, star, slash, percent, colon, comma, range, exclamation,
   andAnd, orOr, less, lessOrEqual, equal, notEqual, greaterOrEqual, greater, arrow, tilde,
   ampersand, pipe, caret, shiftLeft, shiftRight, openSwitch, closeSwitch, endOfInput]

theorem mem_all (k : Kind) : k ∈ all := by cases k <;> decide

theorem nodup_all : all.Nodup := by decide

/-- The one spelling of a symbol. -/
def spelling? : Kind → Option (List Char)
  | openBracket => some ['[']
  | closeBracket => some [']']
  | openBrace => some ['{']
  | closeBrace => some ['}']
  | openParen => some ['(']
  | closeParen => some [')']
  | plus => some ['+']
  | minus => some ['-']
  | star => some ['*']
  | slash => some ['/']
  | percent => some ['%']
  | colon => some [':']
  | comma => some [',']
  | range => some ['.', '.']
  | exclamation => some ['!']
  | andAnd => some ['&', '&']
  | orOr => some ['|', '|']
  | less => some ['<']
  | lessOrEqual => some ['<', '=']
  | equal => some ['=', '=']
  | notEqual => some ['!', '=']
  | greaterOrEqual => some ['>', '=']
  | greater => some ['>']
  | arrow => some ['-', '>']
  | tilde => some ['~']
  | ampersand => some ['&']
  | pipe => some ['|']
  | caret => some ['^']
  | shiftLeft => some ['<', '<']
  | shiftRight => some ['>', '>']
  | openSwitch => some ['{', '{']
  | closeSwitch => some ['}', '}']
  | name | string | number | boolean | null | endOfInput => none

/-- The name of a kind in messages. -/
def describe (k : Kind) : String :=
  match k.spelling? with
  | some cs => String.ofList ('\'' :: cs ++ ['\''])
  | none =>
    match k with
    | name => "variable"
    | string => "string"
    | number => "number"
    | boolean => "boolean"
    | null => "'null'"
    | _ => "end of file"

/-- The symbols, those of two characters before those of one. Scanning takes the first that the
    text begins with, and so never half of a longer one. -/
def symbols : List (Kind × List Char) :=
  let spelled := all.filterMap fun k => k.spelling?.map (k, ·)
  spelled.filter (·.2.length = 2) ++ spelled.filter (·.2.length = 1)

/-- The words that are read as something else than a name. -/
def keywords : List (Kind × List Char) :=
  [(boolean, ['t', 'r', 'u', 'e']), (boolean, ['f', 'a', 'l', 's', 'e']),
   (null, ['n', 'u', 'l', 'l'])]

end Kind

end EL
