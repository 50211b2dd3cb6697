import EL.Text.Join

/-!
# The manual

The pages that the commands `docs` and `doc` show. The manual is part of what the program prints,
so its text is data here, line by line.
-/

set_option autoImplicit false

namespace EL.Manual

open Text (ofLines)

/-- The pages. -/
inductive Category where
  /-- Literals, variables, comments and grouping. -/
  | basics
  | operators
  | collections
  | ranges
  | switches
deriving DecidableEq

/-- The names that a page is known by; capitals in a name make no difference. -/
def Category.ofName? (name : String) : Option Category :=
  match name.toLower with
  | "syntax" | "literals" => some .basics
  | "operators" | "ops" => some .operators
  | "collections" | "arrays" | "maps" | "subscripts" => some .collections
  | "ranges" | "range" => some .ranges
  | "switches" | "switch" | "cases" => some .switches
  | _ => none

/-- The table of contents. -/
def overview : String :=
  ofLines [
    "EL DOCUMENTATION",
    "",
    "EL is a small expression language for deriving values (colors, numbers,",
    "strings, switches, ranges, collections) from named variables supplied by a",
    "host application.",
    "",
    "DOCUMENTATION CATEGORIES",
    "",
    "  syntax            Literals, variables, comments and grouping",
    "  operators         Unary and binary operators, and how they chain",
    "  collections       Array and map literals, subscripts",
    "  ranges            Bounded and half-open ranges inside brackets",
    "  switches          \x7b\x7b condition -> result, fallback \x7d\x7d expressions",
    "",
    "QUICK REFERENCE",
    "",
    "  \"text\" 'text'     String",
    "  42  1.5  .5       Number",
    "  true false null   Keywords",
    "  name              Variable",
    "  [1, 2]            Array",
    "  \x7b key: 1 \x7d        Map",
    "  list[0]           Subscript",
    "  \x7b\x7b a -> 1, 2 \x7d\x7d   Switch",
    "",
    "Run 'el doc <category>' for detailed documentation."]

/-- Literals, variables and grouping. -/
def basics : String :=
  ofLines [
    "SYNTAX - Literals, Variables and Grouping",
    "",
    "STRINGS",
    "  \"double quoted\"   'single quoted'",
    "    \\\" and \\\\ are escapes: \"say \\\"hi\\\"\". Inside single quotes \\' does not",
    "    end the string but keeps its backslash.",
    "    A string must close with the quote it opened with.",
    "",
    "NUMBERS",
    "  42    1.5    .25    2e3",
    "    All numbers are floating point. A number must be followed by whitespace,",
    "    one of ( ) \x7b \x7d [ ] , : + - * / %  or a range '..'.",
    "",
    "    Errors:",
    "      1.2.3     Malformed number literal",
    "      1e400     Malformed number literal (out of range)",
    "",
    "KEYWORDS",
    "  true  false  null",
    "    Matched before names, so 'nullable' reads as null followed by 'able'.",
    "",
    "VARIABLES",
    "  color   _flags   size2",
    "    A letter or underscore, then letters, digits or underscores. Values are",
    "    supplied by the host when the expression is evaluated.",
    "",
    "GROUPING",
    "  ( expression )",
    "    Parentheses are kept in the tree and are the only way to change how",
    "    operators group.",
    "",
    "COMMENTS",
    "  // runs to the end of the line"]

/-- Unary and binary operators. -/
def operators : String :=
  ofLines [
    "OPERATORS - Unary and Binary",
    "",
    "UNARY",
    "  +x   -x   !x   ~x",
    "    A unary operator applies to the single term right after it:",
    "      -a + b     is   (-a) + b",
    "",
    "BINARY",
    "  Arithmetic    +  -  *  /  %",
    "  Logical       &&  ||",
    "  Bitwise       &  |  ^  <<  >>",
    "  Comparison    <  <=  >  >=  ==  !=",
    "  Case          ->   (see 'el doc switches')",
    "",
    "NO PRECEDENCE",
    "  All binary operators bind equally and chain from left to right:",
    "    1 + 2 * 3          is   (1 + 2) * 3",
    "    a < b && c         is   (a < b) && c",
    "  Use parentheses to group differently:",
    "    1 + (2 * 3)",
    "",
    "  Constraints:",
    "    - '=' alone is not an operator; equality is '=='"]

/-- Arrays, maps and subscripts. -/
def collections : String :=
  ofLines [
    "COLLECTIONS - Arrays, Maps and Subscripts",
    "",
    "ARRAYS",
    "  [ 1, \"two\", x ]",
    "    Elements may also be bounded ranges: [ 1..3, 7 ].",
    "",
    "MAPS",
    "  \x7b \"key\": value, other: 2 \x7d",
    "    Keys are strings or bare names. A repeated key keeps its last value:",
    "      \x7b a: 1, a: 2 \x7d   is   \x7b a: 2 \x7d",
    "",
    "    Constraints:",
    "      - '\x7b\x7b' and '\x7d\x7d' always read as switch braces; write nested maps",
    "        with a space: \x7b a: \x7b b: 1 \x7d \x7d",
    "",
    "SUBSCRIPTS",
    "  list[0]        single index",
    "  list[0, 2]     several indices",
    "  list[1..3]     range of indices",
    "  grid[1][2]     chained, applies left to right"]

/-- Ranges. -/
def ranges : String :=
  ofLines [
    "RANGES - Inside Brackets Only",
    "",
    "  a..b     bounded range          [1..4]   list[1..4]",
    "  a..      from a to the end      list[2..]",
    "  ..b      from the start to b    list[..2]",
    "",
    "  Constraints:",
    "    - Ranges are not expressions on their own: '1..2' outside brackets is",
    "      rejected",
    "    - Half-open ranges are only allowed in subscripts",
    "    - '1..5' reads as 1, '..', 5; a single stray dot after a number is an",
    "      error"]

/-- Switches. -/
def switches : String :=
  ofLines [
    "SWITCHES - Conditional Values",
    "",
    "  \x7b\x7b condition -> result, condition -> result, fallback \x7d\x7d",
    "    Branches are kept in order. 'condition -> result' is a case; a bare",
    "    expression is a fallback. Which branch wins is decided by the evaluator.",
    "",
    "    Example:",
    "      \x7b\x7b spawnflags & 1 -> \"red\", spawnflags & 2 -> \"green\", \"white\" \x7d\x7d",
    "",
    "  \x7b\x7b\x7d\x7d",
    "    An empty switch is allowed.",
    "",
    "  Constraints:",
    "    - '->' is accepted anywhere by the parser; outside a switch the",
    "      evaluator rejects it"]

/-- The text of a page. -/
def page : Category → String
  | .basics => basics
  | .operators => operators
  | .collections => collections
  | .ranges => ranges
  | .switches => switches

end EL.Manual
