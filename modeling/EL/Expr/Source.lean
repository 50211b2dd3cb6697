import EL.Expr.Basic
import EL.Number.Layout
import EL.Text.Escape
import EL.Text.Join

/-!
# Trees as EL source

A tree is printed in one layout whatever the text it was read from looked like: one space around
binary operators and inside brackets, string literals in double quotes, map keys as string
literals and in order. Nothing is added that was not there. Parentheses in particular are nodes of
the tree, so printing never has to decide whether they are needed.

One case needs a decision. An index list is kept as an array node, and printing the brackets of
that node inside those of the subscript would turn several indices into a single one. So they are
left out, **unless the array has exactly one item**: an index list never has one, so such a node
was written as an array.
-/

set_option autoImplicit false

namespace EL.Expr

open Text (joinWith)

/-- Text between double quotes, escaped. -/
def quoted (s : String) : String := "\"" ++ (Text.escapeString s ++ "\"")

/-- A literal in EL source. -/
def literalSource : Literal → String
  | .string s => quoted s
  | .number n => String.ofList n.sourceText
  | .boolean true => "true"
  | .boolean false => "false"
  | .null => "null"

/-- Items in brackets with spaces inside, or a pair of brackets with nothing between. -/
def bracketed (opening : String) (items : List String) (closing : String) : String :=
  match items with
  | [] => opening ++ closing
  | items => opening ++ (" " ++ (joinWith ", " items ++ (" " ++ closing)))

/-- A unary operator and its operand. -/
def unarySource (op : UnaryOp) (operand : String) : String :=
  match op with
  | .plus => "+" ++ operand
  | .minus => "-" ++ operand
  | .logicalNegation => "!" ++ operand
  | .bitwiseNegation => "~" ++ operand
  | .group => "( " ++ (operand ++ " )")
  | .leftBoundedRange => operand ++ ".."
  | .rightBoundedRange => ".." ++ operand

/-- A binary operator and its operands; the bounds of a range stand close to it. -/
def binarySource (op : BinaryOp) (left right : String) : String :=
  match op with
  | .boundedRange => left ++ (".." ++ right)
  | op => left ++ (" " ++ (op.symbol ++ (" " ++ right)))

/-- Indices between the brackets of a subscript. -/
def indexList (items : List String) : String :=
  match items with
  | [e] => bracketed "[" [e] "]"
  | items => joinWith ", " items

mutual

/-- A tree in EL source. -/
def source : Expr → String
  | literal v _ => literalSource v
  | var name _ => name
  | unary op e _ => unarySource op e.source
  | binary op a b _ => binarySource op a.source b.source
  | array es _ => bracketed "[" (listSource es) "]"
  | map kvs _ => bracketed "\x7b" (entriesSource kvs) "\x7d"
  | switch es _ => bracketed "\x7b\x7b" (listSource es) "\x7d\x7d"
  | subscript target (array es _) _ =>
    target.source ++ ("[" ++ (indexList (listSource es) ++ "]"))
  | subscript target index _ => target.source ++ ("[" ++ (index.source ++ "]"))

/-- The trees of a list in EL source. -/
def listSource : List Expr → List String
  | [] => []
  | e :: es => e.source :: listSource es

/-- The entries of a map in EL source. -/
def entriesSource : List (String × Expr) → List String
  | [] => []
  | (key, e) :: kvs => (quoted key ++ (": " ++ e.source)) :: entriesSource kvs

end

end EL.Expr
