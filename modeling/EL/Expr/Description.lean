import EL.Expr.Basic
import EL.Json

/-!
# Trees as JSON

Tools read trees as JSON. Every node is an object with its type, its place, and one field for each
of its parts; the fields are listed by key. The description leaves nothing out, so two trees that
differ in a part, an operator, a name or a place are described differently; only numbers that are
not finite, which no text yields, have no JSON of their own.
-/

set_option autoImplicit false

namespace EL.Expr

/-- The value of a literal. -/
def literalJson : Literal → Json
  | .string s => .string s
  | .number n => .ofNumber n
  | .boolean b => .bool b
  | .null => .null

mutual

/-- The description of a tree. -/
def toJson : Expr → Json
  | literal v l =>
    .object [("column", .count l.column), ("line", .count l.line), ("type", .string "literal"),
      ("value", literalJson v)]
  | var name l =>
    .object [("column", .count l.column), ("line", .count l.line), ("name", .string name),
      ("type", .string "variable")]
  | unary op e l =>
    .object [("column", .count l.column), ("line", .count l.line), ("op", .string op.name),
      ("operand", e.toJson), ("type", .string "unary")]
  | binary op a b l =>
    .object [("column", .count l.column), ("left", a.toJson), ("line", .count l.line),
      ("op", .string op.name), ("right", b.toJson), ("type", .string "binary")]
  | array es l =>
    .object [("column", .count l.column), ("elements", .array (listToJson es)),
      ("line", .count l.line), ("type", .string "array")]
  | map kvs l =>
    .object [("column", .count l.column), ("entries", .object (entriesToJson kvs)),
      ("line", .count l.line), ("type", .string "map")]
  | switch es l =>
    .object [("branches", .array (listToJson es)), ("column", .count l.column),
      ("line", .count l.line), ("type", .string "switch")]
  | subscript a b l =>
    .object [("column", .count l.column), ("index", b.toJson), ("line", .count l.line),
      ("target", a.toJson), ("type", .string "subscript")]

/-- The descriptions of the trees in a list. -/
def listToJson : List Expr → List Json
  | [] => []
  | e :: es => e.toJson :: listToJson es

/-- The descriptions of the values of a map, under their keys. -/
def entriesToJson : List (String × Expr) → List (String × Json)
  | [] => []
  | (key, e) :: kvs => (key, e.toJson) :: entriesToJson kvs

end

end EL.Expr
