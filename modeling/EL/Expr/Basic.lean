import EL.Location
import EL.Number.Basic
import EL.Operator

/-!
# Expressions

The tree of an expression. Every node carries the place of the token that stands for it: a literal
or a name itself, the operator of a unary or binary node, the opening bracket of everything in
brackets. Places are for messages and tools; two trees are equal (`EL.Expr.Same`) if they differ
in nothing but places.

The entries of a map are kept in the order of their keys, each key once. `insertEntry` keeps them
so, and the last entry written for a key is the one that stays.
-/

set_option autoImplicit false

namespace EL

/-- The value of a literal. -/
inductive Literal where
  /-- A string, escapes read. -/
  | string (value : String)
  /-- A number. There is one type of number; whole numbers are doubles as well. -/
  | number (value : Number)
  | boolean (value : Bool)
  | null
deriving DecidableEq

namespace Literal

/-- Equality of values. Numbers are compared as numbers. -/
def same : Literal → Literal → Bool
  | string a, string b => a = b
  | number a, number b => a.same b
  | boolean a, boolean b => a = b
  | null, null => true
  | _, _ => false

end Literal

/-- An expression. -/
inductive Expr where
  | literal (value : Literal) (loc : Location)
  /-- A variable, whose value the host knows. -/
  | var (name : String) (loc : Location)
  /-- A sign in front of an operand, parentheses around it, or a range with one bound. -/
  | unary (op : UnaryOp) (operand : Expr) (loc : Location)
  /-- Two operands of a chain, or the bounds of a range. -/
  | binary (op : BinaryOp) (left right : Expr) (loc : Location)
  /-- Items in brackets, which may be ranges. -/
  | array (items : List Expr) (loc : Location)
  /-- Keys with their values, ordered by key. -/
  | map (entries : List (String × Expr)) (loc : Location)
  /-- Branches, usually cases and a fallback, in the order they are written in. -/
  | switch (branches : List Expr) (loc : Location)
  /-- Access to a part of `target`. Several indices are collected in an array. -/
  | subscript (target index : Expr) (loc : Location)

namespace Expr

instance : Inhabited Expr := ⟨.literal .null .origin⟩

/-- The place of the token that stands for a node. -/
def location : Expr → Location
  | literal _ l | var _ l | unary _ _ l | binary _ _ _ l | array _ l | map _ l | switch _ l
  | subscript _ _ l => l

/-- The nodes directly below a node, map values in the order of their keys. -/
def children : Expr → List Expr
  | literal _ _ | var _ _ => []
  | unary _ operand _ => [operand]
  | binary _ left right _ => [left, right]
  | array items _ | switch items _ => items
  | map entries _ => entries.map (·.2)
  | subscript target index _ => [target, index]

/-- A word for what a node is. -/
def form : Expr → String
  | literal (.string _) _ => "string"
  | literal (.number _) _ => "number"
  | literal (.boolean _) _ => "boolean"
  | literal .null _ => "null"
  | var _ _ => "variable"
  | unary _ _ _ => "unary"
  | binary _ _ _ _ => "binary"
  | array _ _ => "array"
  | map _ _ => "map"
  | switch _ _ => "switch"
  | subscript _ _ _ => "subscript"

/-! ## All nodes -/

mutual

/-- A node and all nodes below it, each after the one it belongs to and with its depth, which is
    that of the first plus the number of steps down. -/
def nodesFrom (depth : Nat) : Expr → List (Nat × Expr)
  | literal v l => [(depth, literal v l)]
  | var n l => [(depth, var n l)]
  | unary op e l => (depth, unary op e l) :: e.nodesFrom (depth + 1)
  | binary op a b l =>
    (depth, binary op a b l) :: (a.nodesFrom (depth + 1) ++ b.nodesFrom (depth + 1))
  | array es l => (depth, array es l) :: listNodesFrom (depth + 1) es
  | map kvs l => (depth, map kvs l) :: entryNodesFrom (depth + 1) kvs
  | switch es l => (depth, switch es l) :: listNodesFrom (depth + 1) es
  | subscript a b l =>
    (depth, subscript a b l) :: (a.nodesFrom (depth + 1) ++ b.nodesFrom (depth + 1))

/-- All nodes of the trees in a list. -/
def listNodesFrom (depth : Nat) : List Expr → List (Nat × Expr)
  | [] => []
  | e :: es => e.nodesFrom depth ++ listNodesFrom depth es

/-- All nodes of the values of a map. -/
def entryNodesFrom (depth : Nat) : List (String × Expr) → List (Nat × Expr)
  | [] => []
  | (_, e) :: kvs => e.nodesFrom depth ++ entryNodesFrom depth kvs

end

/-- All nodes of a tree with their depths, the root first. -/
def nodes (e : Expr) : List (Nat × Expr) := e.nodesFrom 0

/-! ## Map entries -/

/-- Adds an entry to entries ordered by key, in place of the one with the same key if there is
    one. -/
def insertEntry (key : String) (value : Expr) : List (String × Expr) → List (String × Expr)
  | [] => [(key, value)]
  | (k, v) :: r =>
    if key < k then (key, value) :: (k, v) :: r
    else if key = k then (key, value) :: r
    else (k, v) :: insertEntry key value r

/-- The entries of a list ordered by key, the last of those with the same key. -/
def entriesOfList (kvs : List (String × Expr)) : List (String × Expr) :=
  kvs.foldl (fun acc kv => insertEntry kv.1 kv.2 acc) []

end Expr

end EL
