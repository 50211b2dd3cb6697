import EL.Error
import EL.Expr.Basic

/-!
# Parser states: what has been read, and what may come next

The parser reads an expression **one token at a time, with one token of lookahead and without
ever going back**. All that it has to remember is a `State`: what it is about to read (`Goal`), the
chain of operands that this belongs to (`Chain`), and the brackets that are open around it, each
with the chain that it interrupts (`Frame`).

## Chains

Between two brackets stands a chain: operands with binary operators between them, folded from the
left as they are read. An operand is a simple term or a switch, with signs in front of it. When an
operand is complete, its signs are applied from the inside out and the result becomes the right
operand of the operator before it (`Chain.complete`).

## Two kinds of parentheses

Parentheses where an expression begins belong to its chain: what follows the closing one continues
that chain, and they cannot be subscripted. Parentheses anywhere else are part of an operand, and
**operators that follow the closing one belong to that operand**, up to the first token that is no
operator; `closedGroup` is the frame of such a chain. So `a - (b) - c` is read as `a - ((b) - c)`,
and in `-(a) + b` the sign applies to the sum.

## Depth

The depth of an operand is the number of operands it stands in, itself included; a sign begins
another operand. Parentheses where an expression begins add nothing.
-/

set_option autoImplicit false

namespace EL.Parser

/-- The chain that an operand belongs to, as far as it has been read. -/
structure Chain where
  /-- The operands before this one, folded, with the operator after them and its place. -/
  left : Option (Expr × BinaryOp × Location)
  /-- The signs in front of the operand with their places, the innermost first. -/
  signs : List (UnaryOp × Location)
  /-- How many operands the chain stands in. -/
  base : Nat

namespace Chain

/-- A chain of which nothing has been read. -/
def fresh (base : Nat) : Chain := ⟨none, [], base⟩

/-- The depth of the operand that is being read. -/
def depth (c : Chain) : Nat := c.base + c.signs.length + 1

/-- Applies signs, the first of the list first. -/
def applySigns (signs : List (UnaryOp × Location)) (e : Expr) : Expr :=
  signs.foldl (fun e s => .unary s.1 e s.2) e

/-- The chain up to and including the operand that is being read, once that is known. -/
def complete (c : Chain) (operand : Expr) : Expr :=
  let e := applySigns c.signs operand
  match c.left with
  | none => e
  | some (left, op, loc) => .binary op left e loc

end Chain

/-- What a list of items is. -/
inductive Shape where
  | array
  | switch
  /-- The indices of a subscript on `target`. -/
  | index (target : Expr)

/-- A list of items that has been opened, as far as it has been read. -/
structure Listing where
  /-- What the items are items of. -/
  shape : Shape
  /-- Where the list was opened. -/
  loc : Location
  /-- The items read so far, the last one first. -/
  done : List Expr

namespace Listing

/-- The list with one more item. -/
def add (l : Listing) (e : Expr) : Listing := { l with done := e :: l.done }

/-- The items in the order they are written in. -/
def items (l : Listing) : List Expr := l.done.reverse

/-- The token that ends the list. -/
def closer (l : Listing) : Kind :=
  match l.shape with
  | .array | .index _ => .closeBracket
  | .switch => .closeSwitch

/-- The index node of a subscript: a single index stays as it is, and otherwise the indices are
    collected in an array. -/
def collected (l : Listing) : Expr :=
  match l.items with
  | [e] => e
  | es => .array es l.loc

end Listing

/-- What precedes the expression that is being read in an item of a list. -/
inductive Bound where
  /-- Nothing; the item begins with the expression. -/
  | absent
  /-- A lower bound and the dots after it. -/
  | lower (e : Expr) (loc : Location)
  /-- Dots, without a lower bound. -/
  | dots (loc : Location)

/-- The item, once its last expression is known. -/
def Bound.complete (e : Expr) : Bound → Expr
  | absent => e
  | lower l loc => .binary .boundedRange l e loc
  | dots loc => .unary .rightBoundedRange e loc

/-- A map that has been opened, as far as it has been read. -/
structure Entries where
  /-- Where the map was opened. -/
  loc : Location
  /-- The entries read so far, ordered by key. -/
  done : List (String × Expr)

/-- An open bracket, with what was read since it was opened. -/
inductive Bracket where
  /-- Parentheses, either those of an operand or those that begin an expression. -/
  | group (loc : Location) (asOperand : Bool)
  /-- The operators and operands after the parentheses of an operand. -/
  | closedGroup
  /-- An item of a list. -/
  | item (l : Listing) (bound : Bound)
  /-- The value of an entry of a map. -/
  | value (m : Entries) (key : String)

/-- An open bracket and the chain in which it stands as an operand, or as a part of one. -/
structure Frame where
  bracket : Bracket
  outer : Chain

/-- What is read next. -/
inductive Goal where
  /-- An expression from its beginning. -/
  | expression
  /-- An operand. -/
  | operand
  /-- What follows a simple term: a subscript, or what follows the operand. -/
  | afterSimple (e : Expr)
  /-- What follows an operand, given the folded chain up to there. -/
  | afterOperand (e : Expr)
  /-- The first item of a list, or its end. -/
  | firstItem (l : Listing)
  /-- Another item of a list. -/
  | item (l : Listing)
  /-- The upper bound of a range in a subscript, or what follows a range without one. -/
  | upperBound (l : Listing) (e : Expr) (loc : Location)
  /-- The first key of a map, or its end. -/
  | firstKey (m : Entries)
  /-- Another key of a map. -/
  | key (m : Entries)
  /-- The colon after a key. -/
  | colon (m : Entries) (key : String)

/-- Is the next token taken at once, rather than looked at first? That makes a difference only
    where no token can be read: then the text up to there counts as read. -/
def Goal.takesBlindly : Goal → Bool
  | key _ | colon _ _ => true
  | _ => false

/-- A parser between two tokens. -/
structure State where
  /-- What is read next. -/
  goal : Goal
  /-- The chain that it belongs to. In the goals of lists and maps this is the chain that the
      list or the map is an operand of. -/
  chain : Chain
  /-- The open brackets, the innermost first. -/
  stack : List Frame

/-- The parser before the first token. -/
def State.initial : State := ⟨.expression, .fresh 0, []⟩

end EL.Parser
