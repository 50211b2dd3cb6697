import EL.Token.Kind

/-!
# Operators

Each operator has one token, and which operator a token stands for depends on where it stands:
`-` is a negation in front of an operand and a subtraction between two of them. Grouping and the
half-open ranges are unary operators as well, though no token of theirs is read in front of an
operand; they come from brackets, and so does the bounded range among the binary ones.

Binary operators have no precedence. All of them bind equally tight and chain from left to right.
-/

set_option autoImplicit false

namespace EL

/-- Operators with one operand. -/
inductive UnaryOp where
  | plus
  | minus
  | logicalNegation
  | bitwiseNegation
  /-- Parentheses around an expression. -/
  | group
  /-- A range without an upper bound. -/
  | leftBoundedRange
  /-- A range without a lower bound. -/
  | rightBoundedRange
deriving DecidableEq

namespace UnaryOp

/-- The operator that a token stands for in front of an operand. -/
def ofKind? : Kind → Option UnaryOp
  | .plus => some plus
  | .minus => some minus
  | .exclamation => some logicalNegation
  | .tilde => some bitwiseNegation
  | _ => none

/-- The name of an operator in descriptions of trees. -/
def name : UnaryOp → String
  | plus => "Plus"
  | minus => "Minus"
  | logicalNegation => "LogicalNegation"
  | bitwiseNegation => "BitwiseNegation"
  | group => "Group"
  | leftBoundedRange => "LeftBoundedRange"
  | rightBoundedRange => "RightBoundedRange"

/-- Every unary operator. -/
def all : List UnaryOp :=
  [plus, minus, logicalNegation, bitwiseNegation, group, leftBoundedRange, rightBoundedRange]

end UnaryOp

/-- Operators with two operands. -/
inductive BinaryOp where
  | addition
  | subtraction
  | multiplication
  | division
  | modulus
  | logicalAnd
  | logicalOr
  | bitwiseAnd
  | bitwiseOr
  | bitwiseXor
  | shiftLeft
  | shiftRight
  | less
  | lessOrEqual
  | greater
  | greaterOrEqual
  | equal
  | notEqual
  /-- A range with both bounds. -/
  | boundedRange
  /-- A condition and its result, meant as a branch of a switch. -/
  | case
deriving DecidableEq

namespace BinaryOp

/-- The token that an operator is written with. -/
def kind : BinaryOp → Kind
  | addition => .plus
  | subtraction => .minus
  | multiplication => .star
  | division => .slash
  | modulus => .percent
  | logicalAnd => .andAnd
  | logicalOr => .orOr
  | bitwiseAnd => .ampersand
  | bitwiseOr => .pipe
  | bitwiseXor => .caret
  | shiftLeft => .shiftLeft
  | shiftRight => .shiftRight
  | less => .less
  | lessOrEqual => .lessOrEqual
  | greater => .greater
  | greaterOrEqual => .greaterOrEqual
  | equal => .equal
  | notEqual => .notEqual
  | boundedRange => .range
  | case => .arrow

/-- The operators that chain operands, which is all of them but the bounded range. -/
def chaining : List BinaryOp :=
  [addition, subtraction, multiplication, division, modulus, logicalAnd, logicalOr, bitwiseAnd,
   bitwiseOr, bitwiseXor, shiftLeft, shiftRight, less, lessOrEqual, greater, greaterOrEqual, equal,
   notEqual, case]

/-- Every binary operator. -/
def all : List BinaryOp := boundedRange :: chaining

/-- The operator that a token stands for between two operands. -/
def ofKind? (k : Kind) : Option BinaryOp := chaining.find? (·.kind = k)

/-- How an operator is written. -/
def symbol (op : BinaryOp) : String := String.ofList (op.kind.spelling?.getD [])

/-- The name of an operator in descriptions of trees. -/
def name : BinaryOp → String
  | addition => "Addition"
  | subtraction => "Subtraction"
  | multiplication => "Multiplication"
  | division => "Division"
  | modulus => "Modulus"
  | logicalAnd => "LogicalAnd"
  | logicalOr => "LogicalOr"
  | bitwiseAnd => "BitwiseAnd"
  | bitwiseOr => "BitwiseOr"
  | bitwiseXor => "BitwiseXOr"
  | shiftLeft => "BitwiseShiftLeft"
  | shiftRight => "BitwiseShiftRight"
  | less => "Less"
  | lessOrEqual => "LessOrEqual"
  | greater => "Greater"
  | greaterOrEqual => "GreaterOrEqual"
  | equal => "Equal"
  | notEqual => "NotEqual"
  | boundedRange => "BoundedRange"
  | case => "Case"

/-- A chaining operator is the one that its own token stands for. -/
theorem ofKind?_kind {op : BinaryOp} (h : op ≠ boundedRange) : ofKind? op.kind = some op := by
  cases op <;> first | rfl | exact absurd rfl h

end BinaryOp

end EL
