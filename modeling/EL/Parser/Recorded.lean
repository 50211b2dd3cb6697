import EL.Parser.Descent

/-!
# Recursive descent with a record

Recursive descent ends only if it does not go round in circles: no procedure may come to call itself
before a token was taken, and no loop may turn without taking one. What a procedure answers does not
show that, so here are the procedures once more, with **a record of what they do on the way**. It has
every answer to a request for a token, every call with the calls that were active then, and every
turn of a loop.

The record is written and never read. That it changes no answer is proved along with what is in it
(`Recorded.root_eq`).
-/

set_option autoImplicit false

namespace EL

namespace Parser

/-- The procedures that phrases are parsed by. -/
inductive Procedure where
  | expression | groupedTerm | term | compoundTerm | operand | subscripted | simpleTerm | subscript
  | list | element | index | var | literal | array | map | unary | switch
deriving DecidableEq

/-- A call of a procedure. -/
structure Call where
  /-- What was called. -/
  procedure : Procedure
  /-- How many tokens had been taken by then. -/
  taken : Nat

/-- Is it a token that was read, and not the end of input or an error? -/
def isToken : Except ParseError Token → Bool
  | .ok t => t.kind ≠ .endOfInput
  | .error _ => false

/-- What procedures have done. -/
structure Record where
  /-- The answers to the requests for a token, the first one first. Looking ahead is none. -/
  answers : List (Except ParseError Token) := []
  /-- The calls that have not returned, the innermost first. -/
  active : List Call := []
  /-- All calls, each with those that were active. -/
  calls : List (Call × List Call) := []
  /-- The turns of loops that were completed: how many tokens had been taken before and after. -/
  turns : List (Nat × Nat) := []

namespace Record

/-- How many tokens have been taken. -/
def taken (k : Record) : Nat := k.answers.countP isToken

/-- With one more answer. -/
def read (a : Except ParseError Token) (k : Record) : Record :=
  { k with answers := k.answers ++ [a] }

/-- With one more call, which is active. -/
def enter (p : Procedure) (k : Record) : Record :=
  { k with
    active := ⟨p, k.taken⟩ :: k.active
    calls := (⟨p, k.taken⟩, k.active) :: k.calls }

/-- With the calls that are active in another record. -/
def leave (before k : Record) : Record := { k with active := before.active }

/-- With one more turn, which began with another record. -/
def turned (before k : Record) : Record :=
  { k with turns := (before.taken, k.taken) :: k.turns }

end Record

/-- An action of a reader that is recorded. -/
def Recorded (α : Type) : Type :=
  Record → Reader → Option (Except ParseError α × Reader × Record)

namespace Recorded

variable {α β : Type}

instance : Monad Recorded where
  pure a := fun k r => some (.ok a, r, k)
  bind f g := fun k r =>
    match f k r with
    | some (.ok a, r', k') => g a k' r'
    | some (.error x, r', k') => some (.error x, r', k')
    | none => none

/-- An action that takes no token and calls nothing. -/
def quiet (f : Proc α) : Recorded α := fun k r => (f r).map fun x => (x.1, x.2, k)

/-- Takes a token. -/
def next : Recorded Token := fun k r =>
  some (r.cursor.next.1, { r with cursor := r.cursor.next.2 }, k.read r.cursor.next.1)

/-- A call of a procedure. It is active until it returns. -/
def call (p : Procedure) (body : Recorded α) : Recorded α := fun k r =>
  (body (k.enter p) r).map fun x => (x.1, x.2.1, k.leave x.2.2)

/-- A turn of a loop, which is completed unless it fails. -/
def turn (body : Recorded α) : Recorded α := fun k r =>
  (body k r).map fun x =>
    match x with
    | (.ok a, r', k') => (.ok a, r', k.turned k')
    | (.error e, r', k') => (.error e, r', k')

/-- An action one operand deeper, as `Proc.nested`. -/
def nested (body : Recorded α) : Recorded α := fun k r =>
  (body k { r with depth := r.depth + 1 }).map fun x =>
    (x.1, { x.2.1 with depth := x.2.1.depth - 1 }, x.2.2)

/-- Repeats an action at most so many times, until it yields a result. -/
def loop (body : α → Recorded (α ⊕ β)) : Nat → α → Recorded β
  | 0, _ => fun _ _ => none
  | n + 1, a => do
    match ← body a with
    | .inl a => loop body n a
    | .inr b => return b

/-- Repeats an action that reads a token each time. -/
def repeated (body : α → Recorded (α ⊕ β)) (a : α) : Recorded β := fun k r =>
  loop body (r.cursor.rest.length + 1) a k r

/-- Fails, where the reader is. -/
def fail (x : ParseError) : Recorded α := quiet (Proc.fail x)

/-- Looks at a token. -/
def peek : Recorded Token := quiet Proc.peek

/-- Is the next token one of a set? -/
def check (set : TokenSet) : Recorded Bool := quiet (Proc.check set)

/-- Fails unless a token is one of a set. -/
def expect (set : TokenSet) (t : Token) : Recorded Unit := quiet (Proc.expect set t)

/-! ## The procedures -/

section
variable (operand : Recorded Expr)

/-- Chains operators and operands onto what was read. -/
def compoundTerm (lhs : Expr) : Recorded Expr :=
  call .compoundTerm <| repeated (fun lhs => do
    if ← check .chaining then turn do
      let t ← next
      match BinaryOp.ofKind? t.kind with
      | some op =>
        let rhs ← operand
        return .inl (.binary op lhs rhs t.location)
      | none =>
        fail ⟨.host .syntactic s!"Unhandled binary operator: {t.kind.describe}", t.location, none⟩
    else return .inr lhs) lhs

/-- A chain of operands. -/
def term : Recorded Expr := call .term do
  let t ← peek
  expect .operand t
  let lhs ← operand
  compoundTerm operand lhs

/-- Parentheses, and the chain that they begin. -/
def groupedTerm : Recorded Expr := call .groupedTerm do
  let t ← next
  expect {.openParen} t
  let e ← term operand
  let close ← next
  expect {.closeParen} close
  compoundTerm operand (.unary .group e t.location)

/-- An expression. -/
def expression : Recorded Expr := call .expression do
  if ← check {.openParen} then groupedTerm operand else term operand

/-- Items with commas between them, up to the closing bracket. -/
def list (close : Kind) (item : Recorded Expr) : Recorded (List Expr) := call .list do
  if ← check {close} then
    let _ ← next
    return []
  else
    repeated (fun done => turn do
      let e ← item
      let t ← next
      expect {.comma, close} t
      if t.kind = close then return .inr (e :: done).reverse
      else return .inl (e :: done)) []

/-- An element of an array: an expression, or a range with both bounds. -/
def element : Recorded Expr := call .element do
  let e ← expression operand
  if ← check {.range} then
    let t ← next
    let upper ← expression operand
    return .binary .boundedRange e upper t.location
  else return e

/-- An index of a subscript: an expression, or a range with one bound at least. -/
def index : Recorded Expr := call .index do
  if ← check {.range} then
    let t ← next
    let upper ← expression operand
    return .unary .rightBoundedRange upper t.location
  else
    let e ← expression operand
    if ← check {.range} then
      let t ← next
      if ← check .simpleTerm then
        let upper ← expression operand
        return .binary .boundedRange e upper t.location
      else return .unary .leftBoundedRange e t.location
    else return e

/-- A subscript on what was read. -/
def subscript (target : Expr) : Recorded Expr := call .subscript do
  let t ← next
  expect {.openBracket} t
  let es ← list .closeBracket (index operand)
  return .subscript target (Listing.collected ⟨.index target, t.location, es.reverse⟩) t.location

/-- An array. -/
def array : Recorded Expr := call .array do
  let t ← next
  expect {.openBracket} t
  let es ← list .closeBracket (element operand)
  return .array es t.location

/-- A switch. Its first branch cannot begin with a switch. -/
def switch : Recorded Expr := call .switch do
  let t ← next
  expect {.openSwitch} t
  let first ← peek
  expect (.simpleTerm ∪ {.closeSwitch}) first
  let es ← list .closeSwitch (expression operand)
  return .switch es t.location

/-- A key. -/
def key : Recorded String := do
  let t ← next
  expect {.name, .string} t
  return if t.kind = .string then Text.unescapeString t.text else t.text

/-- Entries with commas between them, up to the closing brace. -/
def entries : Recorded (List (String × Expr)) := do
  if ← check {.closeBrace} then
    let _ ← next
    return []
  else
    repeated (fun m => turn do
      let k ← key
      let colon ← next
      expect {.colon} colon
      let e ← expression operand
      let t ← next
      expect {.comma, .closeBrace} t
      if t.kind = .closeBrace then return .inr (Expr.insertEntry k e m)
      else return .inl (Expr.insertEntry k e m)) []

/-- A map. -/
def map : Recorded Expr := call .map do
  let t ← next
  expect {.openBrace} t
  let m ← entries operand
  return .map m t.location

/-- A literal, an array or a map. -/
def literal : Recorded Expr := call .literal do
  let t ← peek
  expect (.literal ∪ {.openBracket, .openBrace}) t
  if t.kind = .openBracket then array operand
  else if t.kind = .openBrace then map operand
  else
    let v ← quiet (Descent.value t)
    let _ ← next
    return .literal v t.location

/-- A variable. -/
def var : Recorded Expr := call .var do
  let t ← next
  expect {.name} t
  return .var t.text t.location

/-- A sign and its operand. -/
def unary : Recorded Expr := call .unary do
  let t ← next
  expect .sign t
  match UnaryOp.ofKind? t.kind with
  | some op =>
    let e ← operand
    return .unary op e t.location
  | none =>
    fail ⟨.host .syntactic s!"Unhandled unary operator: {t.kind.describe}", t.location, none⟩

/-- A simple term. -/
def simpleTerm : Recorded Expr := call .simpleTerm do
  let t ← peek
  expect .simpleTerm t
  if t.kind ∈ TokenSet.sign then unary operand
  else if t.kind = .openParen then groupedTerm operand
  else if t.kind = .name then var
  else literal operand

/-- A simple term with its subscripts. -/
def subscripted : Recorded Expr := call .subscripted do
  let e ← simpleTerm operand
  repeated (fun e => do
    if ← check {.openBracket} then turn do
      let e ← subscript operand e
      return .inl e
    else return .inr e) e

end

/-- An operand, with at most so many operands inside one another. -/
def operand (limit : Option Nat) : Nat → Recorded Expr
  | 0 => fun _ _ => none
  | n + 1 => call .operand do
    let t ← peek
    expect .operand t
    nested do
      quiet (Proc.checkDepth limit t)
      if t.kind ∈ TokenSet.simpleTerm then subscripted (operand limit n)
      else switch (operand limit n)

/-- An expression that is parsed by itself. -/
def root (o : ParseOptions) : Recorded Expr := fun k r =>
  (do
    let e ← expression (operand o.limit (r.cursor.rest.length + 1))
    quiet (Descent.ending o.mode)
    return e : Recorded Expr) k r

end Recorded

end Parser

end EL
