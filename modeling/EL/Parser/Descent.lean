import EL.Parser.Run

/-!
# Parsing by recursive descent

The grammar can also be followed by procedures, one for each phrase, that call one another and read
tokens as they go. What a run keeps in a state and a stack is then in the procedures that have been
called and not yet returned.

A procedure acts on a `Reader`, which is a cursor and **a counter of the operands it is in**. The
counter goes up where an operand begins and down where it ends, and nothing restores it but the
procedure that raised it: if it were forgotten on the way out of an error, a parser used a second
time would begin with less depth than it has. Nested phrases all pass through `Descent.operand`, so
this is the one procedure that counts, and also the one that is recursive.

A procedure returns nothing if it runs out of the budget that its repetitions are given. The length
of the text is enough for all of them.
-/

set_option autoImplicit false

namespace EL

namespace Parser

/-- Something that reads tokens. -/
structure Reader where
  /-- Where it is. -/
  cursor : Cursor
  /-- How many operands it is in. -/
  depth : Nat

/-- An action of a reader, which may fail. Either way it leaves the reader somewhere. -/
def Proc (α : Type) : Type := Reader → Option (Except ParseError α × Reader)

namespace Proc

variable {α β : Type}

instance : Monad Proc where
  pure a := fun r => some (.ok a, r)
  bind f g := fun r =>
    match f r with
    | some (.ok a, r') => g a r'
    | some (.error x, r') => some (.error x, r')
    | none => none

/-- Fails, where the reader is. -/
def fail (x : ParseError) : Proc α := fun r => some (.error x, r)

/-- Reads a token. -/
def next : Proc Token := fun r => some (r.cursor.next.1, { r with cursor := r.cursor.next.2 })

/-- Looks at a token. -/
def peek : Proc Token := fun r => some (r.cursor.peek, r)

/-- Is the next token one of a set? -/
def check (set : TokenSet) : Proc Bool := do
  let t ← peek
  return t.kind ∈ set

/-- Fails unless a token is one of a set. -/
def expect (set : TokenSet) (t : Token) : Proc Unit :=
  if t.kind ∈ set then pure () else fail (.expected set t)

/-- Fails if the reader is too deep. `t` is the token that took it there. -/
def checkDepth (limit : Option Nat) (t : Token) : Proc Unit := fun r =>
  match limit with
  | some n => if n < r.depth then fail ⟨.tooDeep n, t.location, none⟩ r else some (.ok (), r)
  | none => some (.ok (), r)

/-- An action one operand deeper. However it ends, the counter goes down again. -/
def nested (body : Proc α) : Proc α := fun r =>
  (body { r with depth := r.depth + 1 }).map fun x => (x.1, { x.2 with depth := x.2.depth - 1 })

/-- Repeats an action at most so many times, until it yields a result. -/
def loop (body : α → Proc (α ⊕ β)) : Nat → α → Proc β
  | 0, _ => fun _ => none
  | n + 1, a => do
    match ← body a with
    | .inl a => loop body n a
    | .inr b => return b

/-- Repeats an action that reads a token each time. -/
def repeated (body : α → Proc (α ⊕ β)) (a : α) : Proc β := fun r =>
  loop body (r.cursor.rest.length + 1) a r

end Proc

namespace Descent

open Proc

section
variable (operand : Proc Expr)

/-- Chains operators and operands onto what was read. -/
def compoundTerm (lhs : Expr) : Proc Expr :=
  repeated (fun lhs => do
    if ← check .chaining then
      let t ← next
      match BinaryOp.ofKind? t.kind with
      | some op =>
        let rhs ← operand
        return .inl (.binary op lhs rhs t.location)
      | none =>
        fail ⟨.host .syntactic s!"Unhandled binary operator: {t.kind.describe}", t.location, none⟩
    else return .inr lhs) lhs

/-- A chain of operands. -/
def term : Proc Expr := do
  let t ← peek
  expect .operand t
  let lhs ← operand
  compoundTerm operand lhs

/-- Parentheses, and the chain that they begin. -/
def groupedTerm : Proc Expr := do
  let t ← next
  expect {.openParen} t
  let e ← term operand
  let close ← next
  expect {.closeParen} close
  compoundTerm operand (.unary .group e t.location)

/-- An expression. -/
def expression : Proc Expr := do
  if ← check {.openParen} then groupedTerm operand else term operand

/-! ## Lists -/

/-- Items with commas between them, up to the closing bracket. -/
def list (close : Kind) (item : Proc Expr) : Proc (List Expr) := do
  if ← check {close} then
    let _ ← next
    return []
  else
    repeated (fun done => do
      let e ← item
      let t ← next
      expect {.comma, close} t
      if t.kind = close then return .inr (e :: done).reverse
      else return .inl (e :: done)) []

/-- An element of an array: an expression, or a range with both bounds. -/
def element : Proc Expr := do
  let e ← expression operand
  if ← check {.range} then
    let t ← next
    let upper ← expression operand
    return .binary .boundedRange e upper t.location
  else return e

/-- An index of a subscript: an expression, or a range with one bound at least. -/
def index : Proc Expr := do
  if ← check {.range} then
    let t ← next
    let upper ← expression operand
    return .unary .rightBoundedRange upper t.location
  else
    let e ← expression operand
    if ← check {.range} then
      let t ← next
      if ← check .simpleTerm then
        let upper ← expression operand
        return .binary .boundedRange e upper t.location
      else return .unary .leftBoundedRange e t.location
    else return e

/-- A subscript on what was read. -/
def subscript (target : Expr) : Proc Expr := do
  let t ← next
  expect {.openBracket} t
  let es ← list .closeBracket (index operand)
  return .subscript target (Listing.collected ⟨.index target, t.location, es.reverse⟩) t.location

/-- An array. -/
def array : Proc Expr := do
  let t ← next
  expect {.openBracket} t
  let es ← list .closeBracket (element operand)
  return .array es t.location

/-- A switch. Its first branch cannot begin with a switch. -/
def switch : Proc Expr := do
  let t ← next
  expect {.openSwitch} t
  let first ← peek
  expect (.simpleTerm ∪ {.closeSwitch}) first
  let es ← list .closeSwitch (expression operand)
  return .switch es t.location

/-! ## Maps -/

/-- A key. -/
def key : Proc String := do
  let t ← next
  expect {.name, .string} t
  return if t.kind = .string then Text.unescapeString t.text else t.text

/-- Entries with commas between them, up to the closing brace. -/
def entries : Proc (List (String × Expr)) := do
  if ← check {.closeBrace} then
    let _ ← next
    return []
  else
    repeated (fun m => do
      let k ← key
      let colon ← next
      expect {.colon} colon
      let e ← expression operand
      let t ← next
      expect {.comma, .closeBrace} t
      if t.kind = .closeBrace then return .inr (Expr.insertEntry k e m)
      else return .inl (Expr.insertEntry k e m)) []

/-- A map. -/
def map : Proc Expr := do
  let t ← next
  expect {.openBrace} t
  let m ← entries operand
  return .map m t.location

/-! ## Simple terms -/

/-- The value of a literal. -/
def value (t : Token) : Proc Literal :=
  match t.kind with
  | .string => return .string (Text.unescapeString t.text)
  | .number =>
    match Number.ofLiteral? t.text.toList with
    | some (.finite s m) => return .number (.finite s m)
    | _ => fail ⟨.malformedNumber t.text, t.location, none⟩
  | .boolean => return .boolean (t.text = "true")
  | _ => return .null

/-- A literal, an array or a map. -/
def literal : Proc Expr := do
  let t ← peek
  expect (.literal ∪ {.openBracket, .openBrace}) t
  if t.kind = .openBracket then array operand
  else if t.kind = .openBrace then map operand
  else
    let v ← value t
    let _ ← next
    return .literal v t.location

/-- A variable. -/
def var : Proc Expr := do
  let t ← next
  expect {.name} t
  return .var t.text t.location

/-- A sign and its operand. -/
def unary : Proc Expr := do
  let t ← next
  expect .sign t
  match UnaryOp.ofKind? t.kind with
  | some op =>
    let e ← operand
    return .unary op e t.location
  | none =>
    fail ⟨.host .syntactic s!"Unhandled unary operator: {t.kind.describe}", t.location, none⟩

/-- A simple term. -/
def simpleTerm : Proc Expr := do
  let t ← peek
  expect .simpleTerm t
  if t.kind ∈ TokenSet.sign then unary operand
  else if t.kind = .openParen then groupedTerm operand
  else if t.kind = .name then var
  else literal operand

/-- A simple term with its subscripts. -/
def subscripted : Proc Expr := do
  let e ← simpleTerm operand
  repeated (fun e => do
    if ← check {.openBracket} then
      let e ← subscript operand e
      return .inl e
    else return .inr e) e

end

/-- An operand, with at most so many operands inside one another. -/
def operand (limit : Option Nat) : Nat → Proc Expr
  | 0 => fun _ => none
  | n + 1 => do
    let t ← peek
    expect .operand t
    nested do
      checkDepth limit t
      if t.kind ∈ TokenSet.simpleTerm then subscripted (operand limit n)
      else switch (operand limit n)

/-- What may follow an expression: nothing, in a strict parse. -/
def ending (mode : Mode) : Proc Unit :=
  match mode with
  | .lenient => pure ()
  | .strict => do
    let t ← peek
    expect {.endOfInput} t

/-- An expression that is parsed by itself. The length of the text is budget enough. -/
def root (o : ParseOptions) : Proc Expr := fun r =>
  (do
    let e ← expression (operand o.limit (r.cursor.rest.length + 1))
    ending o.mode
    return e : Proc Expr) r

end Descent

/-- A parser that can be asked for one expression after another. -/
structure Resumable where
  /-- Where it has got to. -/
  reader : Reader
  /-- What was chosen about its parses. -/
  options : ParseOptions

namespace Resumable

/-- A parser at the start of a text. -/
def start (text : String) (l : Location) (o : ParseOptions) : Resumable :=
  ⟨⟨.ofText text l, 0⟩, o⟩

/-- Asks for an expression: what was answered, and the parser then. -/
def parse (p : Resumable) : Option (Except ParseError Expr × Resumable) :=
  (Descent.root p.options p.reader).map fun (result, reader) =>
    (result.mapError (·.attachPath p.options.path), { p with reader })

/-- The parser after it was asked so many times. -/
def resume : Nat → Resumable → Option Resumable
  | 0, p => some p
  | n + 1, p => p.parse.bind fun (_, p') => p'.resume n

end Resumable

end Parser

end EL
