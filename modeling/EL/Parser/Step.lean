import EL.Number.Decimal
import EL.Parser.State
import EL.Text.Escape

/-!
# Parser steps: one token

`step` says what one token does to a parser: it is *shifted*, which leads to another state; or the
expression was complete before it, which is then *accepted*; or it is *refused*. It is a function
of the state and the token, and it **looks at the kind and the text of the token** only; the place
goes into the tree and into the error, but decides nothing.

A token that is no part of the chain it follows ends that chain, and perhaps the chains around it
up to the next open bracket (`leave`).

A refusal says whether the token counts as read. Where any one of several things could come next,
a token is looked at first and stays unread if it does not fit; where only a separator or a
closing bracket can come, it is read and then refused.
-/

set_option autoImplicit false

namespace EL.Parser

/-- What a token does to a parser. -/
inductive Outcome where
  /-- The token belongs to the expression. -/
  | shift (s : State)
  /-- The expression ended before the token. -/
  | accept (e : Expr)
  /-- The token does not fit. -/
  | refuse (cause : Cause) (consumed : Bool)

/-- The refusal of a token for which one of `set` was needed. -/
def need (set : TokenSet) (t : Token) (consumed : Bool) : Outcome :=
  .refuse (.expected set t) consumed

/-! ## Where an operand begins -/

/-- A literal as an operand. -/
def literal (v : Literal) (t : Token) (c : Chain) (σ : List Frame) : Outcome :=
  .shift ⟨.afterSimple (.literal v t.location), c, σ⟩

/-- What a token does where an operand begins, if an operand can begin with it. -/
def beginOperand? (c : Chain) (σ : List Frame) (t : Token) : Option Outcome :=
  match t.kind with
  | .name => some (.shift ⟨.afterSimple (.var t.text t.location), c, σ⟩)
  | .string => some (literal (.string (Text.unescapeString t.text)) t c σ)
  | .number =>
    match Number.ofLiteral? t.text.toList with
    | some (.finite s m) => some (literal (.number (.finite s m)) t c σ)
    | _ => some (.refuse (.malformedNumber t.text) false)
  | .boolean => some (literal (.boolean (t.text = "true")) t c σ)
  | .null => some (literal .null t c σ)
  | .openParen =>
    some (.shift ⟨.operand, .fresh c.depth, ⟨.group t.location true, c⟩ :: σ⟩)
  | .openBracket => some (.shift ⟨.firstItem ⟨.array, t.location, []⟩, c, σ⟩)
  | .openSwitch => some (.shift ⟨.firstItem ⟨.switch, t.location, []⟩, c, σ⟩)
  | .openBrace => some (.shift ⟨.firstKey ⟨t.location, []⟩, c, σ⟩)
  | k =>
    (UnaryOp.ofKind? k).map fun op =>
      .shift ⟨.operand, { c with signs := (op, t.location) :: c.signs }, σ⟩

/-- What a token does where an operand begins. The limit on the depth is applied to what could
    begin an operand otherwise. -/
def beginOperand (limit : Option Nat) (c : Chain) (σ : List Frame) (t : Token) : Outcome :=
  match beginOperand? c σ t with
  | none => need .operand t false
  | some out =>
    match limit with
    | some n => if n < c.depth then .refuse (.tooDeep n) false else out
    | none => out

/-- What a token does where an expression begins. -/
def beginExpression (limit : Option Nat) (c : Chain) (σ : List Frame) (t : Token) : Outcome :=
  if t.kind = .openParen then
    .shift ⟨.operand, .fresh c.base, ⟨.group t.location false, c⟩ :: σ⟩
  else beginOperand limit c σ t

/-! ## Lists -/

/-- What a token does where an item of a list begins. Only an index may begin with the dots of a
    range. -/
def beginItem (limit : Option Nat) (l : Listing) (c : Chain) (σ : List Frame) (t : Token) :
    Outcome :=
  match t.kind, l.shape with
  | .range, .index _ =>
    .shift ⟨.expression, .fresh c.depth, ⟨.item l (.dots t.location), c⟩ :: σ⟩
  | _, _ => beginExpression limit (.fresh c.depth) (⟨.item l .absent, c⟩ :: σ) t

/-- The parser after the end of a list. A switch takes no subscripts itself; with a sign in front
    of it, it is part of a simple term, and that does. -/
def closeList (l : Listing) (c : Chain) (σ : List Frame) : State :=
  match l.shape with
  | .array => ⟨.afterSimple (.array l.items l.loc), c, σ⟩
  | .index target => ⟨.afterSimple (.subscript target l.collected l.loc), c, σ⟩
  | .switch =>
    let e := Expr.switch l.items l.loc
    match c.signs with
    | [] => ⟨.afterOperand (c.complete e), .fresh c.base, σ⟩
    | (op, loc) :: signs => ⟨.afterSimple (.unary op e loc), { c with signs }, σ⟩

/-- What a token does after the last item of a list. -/
def separate (l : Listing) (c : Chain) (σ : List Frame) (t : Token) : Outcome :=
  if t.kind = .comma then .shift ⟨.item l, c, σ⟩
  else if t.kind = l.closer then .shift (closeList l c σ)
  else need {.comma, l.closer} t true

/-- What a token does after an expression in an item of a list. The dots of a range are a part of
    the item if it has none yet, in arrays and subscripts. -/
def endItem (l : Listing) (bound : Bound) (e : Expr) (c : Chain) (σ : List Frame) (t : Token) :
    Outcome :=
  match t.kind, bound, l.shape with
  | .range, .absent, .array =>
    .shift ⟨.expression, .fresh c.depth, ⟨.item l (.lower e t.location), c⟩ :: σ⟩
  | .range, .absent, .index _ => .shift ⟨.upperBound l e t.location, c, σ⟩
  | _, _, _ => separate (l.add (bound.complete e)) c σ t

/-! ## Maps -/

/-- What a token does where a key is needed. -/
def readKey (m : Entries) (c : Chain) (σ : List Frame) (t : Token) : Outcome :=
  match t.kind with
  | .name => .shift ⟨.colon m t.text, c, σ⟩
  | .string => .shift ⟨.colon m (Text.unescapeString t.text), c, σ⟩
  | _ => need {.name, .string} t true

/-- What a token does after the value of an entry. -/
def endValue (m : Entries) (key : String) (e : Expr) (c : Chain) (σ : List Frame) (t : Token) :
    Outcome :=
  let entries := Expr.insertEntry key e m.done
  match t.kind with
  | .comma => .shift ⟨.key ⟨m.loc, entries⟩, c, σ⟩
  | .closeBrace => .shift ⟨.afterSimple (.map entries m.loc), c, σ⟩
  | _ => need {.comma, .closeBrace} t true

/-! ## Where an operand ends -/

/-- The parser after the opening bracket of a subscript. -/
def openIndex (target : Expr) (c : Chain) (σ : List Frame) (t : Token) : Outcome :=
  .shift ⟨.firstItem ⟨.index target, t.location, []⟩, c, σ⟩

/-- The parser after closing parentheses around `e`. -/
def closeGroup (loc : Location) (asOperand : Bool) (e : Expr) (c : Chain) (σ : List Frame) :
    State :=
  let g := Expr.unary .group e loc
  if asOperand then ⟨.afterOperand g, .fresh c.depth, ⟨.closedGroup, c⟩ :: σ⟩
  else ⟨.afterOperand g, c, σ⟩

/-- What a token does after a complete chain, which it does not continue. -/
def leave (t : Token) (e : Expr) : List Frame → Outcome
  | [] => .accept e
  | ⟨.closedGroup, outer⟩ :: σ =>
    -- What was read since the parentheses is a simple term of the chain around them.
    if t.kind = .openBracket then openIndex e outer σ t else leave t (outer.complete e) σ
  | ⟨.group loc asOperand, outer⟩ :: σ =>
    if t.kind = .closeParen then .shift (closeGroup loc asOperand e outer σ)
    else need {.closeParen} t true
  | ⟨.item l bound, outer⟩ :: σ => endItem l bound e outer σ t
  | ⟨.value m key, outer⟩ :: σ => endValue m key e outer σ t

/-- What a token does after an operand, given the folded chain up to there. -/
def afterOperand (e : Expr) (c : Chain) (σ : List Frame) (t : Token) : Outcome :=
  match BinaryOp.ofKind? t.kind with
  | some op => .shift ⟨.operand, { c with left := some (e, op, t.location) }, σ⟩
  | none => leave t e σ

/-- What a token does after a simple term. -/
def afterSimple (e : Expr) (c : Chain) (σ : List Frame) (t : Token) : Outcome :=
  if t.kind = .openBracket then openIndex e c σ t
  else afterOperand (c.complete e) (.fresh c.base) σ t

/-! ## All steps -/

/-- What a token does to a parser that admits operands up to the depth `limit`. -/
def step (limit : Option Nat) (s : State) (t : Token) : Outcome :=
  match s.goal with
  | .expression => beginExpression limit s.chain s.stack t
  | .operand => beginOperand limit s.chain s.stack t
  | .afterSimple e => afterSimple e s.chain s.stack t
  | .afterOperand e => afterOperand e s.chain s.stack t
  | .firstItem l =>
    if t.kind = l.closer then .shift (closeList l s.chain s.stack)
    else
      match l.shape with
      | .switch =>
        -- The first branch of a switch cannot begin with a switch.
        if t.kind ∈ TokenSet.simpleTerm then beginItem limit l s.chain s.stack t
        else need (.simpleTerm ∪ {.closeSwitch}) t false
      | _ => beginItem limit l s.chain s.stack t
  | .item l => beginItem limit l s.chain s.stack t
  | .upperBound l e loc =>
    if t.kind ∈ TokenSet.simpleTerm then
      beginExpression limit (.fresh s.chain.depth) (⟨.item l (.lower e loc), s.chain⟩ :: s.stack) t
    else separate (l.add (.unary .leftBoundedRange e loc)) s.chain s.stack t
  | .firstKey m =>
    if t.kind = .closeBrace then .shift ⟨.afterSimple (.map m.done m.loc), s.chain, s.stack⟩
    else readKey m s.chain s.stack t
  | .key m => readKey m s.chain s.stack t
  | .colon m key =>
    if t.kind = .colon then
      .shift ⟨.expression, .fresh s.chain.depth, ⟨.value m key, s.chain⟩ :: s.stack⟩
    else need {.colon} t true

end EL.Parser
