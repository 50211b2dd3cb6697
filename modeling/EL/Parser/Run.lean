import EL.Parser.Step
import EL.Token.Stream

/-!
# Parsing

A parser runs over a token stream, one step per token, until an expression is accepted or a token
refused. It never reads past the token that decides: a lexical error further on is not noticed, but
one in the place of that token is, since the end of an expression is only known from what follows.

A *strict* parse demands that nothing follows the expression. A *lenient* one leaves what follows
to the host, which can go on from the cursor that every parse returns, after an error as well. A
parse depends on the text before that cursor in no way, so going on is the same as starting anew
there.
-/

set_option autoImplicit false

namespace EL

namespace Parser

/-- How a run ends. -/
inductive Verdict where
  /-- An expression was read up to `stop`, and `following` is what comes then. -/
  | accepted (e : Expr) (stop : Cursor) (following : Stream)
  /-- The text was refused, having been read up to `stop`. -/
  | refused (error : ParseError) (stop : Cursor)

/-- The verdict on a token that was refused. -/
def refusal (cause : Cause) (t : Token) (stop : Cursor) : Verdict :=
  .refused ⟨cause, t.location, none⟩ stop

/-- Runs a parser over a stream. The cursor is the one before the first token of the stream. -/
def run (limit : Option Nat) (s : State) (here : Cursor) : Stream → Verdict
  | .token t after next =>
    match step limit s t with
    | .shift s' => run limit s' after next
    | .accept e => .accepted e here (.token t after next)
    | .refuse cause consumed => refusal cause t (if consumed then after else here)
  | .done t after =>
    match step limit s t with
    | .accept e => .accepted e here (.done t after)
    | .refuse cause consumed => refusal cause t (if consumed then after else here)
    -- No state shifts the end of input; `EL.Parser.Ending` proves it.
    | .shift _ => refusal (.expected ∅ t) t after
  | .broken error stop => .refused error (if s.goal.takesBlindly then stop else here)

end Parser

/-- Whether text may follow the expression. -/
inductive Mode where
  /-- The whole text must be one expression. -/
  | strict
  /-- The parse stops after the first complete expression. -/
  | lenient
deriving DecidableEq

/-- What a host can choose about a parse. -/
structure ParseOptions where
  /-- Whether text may follow the expression. -/
  mode : Mode := .strict
  /-- The file that the text comes from, for errors. -/
  path : Option String := none
  /-- The greatest depth of an operand. -/
  limit : Option Nat := none

/-- Does what follows an expression make its parse fail? -/
def Mode.objection? : Mode → Stream → Option ParseError
  | .lenient, _ => none
  | .strict, .done _ _ => none
  | .strict, .token t _ _ => some (.expected {.endOfInput} t)
  | .strict, .broken e _ => some e

/-- Reads an expression at a cursor, and returns the cursor after what was read. -/
def Cursor.parse (c : Cursor) (o : ParseOptions) : Except ParseError Expr × Cursor :=
  match Parser.run o.limit .initial c c.stream with
  | .refused error stop => (.error (error.attachPath o.path), stop)
  | .accepted e stop following =>
    match o.mode.objection? following with
    | some error => (.error (error.attachPath o.path), stop)
    | none => (.ok e, stop)

/-- Reads a number of expressions, one after the other, each where the one before stopped. -/
def Cursor.parseTimes (o : ParseOptions) : Nat → Cursor → List (Except ParseError Expr × Cursor)
  | 0, _ => []
  | n + 1, c =>
    let outcome := c.parse o
    outcome :: parseTimes o n outcome.2

/-- Reads a text that is one expression. -/
def parseStrict (text : String) : Except ParseError Expr := ((Cursor.ofText text).parse {}).1

/-- Reads the first expression of a text. -/
def parseLenient (text : String) : Except ParseError Expr :=
  ((Cursor.ofText text).parse { mode := .lenient }).1

end EL
