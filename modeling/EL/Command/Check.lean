import EL.Command.Failure
import EL.Expr.Description
import EL.Expr.Source
import EL.Expr.Variables
import EL.Parser.Run
import EL.Text.Blank

/-!
# Checking an expression

A check parses an expression and shows it again, as EL source in the one layout that trees are
printed in, or as JSON. It also says which variables a host must supply and which text was left
over, blanks at its ends aside. A strict check leaves nothing but blanks and comments, and its
cursor stands before those, so that comments that end a text are all that can be left of it.
-/

set_option autoImplicit false

namespace EL.Command

/-- What a check is asked to do. -/
structure CheckOptions where
  expression : String
  /-- May text follow the expression? -/
  lenient : Bool := false
  /-- Is the tree shown as JSON? -/
  json : Bool := false
  /-- Is JSON indented when it is printed? -/
  pretty : Bool := false
  /-- The file to name in errors. -/
  path : Option String := none
  /-- The greatest depth of an operand. -/
  maxDepth : Option Nat := none

/-- A tree in one of the formats that it can be shown in. -/
inductive Rendering where
  | source (text : String)
  | json (value : Json)

/-- What a check finds. -/
structure CheckResult where
  /-- The tree. -/
  rendering : Rendering
  /-- Its variables, in order. -/
  freeVariables : List String
  /-- The text after the expression. -/
  unconsumed : String

/-- Checks an expression. -/
def check (o : CheckOptions) : Except Failure CheckResult :=
  let mode := if o.lenient then Mode.lenient else .strict
  match (Cursor.ofText o.expression).parse { mode, path := o.path, limit := o.maxDepth } with
  | (.error e, _) => .error (.parse e)
  | (.ok tree, stop) =>
    .ok {
      rendering := if o.json then .json tree.toJson else .source tree.source
      freeVariables := tree.freeVariables
      unconsumed := String.ofList (Text.trimBlank stop.rest) }

/-- The tokens of a text as lines of a listing. -/
def listTokens (text : String) : Except Failure (List String) :=
  match (Cursor.ofText text).tokens with
  | .error e => .error (.parse e)
  | .ok tokens => .ok (tokens.map Token.listingLine)

end EL.Command
