import EL.Command.Arguments

/-!
# The command line program

What the program does, as a function from its arguments and its input to what it prints and the
status it ends with. The standard input is asked for only by a command that needs an expression
and was given none, so it is a parameter that may stay unused.
-/

set_option autoImplicit false

namespace EL.Command

open Text (joinWith ofLines)

/-- What the program leaves behind. -/
structure Effect where
  /-- The status: 0 for success, 1 for a command that failed, 2 for a line not understood. -/
  exit : Nat := 0
  /-- The text on the standard output. -/
  stdout : String := ""
  /-- The text on the standard error. -/
  stderr : String := ""
deriving DecidableEq

/-- The name and the version of the program. -/
def versionLine : String := "el 0.1.0"

/-- What is shown for a command line that is not understood. -/
def usage : String :=
  ofLines [
    "usage: el [-v] check [EXPR] [-ljp] [--path P] [--max-depth N] [--variables]",
    "       el [-v] tokens [EXPR]",
    "       el [-v] docs",
    "       el [-v] doc CATEGORY",
    "       el -V"]

/-- The effect of a command that may have failed. -/
def Effect.ofOutcome (outcome : Except Failure Effect) : Effect :=
  match outcome with
  | .ok e => e
  | .error f => { exit := 1, stderr := ofLines [f.describe] }

/-- The expression of a command, or else the standard input. -/
def expressionOr (input : Except Failure String) : Option String → Except Failure String
  | some e => .ok e
  | none => input

/-- A tree as it is printed. -/
def Rendering.printed (pretty : Bool) : Rendering → String
  | source text => text
  | json value => if pretty then value.indented else value.compact

/-- Checks an expression and prints what was found. -/
def runCheck (o : CheckOptions) (listVariables : Bool) : Except Failure Effect := do
  let r ← check o
  let listing := if listVariables then ["variables: " ++ joinWith ", " r.freeVariables] else []
  return {
    stdout := ofLines (r.rendering.printed o.pretty :: listing)
    stderr := if r.unconsumed = "" then "" else ofLines ["unconsumed: " ++ r.unconsumed] }

/-- Carries out a command line that was understood. -/
def Invocation.run (input : Except Failure String) : Invocation → Effect
  | .version => { stdout := ofLines [versionLine] }
  | .docs => { stdout := Manual.overview }
  | .doc category => .ofOutcome do return { stdout := ← manualPage category }
  | .tokens e => .ofOutcome do
    return { stdout := ofLines (← listTokens (← expressionOr input e)) }
  | .check e options listVariables => .ofOutcome do
    runCheck { options with expression := ← expressionOr input e } listVariables

/-- Does the command line need the standard input? -/
def Invocation.needsInput : Invocation → Bool
  | .check none _ _ | .tokens none => true
  | _ => false

/-- Carries out a command line. -/
def runLine (args : List String) (input : Except Failure String) : Effect :=
  match Invocation.ofArguments? args with
  | some i => i.run input
  | none => { exit := 2, stderr := usage }

end EL.Command
