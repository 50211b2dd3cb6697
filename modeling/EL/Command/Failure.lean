import EL.Command.Manual
import EL.Error

/-!
# Failures of commands

What can go wrong once a command line has been understood. Each failure is printed as one message,
and the program ends with a status that says so.
-/

set_option autoImplicit false

namespace EL.Command

/-- Why a command failed. -/
inductive Failure where
  /-- The expression was refused. -/
  | parse (error : ParseError)
  /-- The input could not be read. -/
  | io (reason : String)
  /-- No expression was given, and there is no input to read one from. -/
  | noInput
  /-- The manual has no such page. -/
  | unknownCategory (name : String)

/-- The message of a failure. -/
def Failure.describe : Failure → String
  | parse error => s!"Parse error: {error.describe}"
  | io reason => s!"IO error: {reason}"
  | noInput => "No expression provided. Pass it as an argument or pipe it to stdin."
  | unknownCategory name =>
    s!"Unknown category: '{name}'\nRun 'el docs' to see available categories."

/-- The page of the manual with the given name. -/
def manualPage (name : String) : Except Failure String :=
  match Manual.Category.ofName? name with
  | some category => .ok (Manual.page category)
  | none => .error (.unknownCategory name)

end EL.Command
