import EL.Command.Line

/-!
# The program

Hands the arguments and, where a command needs it, the standard input to `EL.Command.runLine`, and
carries out what that returns.
-/

set_option autoImplicit false

namespace EL.Command

/-- What is left of a stream. -/
partial def readBytes (s : IO.FS.Stream) (before : ByteArray) : IO ByteArray := do
  let chunk ← s.read 65536
  if chunk.isEmpty then return before else readBytes s (before ++ chunk)

/-- The whole standard input as text. A terminal is not asked. -/
def readInput : IO (Except Failure String) := do
  let stdin ← IO.getStdin
  if ← stdin.isTty then
    return .error .noInput
  match String.fromUTF8? (← readBytes stdin .empty) with
  | some text => return .ok text
  | none => return .error (.io "stream did not contain valid UTF-8")

end EL.Command

/-- Runs the program. -/
def main (args : List String) : IO UInt32 := do
  let needed := (EL.Command.Invocation.ofArguments? args).any (·.needsInput)
  let input ← if needed then EL.Command.readInput else pure (.error .noInput)
  let effect := EL.Command.runLine args input
  (← IO.getStdout).putStr effect.stdout
  (← IO.getStderr).putStr effect.stderr
  return effect.exit.toUInt32
