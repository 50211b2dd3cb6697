import EL.Location
import EL.Token.Basic
import EL.Token.Set

/-!
# Parse errors

A parse error is a cause, a place, and the name of the file that the text came from if the host
gave one. The cause is a value, and its wording is written in one place (`Cause.message`); which
of the two stages of reading found it follows from the cause (`Cause.stage`).

Errors are compared by what they report (`ParseError.same`): stage, place, wording and file.
-/

set_option autoImplicit false

namespace EL

/-- Which stage of reading refused the text. -/
inductive Stage where
  /-- The characters do not make up a token. -/
  | lexical
  /-- The tokens do not make up an expression. -/
  | syntactic
deriving DecidableEq

namespace Stage

/-- The name of a stage. -/
def name : Stage → String
  | lexical => "Lexical"
  | syntactic => "Syntactic"

end Stage

/-- Why a text was refused. -/
inductive Cause where
  /-- No token begins with this character. -/
  | unexpectedCharacter (c : Char)
  /-- A string literal is not closed. -/
  | unterminatedString
  /-- A number literal is followed by a stray point, or is too large to be finite. -/
  | malformedNumber (text : String)
  /-- A token of one of the kinds in `set` was needed. -/
  | expected (set : TokenSet) (got : Token)
  /-- An operand stands inside too many others. -/
  | tooDeep (limit : Nat)
  /-- A failure that a host found by rules of its own. -/
  | host (stage : Stage) (message : String)

namespace Cause

/-- The stage that a cause belongs to. -/
def stage : Cause → Stage
  | unexpectedCharacter _ | unterminatedString | malformedNumber _ => .lexical
  | expected _ _ | tooDeep _ => .syntactic
  | host stage _ => stage

/-- The wording of a cause. -/
def message : Cause → String
  | unexpectedCharacter c => s!"Unexpected character: '{c}'"
  | unterminatedString => "Unterminated string literal"
  | malformedNumber text => s!"Malformed number literal: '{text}'"
  | expected set got =>
    s!"Expected {set.describe}, but got {got.kind.describe} (raw data: '{got.text}')"
  | tooDeep limit => s!"Expression nesting exceeds the limit of {limit}"
  | host _ message => message

end Cause

/-- A refusal of a text. -/
structure ParseError where
  /-- Why the text was refused. -/
  cause : Cause
  /-- Where it went wrong. -/
  location : Location
  /-- The file that the text came from. -/
  path : Option String := none

namespace ParseError

/-- The refusal of a token for which one of `set` was needed. -/
def expected (set : TokenSet) (got : Token) : ParseError :=
  ⟨.expected set got, got.location, none⟩

/-- The same error, found in a text from the given file. -/
def withPath (e : ParseError) (path : String) : ParseError := { e with path := some path }

/-- The same error, found in a text from the given file if there is one. -/
def attachPath (e : ParseError) : Option String → ParseError
  | some path => e.withPath path
  | none => e

@[simp] theorem location_attachPath (e : ParseError) (path : Option String) :
    (e.attachPath path).location = e.location := by
  cases path <;> rfl

@[simp] theorem cause_attachPath (e : ParseError) (path : Option String) :
    (e.attachPath path).cause = e.cause := by
  cases path <;> rfl

theorem path_attachPath {e : ParseError} (h : e.path = none) (path : Option String) :
    (e.attachPath path).path = path := by
  cases path with
  | none => exact h
  | some path => rfl

/-- Which stage refused the text. -/
def stage (e : ParseError) : Stage := e.cause.stage

/-- The wording of the cause. -/
def message (e : ParseError) : String := e.cause.message

@[simp] theorem stage_attachPath (e : ParseError) (path : Option String) :
    (e.attachPath path).stage = e.stage := by
  cases path <;> rfl

@[simp] theorem message_attachPath (e : ParseError) (path : Option String) :
    (e.attachPath path).message = e.message := by
  cases path <;> rfl

/-- The whole error as it is printed. -/
def describe (e : ParseError) : String :=
  let file := match e.path with
    | some path => path ++ ": "
    | none => ""
  s!"{file}{e.message} ({e.location.describe})"

/-- Do two errors report the same? -/
def same (a b : ParseError) : Bool :=
  a.stage = b.stage && a.location = b.location && a.message = b.message && a.path = b.path

end ParseError

end EL
