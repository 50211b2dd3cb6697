import EL.Command.Check

/-!
# Arguments of the command line

A command line is read from left to right. An argument that begins with a dash is an option, unless
it is a dash alone or comes after `--`; all others are positional. Short options combine behind one
dash. An option with a value takes it from behind an equals sign or from the next argument, which
must then not look like an option. **No option may be given twice** in front of the command, nor
behind it.

What is wrong with a command line is not told apart here: whatever it is, the line is not
understood (`none`).
-/

set_option autoImplicit false

namespace EL.Command

/-- The options of all commands. -/
inductive Flag where
  | verbose
  | version
  | lenient
  | json
  | pretty
  | path
  | maxDepth
  | freeVariables
deriving DecidableEq

namespace Flag

/-- The option of one letter. -/
def short? : Flag → Option Char
  | verbose => some 'v'
  | version => some 'V'
  | lenient => some 'l'
  | json => some 'j'
  | pretty => some 'p'
  | path | maxDepth | freeVariables => none

/-- The option in full. -/
def long : Flag → String
  | verbose => "verbose"
  | version => "version"
  | lenient => "lenient"
  | json => "json"
  | pretty => "pretty"
  | path => "path"
  | maxDepth => "max-depth"
  | freeVariables => "variables"

/-- Does the option have a value? -/
def hasValue : Flag → Bool
  | path | maxDepth => true
  | _ => false

end Flag

/-- The options of a command line that have been read, with their values, and what else there
    is. -/
structure Given where
  flags : List (Flag × String) := []
  positional : List String := []

namespace Given

/-- Was the option given? -/
def has (g : Given) (f : Flag) : Bool := g.flags.any (·.1 = f)

/-- The value of an option. -/
def value? (g : Given) (f : Flag) : Option String := (g.flags.find? (·.1 = f)).map (·.2)

/-- Adds an option, which must be new. -/
def addFlag (g : Given) (f : Flag) (value : String) : Option Given :=
  if g.has f then none else some { g with flags := g.flags ++ [(f, value)] }

/-- Adds a positional argument. -/
def addPositional (g : Given) (a : String) : Given := { g with positional := g.positional ++ [a] }

end Given

/-- What one argument looks like. -/
inductive ArgumentShape where
  /-- The end of all options. -/
  | separator
  /-- An option in full, with what stands behind its equals sign. -/
  | long (name : String) (value : Option String)
  /-- Options of one letter. -/
  | short (letters : List Char)
  | positional

/-- The shape of an argument. -/
def shapeOf (a : String) : ArgumentShape :=
  match a.toList with
  | ['-', '-'] => .separator
  | '-' :: '-' :: r =>
    match r.span (· != '=') with
    | (name, '=' :: value) => .long (String.ofList name) (some (String.ofList value))
    | (name, _) => .long (String.ofList name) none
  | '-' :: c :: r => .short (c :: r)
  | _ => .positional

/-- Reads options of one letter, none of which has a value. -/
def readLetters (known : List Flag) : List Char → Given → Option Given
  | [], g => some g
  | c :: r, g => do
    let f ← known.find? fun f => f.short? = some c
    readLetters known r (← g.addFlag f "")

/-- Reads the arguments behind a command, which knows some of the options. -/
def readArguments (known : List Flag) : List String → Given → Option Given
  | [], g => some g
  | a :: r, g =>
    match shapeOf a with
    | .separator => some { g with positional := g.positional ++ r }
    | .positional => readArguments known r (g.addPositional a)
    | .short letters => do readArguments known r (← readLetters known letters g)
    | .long name value => do
      let f ← known.find? fun f => f.long = name
      if f.hasValue then
        match value, r with
        | some v, r => readArguments known r (← g.addFlag f v)
        | none, v :: r =>
          match shapeOf v with
          | .positional => readArguments known r (← g.addFlag f v)
          | _ => none
        | none, [] => none
      else if value.isSome then none
      else readArguments known r (← g.addFlag f "")

/-- The greatest number that a command line can hold, of 64 bits. -/
def greatestNumber : Nat := 18446744073709551615

/-- A number on the command line: digits, with a plus sign in front or none, that are not too
    great. -/
def readNumber (s : String) : Option Nat := do
  let digits := match s.toList with
    | '+' :: r => r
    | r => r
  let n ← Decimal.ofDigits? digits
  if n ≤ greatestNumber then some n else none

/-- A command line that has been understood. -/
inductive Invocation where
  /-- Tell the version. -/
  | version
  /-- Check an expression, that of the standard input if none is given. -/
  | check (expression : Option String) (options : CheckOptions) (listVariables : Bool)
  /-- List the tokens of an expression. -/
  | tokens (expression : Option String)
  /-- Show the contents of the manual. -/
  | docs
  /-- Show a page of the manual. -/
  | doc (category : String)

/-- The value of an option that may be missing, but must be understood if it is there. -/
def readOptional {α : Type} (text : Option String) (read : String → Option α) :
    Option (Option α) :=
  match text with
  | none => some none
  | some s => (read s).map some

/-- A file name, which cannot be empty. -/
def readPath (s : String) : Option String := if s = "" then none else some s

/-- Reads what follows the name of a command. -/
def readCommand (name : String) (args : List String) : Option Invocation :=
  match name with
  | "check" => do
    let g ← readArguments
      [.verbose, .lenient, .json, .pretty, .path, .maxDepth, .freeVariables] args {}
    let path ← readOptional (g.value? .path) readPath
    let maxDepth ← readOptional (g.value? .maxDepth) readNumber
    let options := {
      expression := ""
      lenient := g.has .lenient
      json := g.has .json
      pretty := g.has .pretty
      path, maxDepth }
    match g.positional with
    | [] => some (.check none options (g.has .freeVariables))
    | [e] => some (.check (some e) options (g.has .freeVariables))
    | _ => none
  | "tokens" => do
    let g ← readArguments [.verbose] args {}
    match g.positional with
    | [] => some (.tokens none)
    | [e] => some (.tokens (some e))
    | _ => none
  | "docs" => do
    let g ← readArguments [.verbose] args {}
    if g.positional = [] then some .docs else none
  | "doc" => do
    let g ← readArguments [.verbose] args {}
    match g.positional with
    | [category] => some (.doc category)
    | _ => none
  | _ => none

/-- Reads options of one letter in front of a command. The version is told as soon as it is asked
    for, whatever comes next; `some none` says so. -/
def readLeadingLetters : List Char → Given → Option (Option Given)
  | [], g => some (some g)
  | c :: r, g =>
    if Flag.version.short? = some c then some none
    else if Flag.verbose.short? = some c then do
      readLeadingLetters r (← g.addFlag .verbose "")
    else none

/-- Reads a command line, given the options in front of the command read so far. -/
def readLine (g : Given) : List String → Option Invocation
  | [] => none
  | a :: r =>
    match shapeOf a with
    | .separator => none
    | .positional => readCommand a r
    | .short letters => do
      match ← readLeadingLetters letters g with
      | none => some .version
      | some g => readLine g r
    | .long name value =>
      if value.isSome then none
      else if name = Flag.version.long then some .version
      else if name = Flag.verbose.long then do readLine (← g.addFlag .verbose "") r
      else none

/-- Reads a command line. -/
def Invocation.ofArguments? (args : List String) : Option Invocation := readLine {} args

end EL.Command
