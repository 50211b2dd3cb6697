import EL.Error
import EL.Text.Blank

/-!
# Lexemes: the pieces that a text falls into

A text is a sequence of *lexemes* with *gaps* between them. This file says what a gap is and which
lexeme a text begins with; it knows nothing of places in a text, which `EL.Cursor` keeps track of.

Everything here returns a run of characters that the text **begins with**: `gap` the blanks and
comments, `Lexeme.read` the spelling of one lexeme. What is left is what remains after that many
characters, so nothing is ever lost or read twice.

## The order of attempts

A lexeme is tried as a symbol, a string, a number, a keyword and a name, in that order, and the
order matters twice. A number is tried before a name, so a name cannot begin with a digit. A
keyword is tried before a name and is *not* required to end where a name would: `nullable` is the
keyword `null` and the name `able`.

## Numbers and dots

A dot after a digit may be a decimal point or the first dot of a range, and one character more
decides: a dot that is followed by a dot is never part of a number. A number with a fraction or an
exponent is preferred to a plain one, and must not be followed by a single dot. Every number must
be followed by something that can end it (`endsNumber`).
-/

set_option autoImplicit false

namespace EL

open Text (isBlank)

/-! ## Gaps -/

/-- The blanks and comments that a text begins with. A comment is two slashes and what follows
    them up to a line feed or a carriage return. The flag says that the text begins inside one. -/
def gapFrom (inComment : Bool) : List Char → List Char
  | [] => []
  | c :: r =>
    if inComment ∧ c ≠ '\n' ∧ c ≠ '\r' then c :: gapFrom true r
    else if isBlank c then c :: gapFrom false r
    else if c = '/' ∧ r.head? = some '/' then c :: gapFrom true r
    else []

/-- The blanks and comments before the first lexeme of a text. -/
def gap (cs : List Char) : List Char := gapFrom false cs

theorem gap_blank {c : Char} (hc : isBlank c = true) (cs : List Char) :
    gap (c :: cs) = c :: gap cs := by
  simp [gap, gapFrom, hc]

/-! ## Strings -/

/-- The content of a string literal, given what follows its opening quote, if the literal is
    closed. A backslash protects the character after it. -/
def stringContent? (quote : Char) : List Char → Option (List Char)
  | [] => none
  | ['\\'] => none
  | '\\' :: c :: r => (stringContent? quote r).map ('\\' :: c :: ·)
  | c :: r => if c = quote then some [] else (stringContent? quote r).map (c :: ·)

/-! ## Numbers -/

/-- Characters besides blanks that may directly follow a number. -/
def numberDelimiters : List Char :=
  ['(', ')', '{', '}', '[', ']', ',', ':', '+', '-', '*', '/', '%', '.']

/-- May a number be followed by this text? -/
def endsNumber : List Char → Bool
  | [] => true
  | c :: _ => isBlank c || numberDelimiters.contains c

/-- Does a text begin with a dot that is not the first dot of a range? -/
def beginsWithPoint : List Char → Bool
  | '.' :: r => r.head? != some '.'
  | _ => false

/-- The digits that a text begins with. -/
def digits (cs : List Char) : List Char := cs.takeWhile Char.isDigit

/-- The fraction that a text begins with: a decimal point and digits, of which there may be
    none. -/
def fraction (cs : List Char) : List Char :=
  if beginsWithPoint cs then '.' :: digits cs.tail else []

/-- The exponent that a text begins with, which is nothing if there is no mark. A mark without
    digits after it spoils the number. -/
def exponentPart? : List Char → Option (List Char)
  | [] => some []
  | c :: r =>
    if c = 'e' ∨ c = 'E' then
      let sign := match r with
        | '+' :: _ => ['+']
        | '-' :: _ => ['-']
        | _ => []
      let power := digits (r.drop sign.length)
      if power = [] then none else some (c :: sign ++ power)
    else some []

/-- The number with a fraction or an exponent that a text begins with. -/
def decimalSpelling? (cs : List Char) : Option (List Char) :=
  let whole := digits cs
  let part := fraction (cs.drop whole.length)
  let mantissa := whole ++ part
  if mantissa.any Char.isDigit then
    match exponentPart? (cs.drop mantissa.length) with
    | none => none
    | some power =>
      let spelling := mantissa ++ power
      if spelling ≠ whole ∧ endsNumber (cs.drop spelling.length) then some spelling else none
  else none

/-- The whole number that a text begins with. -/
def integerSpelling? (cs : List Char) : Option (List Char) :=
  let whole := digits cs
  if whole ≠ [] ∧ endsNumber (cs.drop whole.length) then some whole else none

/-! ## Lexemes -/

/-- A piece of text that makes up one token. -/
structure Lexeme where
  /-- What kind of token it makes up. -/
  kind : Kind
  /-- The piece itself, quotes included. -/
  spelling : List Char
deriving DecidableEq

/-- A text that begins with no lexeme: why, and how far reading went. -/
structure Misfit where
  /-- Why there is no lexeme. -/
  cause : Cause
  /-- The characters that were read before that became clear. -/
  passed : List Char

namespace Lexeme

/-- The text of the token: the piece without quotes. -/
def text (x : Lexeme) : List Char :=
  if x.kind = .string then x.spelling.tail.dropLast else x.spelling

/-- May this character begin a name? -/
def beginsName (c : Char) : Bool := c.isAlpha || c = '_'

/-- May this character stand in a name? -/
def continuesName (c : Char) : Bool := c.isAlphanum || c = '_'

/-- The symbol that a text begins with. -/
def symbol? (cs : List Char) : Option Lexeme :=
  (Kind.symbols.find? (·.2.isPrefixOf cs)).map fun s => ⟨s.1, s.2⟩

/-- The number that a text begins with, or the misfit that a stray dot makes of it. -/
def number? (cs : List Char) : Option (Except Misfit Lexeme) :=
  match decimalSpelling? cs with
  | some spelling =>
    if beginsWithPoint (cs.drop spelling.length) then
      let passed := spelling ++ ['.']
      some (.error ⟨.malformedNumber (String.ofList passed), passed⟩)
    else some (.ok ⟨.number, spelling⟩)
  | none => (integerSpelling? cs).map fun spelling => .ok ⟨.number, spelling⟩

/-- The keyword that a text begins with. -/
def keyword? (cs : List Char) : Option Lexeme :=
  (Kind.keywords.find? (·.2.isPrefixOf cs)).map fun s => ⟨s.1, s.2⟩

/-- The lexeme that a text begins with, given as its first character and the rest. -/
def read (c : Char) (r : List Char) : Except Misfit Lexeme :=
  match symbol? (c :: r) with
  | some x => .ok x
  | none =>
    if c = '"' ∨ c = '\'' then
      match stringContent? c r with
      | some content => .ok ⟨.string, c :: content ++ [c]⟩
      | none => .error ⟨.unterminatedString, c :: r⟩
    else
      match number? (c :: r) with
      | some x => x
      | none =>
        match keyword? (c :: r) with
        | some x => .ok x
        | none =>
          if beginsName c then .ok ⟨.name, c :: r.takeWhile continuesName⟩
          else .error ⟨.unexpectedCharacter c, []⟩

/-! ## How a lexeme is read -/

/-- What is found in a table of spellings stands there, and the text begins with it. -/
theorem mem_of_find? {table : List (Kind × List Char)} {cs : List Char} {x : Lexeme}
    (h : (table.find? (·.2.isPrefixOf cs)).map (fun s => ⟨s.1, s.2⟩) = some x) :
    (x.kind, x.spelling) ∈ table ∧ x.spelling <+: cs := by
  obtain ⟨s, hs, rfl⟩ := Option.map_eq_some_iff.mp h
  have hprefix := List.find?_some hs
  exact ⟨List.mem_of_find?_eq_some hs, List.isPrefixOf_iff_prefix.mp hprefix⟩

theorem symbol?_eq_some {cs : List Char} {x : Lexeme} (h : symbol? cs = some x) :
    (x.kind, x.spelling) ∈ Kind.symbols ∧ x.spelling <+: cs := mem_of_find? h

theorem keyword?_eq_some {cs : List Char} {x : Lexeme} (h : keyword? cs = some x) :
    (x.kind, x.spelling) ∈ Kind.keywords ∧ x.spelling <+: cs := mem_of_find? h

/-- **How a lexeme is read**: each kind is tried only if none before it is there. -/
theorem read_cases {c : Char} {r : List Char} {x : Lexeme} (h : read c r = .ok x) :
    symbol? (c :: r) = some x ∨ symbol? (c :: r) = none ∧
      ((c = '"' ∨ c = '\'') ∧
          (∃ content, stringContent? c r = some content ∧ x = ⟨.string, c :: content ++ [c]⟩) ∨
        ¬ (c = '"' ∨ c = '\'') ∧
          (number? (c :: r) = some (.ok x) ∨ number? (c :: r) = none ∧
            (keyword? (c :: r) = some x ∨ keyword? (c :: r) = none ∧
              beginsName c ∧ x = ⟨.name, c :: r.takeWhile continuesName⟩))) := by
  unfold read at h
  split at h
  · rename_i hsymbol
    cases h
    exact .inl hsymbol
  · rename_i hsymbol
    refine .inr ⟨hsymbol, ?_⟩
    split at h
    · rename_i hquote
      split at h <;> cases h
      rename_i hcontent
      exact .inl ⟨hquote, _, hcontent, rfl⟩
    · rename_i hquote
      refine .inr ⟨hquote, ?_⟩
      split at h
      · rename_i hnumber
        subst h
        exact .inl hnumber
      · rename_i hnumber
        refine .inr ⟨hnumber, ?_⟩
        split at h
        · rename_i hkeyword
          cases h
          exact .inl hkeyword
        · rename_i hkeyword
          split at h <;> cases h
          rename_i hc
          exact .inr ⟨hkeyword, hc, rfl⟩

/-! ## Every lexeme takes at least one character -/

theorem symbol?_spelling_ne_nil {cs : List Char} {x : Lexeme} (h : symbol? cs = some x) :
    x.spelling ≠ [] := by
  have all : ∀ s ∈ Kind.symbols, s.2 ≠ [] := by decide
  exact all _ (symbol?_eq_some h).1

theorem keyword?_spelling_ne_nil {cs : List Char} {x : Lexeme} (h : keyword? cs = some x) :
    x.spelling ≠ [] := by
  have all : ∀ s ∈ Kind.keywords, s.2 ≠ [] := by decide
  exact all _ (keyword?_eq_some h).1

theorem number?_spelling_ne_nil {cs : List Char} {x : Lexeme} (h : number? cs = some (.ok x)) :
    x.spelling ≠ [] := by
  unfold number? at h
  split at h
  · rename_i spelling hd
    split at h
    · simp at h
    · obtain rfl : (⟨.number, spelling⟩ : Lexeme) = x := by simpa using h
      unfold decimalSpelling? at hd
      grind
  · obtain ⟨spelling, hi, hx⟩ := Option.map_eq_some_iff.1 h
    obtain rfl : (⟨.number, spelling⟩ : Lexeme) = x := by simpa using hx
    unfold integerSpelling? at hi
    grind

/-- **A lexeme is never empty**, so that every token brings the scan forward. -/
theorem read_spelling_ne_nil {c : Char} {r : List Char} {x : Lexeme} (h : read c r = .ok x) :
    x.spelling ≠ [] := by
  rcases read_cases h with hx | ⟨-, ⟨-, content, -, rfl⟩ | ⟨-, hx | ⟨-, hx | ⟨-, -, rfl⟩⟩⟩⟩
  · exact symbol?_spelling_ne_nil hx
  · exact List.cons_ne_nil _ _
  · exact number?_spelling_ne_nil hx
  · exact keyword?_spelling_ne_nil hx
  · exact List.cons_ne_nil _ _

end Lexeme

end EL
