/-!
# Escapes in string literals

Between its quotes a string literal may hold a backslash followed by any character, so that a
quote can be written without ending the literal. Only two of these pairs stand for something
else than themselves: `\\` is a backslash and `\"` is a double quote. Every other pair, `\'` and
`\n` included, is the two characters it is written with.

`escape` writes a value so that it can stand between double quotes, and `unescape` reads it back:
`unescape_escape` is why a printed string literal has the value it was printed from. The converse
does not hold, since `\n` and `\\n` have the same value.
-/

set_option autoImplicit false

namespace EL.Text

/-- The characters that a backslash turns into themselves. -/
def isEscapable (c : Char) : Bool := c = '\\' || c = '"'

/-- The value of the raw text of a string literal. A backslash that ends the text stands for
    itself. -/
def unescape : List Char → List Char
  | [] => []
  | '\\' :: c :: r => if isEscapable c then c :: unescape r else '\\' :: c :: unescape r
  | c :: r => c :: unescape r

/-- The raw text, between double quotes, of a string literal with the given value. -/
def escape : List Char → List Char
  | [] => []
  | c :: r => if isEscapable c then '\\' :: c :: escape r else c :: escape r

theorem unescape_cons_of_ne {c : Char} (h : c ≠ '\\') (r : List Char) :
    unescape (c :: r) = c :: unescape r := by
  cases r <;> simp [unescape, h]

/-- What is written is read back. -/
theorem unescape_escape (cs : List Char) : unescape (escape cs) = cs := by
  induction cs with
  | nil => rfl
  | cons c r ih =>
    by_cases h : isEscapable c = true
    · simp [escape, unescape, h, ih]
    · have hc : c ≠ '\\' := by rintro rfl; exact h rfl
      simp [escape, h, unescape_cons_of_ne hc, ih]

/-- `unescape` on strings. -/
def unescapeString (s : String) : String := String.ofList (unescape s.toList)

/-- `escape` on strings. -/
def escapeString (s : String) : String := String.ofList (escape s.toList)

end EL.Text
