/-!
# Blank characters: the Unicode property `White_Space`

Tokens are set apart by blanks, and the blanks are those of Unicode, not of ASCII: a no-break
space or an ideographic space separates two names as well as a space does. The property has
twenty-five characters and has been stable for many years, so it is a table here.
-/

set_option autoImplicit false

namespace EL.Text

/-- The code points with the property `White_Space`, as ranges with both ends included. -/
def blankRanges : List (Nat × Nat) :=
  [(0x0009, 0x000D), (0x0020, 0x0020), (0x0085, 0x0085), (0x00A0, 0x00A0), (0x1680, 0x1680),
   (0x2000, 0x200A), (0x2028, 0x2029), (0x202F, 0x202F), (0x205F, 0x205F), (0x3000, 0x3000)]

/-- Is this character blank? -/
def isBlank (c : Char) : Bool := blankRanges.any fun r => r.1 ≤ c.toNat && c.toNat ≤ r.2

/-- What the ASCII notion of white space calls blank is blank. -/
theorem isBlank_of_isWhitespace {c : Char} (h : c.isWhitespace = true) : isBlank c = true := by
  have h' : c = ' ' ∨ c = '\t' ∨ c = '\r' ∨ c = '\n' := by
    simp [Char.isWhitespace] at h
    grind
  rcases h' with rfl | rfl | rfl | rfl <;> rfl

/-- The text without the blanks at its two ends. -/
def trimBlank (cs : List Char) : List Char :=
  ((cs.dropWhile isBlank).reverse.dropWhile isBlank).reverse

end EL.Text
