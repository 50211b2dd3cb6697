import EL.Number.Shortest

/-!
# Layouts: how a number is written out

Two formats show numbers. EL source writes them in *plain* notation, whatever their size, since
a reader of EL sees no difference between `1e300` and its three hundred zeros: no point is written
without digits after it, and what no literal stands for is written as a word. JSON writes them so
that they are seen to be floating point: always with a point or an exponent, an exponent being
used where plain notation would need more than sixteen digits before the point or more than four
zeros after it. JSON has no words for infinities and `nan`, so these have no JSON layout.
-/

set_option autoImplicit false

namespace EL

/-- Significant digits and the place of the decimal point: the value is `0.d₁d₂… * 10 ^ point`. -/
structure Digits where
  /-- The digits from the first to the last that is not zero. -/
  digits : List Char
  /-- How far to the right of the first digit's left edge the decimal point stands. -/
  point : Int

namespace Digits

/-- The digits of a decimal, without the zeros at its end, which the place of the point implies. -/
def ofDecimal (d : Decimal) : Digits :=
  let all := Nat.toDigits 10 d.coefficient
  ⟨(all.reverse.dropWhile (· = '0')).reverse, all.length + d.exponent⟩

/-- Digits before the point, zero being written as a digit, and digits after it. -/
def split (d : Digits) : List Char × List Char :=
  if d.point ≤ 0 then (['0'], List.replicate (-d.point).toNat '0' ++ d.digits)
  else
    let p := d.point.toNat
    (d.digits.take p ++ List.replicate (p - d.digits.length) '0', d.digits.drop p)

/-- Plain notation, with a point only if digits follow it. -/
def plain (d : Digits) : List Char :=
  match d.split with
  | (whole, []) => whole
  | (whole, fraction) => whole ++ '.' :: fraction

/-- Plain notation with at least one digit after the point. -/
def pointed (d : Digits) : List Char :=
  match d.split with
  | (whole, []) => whole ++ ['.', '0']
  | (whole, fraction) => whole ++ '.' :: fraction

/-- One digit before the point, and an exponent with its sign. -/
def scientific (d : Digits) : List Char :=
  let e := d.point - 1
  let mantissa :=
    match d.digits with
    | c :: c' :: r => c :: '.' :: c' :: r
    | r => r
  let sign := if e < 0 then '-' else '+'
  mantissa ++ 'e' :: sign :: Nat.toDigits 10 e.natAbs

end Digits

/-- A finite magnitude in JSON. -/
def Magnitude.jsonText (m : Magnitude) : List Char :=
  if m.rank = 0 then ['0', '.', '0']
  else
    let d := Digits.ofDecimal (m.shortest .even)
    if -5 < d.point ∧ d.point ≤ 16 then d.pointed else d.scientific

/-- A finite magnitude in EL source. -/
def Magnitude.sourceText (m : Magnitude) : List Char :=
  if m.rank = 0 then ['0'] else (Digits.ofDecimal (m.shortest .up)).plain

namespace Number

/-- A minus sign for a negative number. -/
def signText (negative : Bool) : List Char := if negative then ['-'] else []

/-- A number in EL source. A literal has no sign, so a negative number reads back as a negation. -/
def sourceText : Number → List Char
  | .finite s m => signText s ++ m.sourceText
  | .infinite s => signText s ++ ['i', 'n', 'f']
  | .nan => ['N', 'a', 'N']

/-- A number in JSON, where only finite numbers can be written. -/
def jsonText? : Number → Option (List Char)
  | .finite s m => some (signText s ++ m.jsonText)
  | _ => none

end Number

end EL
