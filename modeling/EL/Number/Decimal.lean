import EL.Number.Rounding

/-!
# Decimals: reading a number

A `Decimal` is what a number literal spells: an exact value `coefficient * 10 ^ exponent`. Reading
a number is reading a decimal (`Decimal.ofText?`) and rounding it once (`Decimal.magnitude?`), so
the text `0.1` and the text `0.1000000000000000055` are the same number because they round to the
same double, and for no other reason.
-/

set_option autoImplicit false

namespace EL

/-- An exact decimal value, `coefficient * 10 ^ exponent`. -/
structure Decimal where
  /-- The digits, read as one natural number. -/
  coefficient : Nat
  /-- The power of ten that the coefficient is scaled by. -/
  exponent : Int
deriving DecidableEq

namespace Decimal

/-- The natural number that a run of decimal digits spells. -/
def ofDigits (cs : List Char) : Nat := cs.foldl (fun n c => 10 * n + (c.toNat - '0'.toNat)) 0

/-- The natural number spelled by a text of decimal digits, of which there must be one. -/
def ofDigits? (cs : List Char) : Option Nat :=
  if cs ≠ [] ∧ cs.all Char.isDigit then some (ofDigits cs) else none

/-- The exponent part of a literal: nothing at all, or a mark, an optional sign and digits. -/
def exponent? : List Char → Option Int
  | [] => some 0
  | c :: r =>
    if c = 'e' ∨ c = 'E' then
      match r with
      | '-' :: ds => (ofDigits? ds).map fun n => -(n : Int)
      | '+' :: ds => (ofDigits? ds).map fun n => (n : Int)
      | ds => (ofDigits? ds).map fun n => (n : Int)
    else none

/-- The decimal that a literal spells: digits, optionally a point and digits, optionally an
    exponent, with at least one digit before the exponent. -/
def ofText? (cs : List Char) : Option Decimal :=
  let (whole, tail) := cs.span Char.isDigit
  let (fraction, tail) :=
    match tail with
    | '.' :: tail => tail.span Char.isDigit
    | tail => ([], tail)
  if whole = [] ∧ fraction = [] then none
  else (exponent? tail).map fun e => ⟨ofDigits (whole ++ fraction), e - fraction.length⟩

/-- The double nearest to a decimal, unless that is infinity. A power of ten that is far out of
    range decides the answer by itself and is never computed: `10 ^ 400` is too large for any
    coefficient but zero, and a coefficient of `b` bits times `10 ^ -(400 + b)` rounds to zero. -/
def magnitude? (d : Decimal) : Option Magnitude :=
  if d.coefficient = 0 then some .zero
  else if 400 < d.exponent then none
  else if d.exponent < -(400 + (d.coefficient.log2 + 1 : Nat)) then some .zero
  else Magnitude.ofRatio? (d.coefficient * Nat.pow 10 d.exponent.toNat)
    (Nat.pow 10 (-d.exponent).toNat)

/-- The number nearest to a decimal with a sign in front. -/
def toNumber (negative : Bool) (d : Decimal) : Number :=
  match d.magnitude? with
  | some m => .finite negative m
  | none => .infinite negative

end Decimal

namespace Number

/-- The number that an unsigned literal stands for, which may be infinite. -/
def ofLiteral? (cs : List Char) : Option Number := (Decimal.ofText? cs).map (·.toNumber false)

/-- Reads a number in the form that numbers are printed in: a literal with an optional minus sign,
    or one of the words for what no literal stands for. -/
def ofText? (cs : List Char) : Option Number :=
  let (negative, cs) :=
    match cs with
    | '-' :: r => (true, r)
    | r => (false, r)
  if cs = ['i', 'n', 'f'] then some (.infinite negative)
  else if cs = ['N', 'a', 'N'] then some .nan
  else (Decimal.ofText? cs).map (·.toNumber negative)

end Number

end EL
