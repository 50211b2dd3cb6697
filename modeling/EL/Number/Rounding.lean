import EL.Number.Basic

/-!
# Rounding a ratio to the nearest double

A decimal literal denotes a ratio of natural numbers, and its value as an EL number is the nearest
double, a tie going to the neighbour of even rank. Counted in ranks this is a single division:
`log2` of the value in units says how wide the gap is there, and the ratio measured in that gap is
rounded to a whole number, half to even. Adding the ranks below gives the rank. When the rounded
number reaches the next binade, the sum is the rank of its first member, as it should be.
-/

set_option autoImplicit false

namespace EL

/-- The quotient rounded to the nearest natural number, a half going to the even neighbour. -/
def divEven (n d : Nat) : Nat :=
  let q := n / d
  let r := n % d
  if 2 * r < d then q else if d < 2 * r then q + 1 else q + q % 2

/-- An exact quotient is not changed by rounding. -/
theorem divEven_mul (q : Nat) {d : Nat} (h : 0 < d) : divEven (q * d) d = q := by
  simp [divEven, Nat.mul_mod_left, h]

namespace Magnitude

/-- The rank nearest to `n / d`; `total` or more means that the ratio rounds to infinity. -/
def nearestRank (n d : Nat) : Nat :=
  let units := n * Nat.pow 2 1074
  let scale := (units / d).log2 - 52
  scale * binade + divEven units (d * Nat.pow 2 scale)

/-- The magnitude nearest to `n / d`, unless that is infinity. -/
def ofRatio? (n d : Nat) : Option Magnitude := ofRank? (nearestRank n d)

end Magnitude

end EL
