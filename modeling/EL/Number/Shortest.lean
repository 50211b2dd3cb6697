import EL.Number.Decimal

/-!
# The shortest decimal that reads back

A number is printed with as few digits as tell it apart from its neighbours. Every magnitude is a
whole number of units of `2^-1074`, hence a whole number of `10^-1074`, and `expansion` is that
natural number. Cutting it after `n` digits leaves two candidates, the cut itself and the one
above it; the first `n` for which one of them reads back as the same magnitude gives the answer.
If both do, the nearer wins, and what happens halfway is a choice (`Tie`) that each printed
format makes for itself.

Reading back is asked of the reader (`Decimal.magnitude?`), not of a formula for intervals, so
that the two cannot drift apart. The complete expansion always reads back, which is what is
printed should no shorter one be found.
-/

set_option autoImplicit false

namespace EL

/-- Which of two equally near candidates of the same length is printed. -/
inductive Tie where
  /-- The larger one. -/
  | up
  /-- The one whose last digit is even. -/
  | even
deriving DecidableEq

namespace Magnitude

/-- The value of a magnitude as a whole number of `10^-1074`. -/
def expansion (m : Magnitude) : Nat := m.units * Nat.pow 5 1074

/-- How many decimal digits a positive number has. Its binary logarithm determines that up to one,
    and a comparison decides; `30102 / 100000` is a little less than the logarithm of two to base
    ten, near enough for numbers of a few thousand bits. -/
def decimalLength (x : Nat) : Nat :=
  let atLeast := x.log2 * 30102 / 100000
  if x < Nat.pow 10 (atLeast + 1) then atLeast + 1 else atLeast + 2

/-- Does this decimal round to this magnitude? -/
def readsBack (m : Magnitude) (d : Decimal) : Bool := d.magnitude? = some m

/-- The better of the two neighbours of `x` on the grid of step `10 ^ k`, in steps, among those
    that `ok` admits. -/
def nearestOnGrid? (tie : Tie) (x k : Nat) (ok : Nat → Bool) : Option Nat :=
  let step := Nat.pow 10 k
  let below := x / step
  let above := below + 1
  match ok below, ok above with
  | false, false => none
  | true, false => some below
  | false, true => some above
  | true, true =>
    if 2 * (x % step) < step then some below
    else if step < 2 * (x % step) then some above
    else match tie with
      | .up => some above
      | .even => some (if below % 2 = 0 then below else above)

/-- The decimal with the fewest digits, and among those the nearest, that reads back as `m`. -/
def shortest (tie : Tie) (m : Magnitude) : Decimal :=
  if m.rank = 0 then ⟨0, 0⟩
  else
    let x := m.expansion
    let length := decimalLength x
    let candidate (n : Nat) : Option Decimal :=
      let k := length - n
      let exponent : Int := k - 1074
      (nearestOnGrid? tie x k fun c => m.readsBack ⟨c, exponent⟩).map fun c => ⟨c, exponent⟩
    ((List.range' 1 17).findSome? candidate).getD ⟨x, -1074⟩

end Magnitude

end EL
