/-!
# Numbers: the doubles, by rank

EL has a single type of number, the double-precision binary floating point number. The language
itself only reads, writes and compares numbers; evaluation belongs to the host. So nothing here
computes in floating point. A finite number is a sign and a *magnitude*, and a magnitude is its
**rank in the increasing sequence of all of them**:

> rank 0 is zero, rank 1 is `2^-1074`, and each rank above is the next larger double.

The gap between neighbours is one *unit* of `2^-1074` for the first `2 * 2^52` ranks and doubles
with every `2^52` ranks after that, so `Magnitude.units` gives the exact value as a natural
number of units. Rounding to the nearest double is then rounding to the nearest rank
(`EL.Number.Rounding`), subnormal numbers and carries into the next binade included, with no case
distinction.
-/

set_option autoImplicit false

namespace EL

/-- How many magnitudes share one gap to their neighbours: `2 ^ 52`. -/
def Magnitude.binade : Nat := 4503599627370496

/-- How many finite magnitudes there are; the rank that would come next is infinity. -/
def Magnitude.total : Nat := 2047 * binade

/-- A finite double without its sign. -/
structure Magnitude where
  /-- How many smaller magnitudes there are. -/
  rank : Nat
  /-- The rank is that of a finite number. -/
  rank_lt : rank < Magnitude.total
deriving DecidableEq

namespace Magnitude

/-- Zero is the smallest magnitude. -/
def zero : Magnitude := ⟨0, by decide⟩

/-- The largest finite magnitude. -/
def largest : Magnitude := ⟨total - 1, by decide⟩

instance : Inhabited Magnitude := ⟨zero⟩

/-- The magnitude of a rank, if it is finite. -/
def ofRank? (r : Nat) : Option Magnitude :=
  if h : r < total then some ⟨r, h⟩ else none

/-- The binary logarithm of the gap, in units, that this magnitude is measured in. -/
def scale (m : Magnitude) : Nat := m.rank / binade - 1

/-- The value of a magnitude as a whole number of units of `2^-1074`. -/
def units (m : Magnitude) : Nat := (m.rank - m.scale * binade) * Nat.pow 2 m.scale

@[simp] theorem ofRank?_rank (m : Magnitude) : ofRank? m.rank = some m := by
  simp [ofRank?, m.rank_lt]

end Magnitude

/-- A double. -/
inductive Number where
  /-- A finite number; zero has a sign too. -/
  | finite (negative : Bool) (magnitude : Magnitude)
  /-- One of the two infinities. -/
  | infinite (negative : Bool)
  /-- Not a number. -/
  | nan
deriving DecidableEq

namespace Number

instance : Inhabited Number := ⟨.finite false .zero⟩

/-- Is this a finite number? Only finite numbers have literals. -/
def isFinite : Number → Bool
  | .finite _ _ => true
  | _ => false

/-- Numeric equality: the two zeros are equal, and `nan` is not equal to itself. -/
def same : Number → Number → Bool
  | .finite s m, .finite t n => m = n && (s = t || m = .zero)
  | .infinite s, .infinite t => s = t
  | _, _ => false

/-- Change the sign; `nan` has none that counts. -/
def negate : Number → Number
  | .finite s m => .finite (!s) m
  | .infinite s => .infinite (!s)
  | .nan => .nan

theorem same_refl_of_isFinite {n : Number} (h : n.isFinite = true) : n.same n = true := by
  cases n <;> simp_all [isFinite, same]

theorem same_comm (a b : Number) : a.same b = b.same a := by
  cases a <;> cases b <;> simp only [same] <;> grind

end Number

end EL
