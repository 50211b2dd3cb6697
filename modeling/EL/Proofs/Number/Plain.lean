import EL.Number.Layout
import EL.Proofs.Number.Scaling
import Mathlib.Data.List.TakeDrop
import Mathlib.Data.List.TakeWhile

/-!
# A number in EL source reads back

EL source writes a number in plain notation: digits, and a point only where digits follow it
(`Numeral`). That moves the point of the decimal and adds or drops zeros, and none of it changes
the value, so **a printed number is read as the number it was printed from**
(`ofLiteral?_sourceText`).
-/

set_option autoImplicit false

namespace EL

/-- Digits, or digits with a point between them. -/
inductive Numeral : List Char → Prop where
  | whole {w : List Char} (hw : ∀ c ∈ w, c.isDigit) (hne : w ≠ []) : Numeral w
  | pointed {w f : List Char} (hw : ∀ c ∈ w, c.isDigit) (hne : w ≠ []) (hf : ∀ c ∈ f, c.isDigit)
      (hfne : f ≠ []) : Numeral (w ++ '.' :: f)

namespace Decimal

theorem ofDigits_eq (cs : List Char) : ofDigits cs = Nat.ofDigitChars 10 cs 0 :=
  Nat.ofDigitChars_eq_foldl.symm

/-- Zeros at the end of digits are powers of ten. -/
theorem ofDigits_append_zeros (cs : List Char) (n : Nat) :
    ofDigits (cs ++ List.replicate n '0') = ofDigits cs * 10 ^ n := by
  rw [ofDigits_eq, ofDigits_eq, Nat.ofDigitChars_append, Nat.ofDigitChars_replicate_zero,
    Nat.mul_comm]

/-- Zeros at the beginning of digits are nothing. -/
theorem ofDigits_zeros_append (n : Nat) (cs : List Char) :
    ofDigits (List.replicate n '0' ++ cs) = ofDigits cs := by
  rw [ofDigits_eq, ofDigits_eq, Nat.ofDigitChars_append, Nat.ofDigitChars_replicate_zero,
    Nat.mul_zero]

theorem ofDigits?_of_digits {ds : List Char} (hds : ∀ c ∈ ds, c.isDigit) (hne : ds ≠ []) :
    ofDigits? ds = some (ofDigits ds) := by
  have hall : ds.all Char.isDigit = true := List.all_eq_true.mpr hds
  rw [ofDigits?, if_pos ⟨hne, hall⟩]

theorem span_digits {w cs : List Char} (hw : ∀ c ∈ w, c.isDigit)
    (hcs : ∀ c ∈ cs.head?, c.isDigit = false) : (w ++ cs).span Char.isDigit = (w, cs) := by
  rw [List.span_eq_takeWhile_dropWhile, List.takeWhile_append_of_pos hw,
    List.dropWhile_append_of_pos hw]
  cases cs with
  | nil => simp
  | cons c r =>
    have hc : c.isDigit = false := hcs c rfl
    simp [hc]

section
variable {w f tail : List Char} {x : Int} (hw : ∀ c ∈ w, c.isDigit)
include hw

/-! Digits, perhaps a point and more digits, and perhaps an exponent. -/

theorem ofText?_exponent (hne : w ≠ []) (htail : ∀ c ∈ tail.head?, c.isDigit = false ∧ c ≠ '.')
    (hx : exponent? tail = some x) : ofText? (w ++ tail) = some ⟨ofDigits w, x⟩ := by
  have hspan := span_digits hw fun c hc => (htail c hc).1
  simp only [ofText?, hspan]
  split
  · exact absurd rfl (htail '.' rfl).2
  · simp [hne, hx]

theorem ofText?_pointed_exponent (hf : ∀ c ∈ f, c.isDigit) (hne : ¬ (w = [] ∧ f = []))
    (htail : ∀ c ∈ tail.head?, c.isDigit = false) (hx : exponent? tail = some x) :
    ofText? (w ++ '.' :: (f ++ tail)) = some ⟨ofDigits (w ++ f), x - f.length⟩ := by
  have hspan : (w ++ '.' :: (f ++ tail)).span Char.isDigit = (w, '.' :: (f ++ tail)) :=
    span_digits hw (by simp)
  have hspan' := span_digits hf htail
  simp only [ofText?, hspan, hspan', if_neg hne, hx, Option.map_some]

theorem ofText?_whole (hne : w ≠ []) : ofText? w = some ⟨ofDigits w, 0⟩ := by
  have hnone : ∀ c ∈ ([] : List Char).head?, c.isDigit = false ∧ c ≠ '.' := by simp
  have hread := ofText?_exponent hw hne hnone rfl
  rwa [List.append_nil] at hread

theorem ofText?_pointed (hf : ∀ c ∈ f, c.isDigit) (hne : w ≠ []) :
    ofText? (w ++ '.' :: f) = some ⟨ofDigits (w ++ f), -f.length⟩ := by
  have hnone : ∀ c ∈ ([] : List Char).head?, c.isDigit = false := by simp
  have hread := ofText?_pointed_exponent hw hf (fun h => hne h.1) hnone rfl
  rwa [List.append_nil, Int.zero_sub] at hread

end

end Decimal

namespace Digits

/-- Digits before the point and after it, their value, and the power of ten between that and the
    value of the digits alone. -/
theorem split_eq {d : Digits} (hd : ∀ c ∈ d.digits, c.isDigit) :
    ∃ (w f : List Char) (i : Nat), d.split = (w, f) ∧ w ≠ [] ∧ (∀ c ∈ w, c.isDigit) ∧ (∀ c ∈ f, c.isDigit) ∧
      Decimal.ofDigits (w ++ f) = Decimal.ofDigits d.digits * 10 ^ i ∧
      (i : Int) - f.length = d.point - d.digits.length := by
  have hzeros : ∀ n, ∀ c ∈ List.replicate n '0', c.isDigit := by
    intro n c hc
    rw [List.eq_of_mem_replicate hc]
    rfl
  have happend : ∀ {a b : List Char}, (∀ c ∈ a, c.isDigit) → (∀ c ∈ b, c.isDigit) →
      ∀ c ∈ a ++ b, c.isDigit := by
    intro a b ha hb c hc
    rcases List.mem_append.mp hc with h | h
    · exact ha c h
    · exact hb c h
  unfold split
  split
  · refine ⟨_, _, 0, rfl, by simp, List.forall_mem_singleton.mpr rfl, happend (hzeros _) hd, ?_, ?_⟩
    · rw [Nat.pow_zero, Nat.mul_one, ← List.append_assoc]
      exact Decimal.ofDigits_zeros_append ((-d.point).toNat + 1) d.digits
    · simp only [List.length_append, List.length_replicate]
      omega
  · have htake : ∀ c ∈ d.digits.take d.point.toNat, c.isDigit :=
      fun c hc => hd c (List.mem_of_mem_take hc)
    have hdrop : ∀ c ∈ d.digits.drop d.point.toNat, c.isDigit :=
      fun c hc => hd c (List.mem_of_mem_drop hc)
    refine ⟨_, _, d.point.toNat - d.digits.length, rfl, ?_, happend htake (hzeros _), hdrop, ?_, ?_⟩
    · intro h
      have hlen := congrArg List.length h
      simp only [List.length_append, List.length_take, List.length_replicate, List.length_nil] at hlen
      omega
    · by_cases hle : d.digits.length ≤ d.point.toNat
      · rw [List.take_of_length_le hle, List.drop_eq_nil_of_le hle, List.append_nil]
        exact Decimal.ofDigits_append_zeros _ _
      · rw [Nat.sub_eq_zero_of_le (by omega), List.replicate_zero, List.append_nil,
          List.take_append_drop, Nat.pow_zero, Nat.mul_one]
    · simp only [List.length_drop]
      omega

/-- **Plain notation has the value of the digits, whatever the place of the point.** -/
theorem plain_reads {d : Digits} (hd : ∀ c ∈ d.digits, c.isDigit) :
    Numeral d.plain ∧ ∃ (i : Nat) (x : Int), Decimal.ofText? d.plain = some ⟨Decimal.ofDigits d.digits * 10 ^ i, x⟩ ∧
      i + x = d.point - d.digits.length := by
  obtain ⟨w, f, i, hsplit, hne, hw, hf, hvalue, hpoint⟩ := split_eq hd
  unfold plain
  rw [hsplit]
  cases f with
  | nil =>
    rw [List.append_nil] at hvalue
    refine ⟨.whole hw hne, i, 0, ?_, by simpa using hpoint⟩
    rw [Decimal.ofText?_whole hw hne, hvalue]
  | cons c f =>
    refine ⟨.pointed hw hne hf (List.cons_ne_nil c f), i, _, ?_, by rw [← Int.sub_eq_add_neg, hpoint]⟩
    rw [Decimal.ofText?_pointed hw hf hne, hvalue]

/-- The digits of a decimal are those of its coefficient, but for zeros at the end. -/
theorem ofDecimal_eq (d : Decimal) : (∀ c ∈ (ofDecimal d).digits, c.isDigit) ∧
    ∃ j : Nat, d.coefficient = Decimal.ofDigits (ofDecimal d).digits * 10 ^ j ∧
      (ofDecimal d).point - (ofDecimal d).digits.length = j + d.exponent := by
  obtain ⟨zs, hzs⟩ : ∃ zs, zs = (Nat.toDigits 10 d.coefficient).reverse.takeWhile (· = '0') :=
    ⟨_, rfl⟩
  have hzeros : zs.reverse = List.replicate zs.length '0' := by
    rw [List.eq_replicate_iff, List.length_reverse]
    refine ⟨rfl, fun c hc => ?_⟩
    rw [List.mem_reverse, hzs] at hc
    simpa using List.mem_takeWhile_imp hc
  have hall : Nat.toDigits 10 d.coefficient =
      (ofDecimal d).digits ++ List.replicate zs.length '0' := by
    rw [← hzeros, hzs, ofDecimal, ← List.reverse_append, List.takeWhile_append_dropWhile,
      List.reverse_reverse]
  refine ⟨fun c hc => ?_, zs.length, ?_, ?_⟩
  · refine Nat.isDigit_of_mem_toDigits (b := 10) (n := d.coefficient) (by decide) (by decide) ?_
    rw [hall]
    exact List.mem_append_left _ hc
  · rw [← Decimal.ofDigits_append_zeros, ← hall, Decimal.ofDigits_eq,
      Nat.ofDigitChars_ten_toDigits]
  · have hlen := congrArg List.length hall
    have hpoint : (ofDecimal d).point = (Nat.toDigits 10 d.coefficient).length + d.exponent := rfl
    rw [List.length_append, List.length_replicate] at hlen
    omega

end Digits

/-- **A text with the digits of the shortest decimal reads back**, wherever it has its zeros and its
    point. -/
theorem Magnitude.ofLiteral?_of_digits {m : Magnitude} {tie : Tie} {cs : List Char} {i : Nat} {x : Int}
    (hread : Decimal.ofText? cs =
      some ⟨Decimal.ofDigits (Digits.ofDecimal (m.shortest tie)).digits * 10 ^ i, x⟩)
    (hx : i + x = (Digits.ofDecimal (m.shortest tie)).point -
      (Digits.ofDecimal (m.shortest tie)).digits.length) :
    Number.ofLiteral? cs = some (.finite false m) := by
  have hback := magnitude?_shortest tie m
  obtain ⟨-, j, hcoefficient, hpoint⟩ := Digits.ofDecimal_eq (m.shortest tie)
  generalize m.shortest tie = d at *
  obtain ⟨n, y⟩ := d
  dsimp only at hcoefficient hpoint
  rw [hcoefficient, Decimal.magnitude?_mul_pow] at hback
  rw [Number.ofLiteral?, hread, Option.map_some, Decimal.toNumber, Decimal.magnitude?_mul_pow,
    show x + i = y + j by omega, hback]

/-- A number is printed as a numeral, and **read as the number that it was printed from.** -/
theorem Magnitude.sourceText_reads (m : Magnitude) :
    Numeral m.sourceText ∧ Number.ofLiteral? m.sourceText = some (.finite false m) := by
  unfold sourceText
  split
  · rename_i hm
    obtain ⟨rank, hrank⟩ := m
    obtain rfl : rank = 0 := hm
    exact ⟨.whole (List.forall_mem_singleton.mpr rfl) (List.cons_ne_nil _ _), rfl⟩
  · obtain ⟨hdigits, -⟩ := Digits.ofDecimal_eq (m.shortest .up)
    obtain ⟨hnumeral, i, x, hread, hx⟩ := Digits.plain_reads hdigits
    exact ⟨hnumeral, ofLiteral?_of_digits hread hx⟩

end EL
