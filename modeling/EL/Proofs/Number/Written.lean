import EL.Number.Layout
import EL.Proofs.Number.Plain

/-!
# A number in JSON reads back

JSON writes a double with a point or an exponent, so that it is not taken for a count, and like EL source
it writes no digit that is not needed. **What it writes is a literal that reads as the number it was
written for** (`Magnitude.jsonText_reads`), so that different numbers are written differently, and each of
the two zeros has its own text.
-/

set_option autoImplicit false

namespace EL

/-- Digits with a point or an exponent after them, or both. -/
inductive RealNumeral : List Char → Prop where
  | pointed {w f : List Char} (hw : ∀ c ∈ w, c.isDigit) (hne : w ≠ []) (hf : ∀ c ∈ f, c.isDigit) :
      RealNumeral (w ++ '.' :: f)
  | scientific {w f ds : List Char} {sign : Char} (hw : ∀ c ∈ w, c.isDigit) (hne : w ≠ [])
      (hf : ∀ c ∈ f, c.isDigit ∨ c = '.') (hsign : sign = '+' ∨ sign = '-')
      (hds : ∀ c ∈ ds, c.isDigit) : RealNumeral (w ++ (f ++ 'e' :: sign :: ds))

namespace Decimal

theorem ofDigits_toDigits (n : Nat) : ofDigits (Nat.toDigits 10 n) = n := by
  rw [ofDigits_eq, Nat.ofDigitChars_ten_toDigits]

/-- An exponent with its sign is read as it was written. -/
theorem exponent?_signed (e : Int) :
    exponent? ('e' :: (if e < 0 then '-' else '+') :: Nat.toDigits 10 e.natAbs) = some e := by
  have hread : ofDigits? (Nat.toDigits 10 e.natAbs) = some e.natAbs := by
    have hdigits : ∀ c ∈ Nat.toDigits 10 e.natAbs, c.isDigit :=
      fun c hc => Nat.isDigit_of_mem_toDigits (by decide) (by decide) hc
    rw [ofDigits?_of_digits hdigits Nat.toDigits_ne_nil, ofDigits_toDigits]
  by_cases he : e < 0
  · have hvalue : -(e.natAbs : Int) = e := by omega
    rw [if_pos he, exponent?, if_pos (.inl rfl), hread]
    exact congrArg some hvalue
  · have hvalue : (e.natAbs : Int) = e := by omega
    rw [if_neg he, exponent?, if_pos (.inl rfl), hread]
    exact congrArg some hvalue

end Decimal

namespace Digits

section
variable {d : Digits} (hd : ∀ c ∈ d.digits, c.isDigit)
include hd

/-- Plain notation with a point has the value of the digits. -/
theorem pointed_reads : RealNumeral d.pointed ∧ ∃ (i : Nat) (x : Int),
    Decimal.ofText? d.pointed = some ⟨Decimal.ofDigits d.digits * 10 ^ i, x⟩ ∧
      i + x = d.point - d.digits.length := by
  obtain ⟨w, f, i, hsplit, hne, hw, hf, hvalue, hpoint⟩ := split_eq hd
  unfold pointed
  rw [hsplit]
  cases f with
  | nil =>
    have hzero : ∀ c ∈ ['0'], c.isDigit := List.forall_mem_singleton.mpr rfl
    rw [List.append_nil] at hvalue
    have hone := Decimal.ofDigits_append_zeros w 1
    rw [hvalue, Nat.mul_assoc, ← Nat.pow_add] at hone
    refine ⟨.pointed hw hne hzero, i + 1, -1, ?_, ?_⟩
    · show Decimal.ofText? (w ++ '.' :: ['0']) = _
      rw [Decimal.ofText?_pointed hw hzero hne, ← hone]
      rfl
    · simp only [List.length_nil] at hpoint
      omega
  | cons c f =>
    refine ⟨.pointed hw hne hf, i, _, ?_, by rw [← Int.sub_eq_add_neg, hpoint]⟩
    rw [Decimal.ofText?_pointed hw hf hne, hvalue]

/-- So has scientific notation. -/
theorem scientific_reads (hne : d.digits ≠ []) : RealNumeral d.scientific ∧ ∃ (i : Nat) (x : Int),
    Decimal.ofText? d.scientific = some ⟨Decimal.ofDigits d.digits * 10 ^ i, x⟩ ∧
      i + x = d.point - d.digits.length := by
  have hexponent := Decimal.exponent?_signed (d.point - 1)
  have hsign : (if d.point - 1 < 0 then '-' else '+') = '+' ∨
      (if d.point - 1 < 0 then '-' else '+') = '-' := by
    split
    · exact .inr rfl
    · exact .inl rfl
  have hpower : ∀ c ∈ Nat.toDigits 10 (d.point - 1).natAbs, c.isDigit :=
    fun c hc => Nat.isDigit_of_mem_toDigits (by decide) (by decide) hc
  unfold scientific
  obtain ⟨digits, point⟩ := d
  cases digits with
  | nil => exact absurd rfl hne
  | cons c r =>
    cases r with
    | nil =>
      refine ⟨.scientific (f := []) hd hne (by simp) hsign hpower, 0, point - 1, ?_, by simp⟩
      have hmark : ∀ x ∈ ('e' :: (if point - 1 < 0 then '-' else '+') ::
          Nat.toDigits 10 (point - 1).natAbs).head?, x.isDigit = false ∧ x ≠ '.' := by
        simp
      simpa using Decimal.ofText?_exponent hd hne hmark hexponent
    | cons c' r =>
      obtain ⟨hc, hr⟩ := List.forall_mem_cons.mp hd
      have hw : ∀ x ∈ [c], x.isDigit := List.forall_mem_singleton.mpr hc
      have hf : ∀ x ∈ '.' :: c' :: r, x.isDigit ∨ x = '.' :=
        List.forall_mem_cons.mpr ⟨.inr rfl, fun x hx => .inl (hr x hx)⟩
      refine ⟨.scientific hw (List.cons_ne_nil _ _) hf hsign hpower, 0, point - 1 - (r.length + 1),
        ?_, ?_⟩
      · have hmark : ∀ x ∈ ('e' :: (if point - 1 < 0 then '-' else '+') ::
            Nat.toDigits 10 (point - 1).natAbs).head?, x.isDigit = false := by
          simp
        simpa using Decimal.ofText?_pointed_exponent hw hr (by simp) hmark hexponent
      · simp only [List.length_cons]
        omega

end

end Digits

namespace Magnitude

variable {m n : Magnitude}

/-- A magnitude that is not zero has a digit. -/
theorem digits_shortest_ne_nil (tie : Tie) (hm : m.rank ≠ 0) :
    (Digits.ofDecimal (m.shortest tie)).digits ≠ [] := by
  intro hnil
  obtain ⟨-, j, hcoefficient, -⟩ := Digits.ofDecimal_eq (m.shortest tie)
  rw [hnil, show Decimal.ofDigits [] = 0 from rfl, Nat.zero_mul] at hcoefficient
  have hback := magnitude?_shortest tie m
  rw [Decimal.magnitude?, if_pos hcoefficient] at hback
  exact hm (congrArg rank (Option.some.inj hback)).symm

/-- **A number in JSON is the number that its text reads as.** -/
theorem jsonText_reads (m : Magnitude) :
    RealNumeral m.jsonText ∧ Number.ofLiteral? m.jsonText = some (.finite false m) := by
  unfold jsonText
  split
  · rename_i hm
    obtain ⟨rank, hrank⟩ := m
    obtain rfl : rank = 0 := hm
    have hzero : ∀ c ∈ ['0'], c.isDigit := List.forall_mem_singleton.mpr rfl
    exact ⟨.pointed hzero (List.cons_ne_nil _ _) hzero, rfl⟩
  · rename_i hm
    obtain ⟨hdigits, -⟩ := Digits.ofDecimal_eq (m.shortest .even)
    dsimp only
    split
    · obtain ⟨hnumeral, i, x, hread, hx⟩ := Digits.pointed_reads hdigits
      exact ⟨hnumeral, ofLiteral?_of_digits hread hx⟩
    · obtain ⟨hnumeral, i, x, hread, hx⟩ :=
        Digits.scientific_reads hdigits (digits_shortest_ne_nil .even hm)
      exact ⟨hnumeral, ofLiteral?_of_digits hread hx⟩

theorem jsonText_injective (h : m.jsonText = n.jsonText) : m = n := by
  have hm := m.jsonText_reads.2
  rw [h, n.jsonText_reads.2] at hm
  cases hm
  rfl

end Magnitude

end EL
