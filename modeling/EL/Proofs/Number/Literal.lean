import EL.Proofs.Number.Plain
import EL.Proofs.Passages

/-!
# Number tokens are numbers

Scanning a number and reading it are two passes over the same characters, and the second could fail
where the first did not. It does not: **what is scanned as a number has a decimal value**
(`Token.exists_decimal`), so the only thing that can be wrong with a number token is that the value is
too large.
-/

set_option autoImplicit false

namespace EL

namespace Decimal

/-- Digits after a sign, or after none, are an exponent. -/
theorem exists_exponent?_sign {c : Char} {sign ds : List Char} (hc : c = 'e' ∨ c = 'E')
    (hsign : sign = [] ∨ sign = ['+'] ∨ sign = ['-']) (hds : ∀ d ∈ ds, d.isDigit) (hne : ds ≠ []) :
    ∃ x, exponent? (c :: (sign ++ ds)) = some x := by
  have hread := ofDigits?_of_digits hds hne
  rcases hsign with rfl | rfl | rfl
  · rw [List.nil_append, exponent?, if_pos hc, hread]
    · exact ⟨_, rfl⟩
    -- The first digit is not taken for a sign.
    · rintro r rfl
      exact absurd (hds '-' List.mem_cons_self) (by decide)
    · rintro r rfl
      exact absurd (hds '+' List.mem_cons_self) (by decide)
  · rw [List.singleton_append, exponent?, if_pos hc, hread]
    exact ⟨_, rfl⟩
  · rw [List.singleton_append, exponent?, if_pos hc, hread]
    exact ⟨_, rfl⟩

end Decimal

theorem isDigit_of_digits {cs ds : List Char} (h : digits cs = ds) : ∀ d ∈ ds, d.isDigit := by
  intro d hd
  rw [← h] at hd
  exact List.mem_takeWhile_imp hd

theorem exponentSign_cases (r : List Char) :
    exponentSign r = [] ∨ exponentSign r = ['+'] ∨ exponentSign r = ['-'] := by
  unfold exponentSign
  split <;> simp

/-- An exponent that is scanned can be read. -/
theorem exists_exponent? {power rest : List Char} (h : exponentPart? (power ++ rest) = some power) :
    ∃ x, Decimal.exponent? power = some x := by
  cases power with
  | nil => exact ⟨0, rfl⟩
  | cons c r =>
    have hmark := exponentPart?_mark h
    rw [List.cons_append, exponentPart?_cons, if_pos hmark] at h
    split at h
    · cases h
    · rename_i hpower
      have hr := (List.cons.inj (Option.some.inj h)).2
      rw [← hr]
      exact Decimal.exists_exponent?_sign hmark (exponentSign_cases _) (isDigit_of_digits rfl) hpower

theorem fraction_cases {cs part : List Char} (h : fraction cs = part) :
    part = [] ∨ ∃ f, part = '.' :: f ∧ ∀ c ∈ f, c.isDigit := by
  unfold fraction at h
  split at h
  · exact .inr ⟨_, h.symm, isDigit_of_digits rfl⟩
  · exact .inl h.symm

theorem exists_decimal_of_decimalSpelling? {cs w : List Char} (h : decimalSpelling? cs = some w) :
    ∃ d, Decimal.ofText? w = some d := by
  obtain ⟨whole, part, power, rest, rfl, rfl, hwhole, hpart, hpower, hany, -, -⟩ :=
    decimalSpelling?_eq_some h
  obtain ⟨x, hx⟩ := exists_exponent? hpower
  have hwhole' := isDigit_of_digits hwhole
  have hhead : ∀ c ∈ power.head?, c = 'e' ∨ c = 'E' := by
    intro c hc
    cases power with
    | nil => cases hc
    | cons d r =>
      cases hc
      exact exponentPart?_mark hpower
  have hmark : ∀ c ∈ power.head?, c.isDigit = false ∧ c ≠ '.' := by
    intro c hc
    rcases hhead c hc with rfl | rfl <;> decide
  rcases fraction_cases hpart with rfl | ⟨f, rfl, hf⟩
  · have hne : whole ≠ [] := by
      rintro rfl
      cases hany
    exact ⟨_, by simpa using Decimal.ofText?_exponent hwhole' hne hmark hx⟩
  · have hne : ¬ (whole = [] ∧ f = []) := by
      rintro ⟨rfl, rfl⟩
      cases hany
    have hdigit : ∀ c ∈ power.head?, c.isDigit = false := fun c hc => (hmark c hc).1
    exact ⟨_, by simpa using Decimal.ofText?_pointed_exponent hwhole' hf hne hdigit hx⟩

namespace Lexeme

theorem exists_decimal {cs : List Char} {x : Lexeme} (h : number? cs = some (.ok x)) :
    ∃ d, Decimal.ofText? x.spelling = some d := by
  unfold number? at h
  split at h
  · rename_i w hw
    split at h <;> cases h
    exact exists_decimal_of_decimalSpelling? hw
  · obtain ⟨w, hw, hx⟩ := Option.map_eq_some_iff.mp h
    cases hx
    unfold integerSpelling? at hw
    simp only at hw
    split at hw <;> cases hw
    rename_i hne
    exact ⟨_, Decimal.ofText?_whole (isDigit_of_digits rfl) hne.1⟩

end Lexeme

/-- **A number token has a decimal value.** -/
theorem Token.exists_decimal {c after : Cursor} {t : Token} (h : c.next = (.ok t, after))
    (ht : t.kind = .number) : ∃ d, Decimal.ofText? t.text.toList = some d := by
  obtain ⟨g, x, ⟨-, -, first, r, hr, hread⟩, rfl, -⟩ := Cursor.exists_of_next h (by simp [ht])
  have hx : x.kind = .number := ht
  have htext : x.text = x.spelling := by
    rw [Lexeme.text, if_neg (by simp [hx])]
  rw [String.toList_ofList, htext]
  exact Lexeme.exists_decimal (Lexeme.number?_of_read hread hx)

/-- The value of a number token is finite or infinite. -/
theorem Token.ofLiteral?_eq {c after : Cursor} {t : Token} (h : c.next = (.ok t, after))
    (ht : t.kind = .number) : (∃ m, Number.ofLiteral? t.text.toList = some (.finite false m)) ∨
      Number.ofLiteral? t.text.toList = some (.infinite false) := by
  obtain ⟨d, hd⟩ := Token.exists_decimal h ht
  rw [Number.ofLiteral?, hd, Option.map_some, Decimal.toNumber]
  cases d.magnitude? with
  | some m => exact .inl ⟨m, rfl⟩
  | none => exact .inr rfl

end EL
