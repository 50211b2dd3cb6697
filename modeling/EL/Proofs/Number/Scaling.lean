import EL.Number.Shortest
import Mathlib.Algebra.Order.Ring.Nat

/-!
# A number is the nearest one to a ratio, however the ratio is written

Which double a decimal rounds to depends on its value alone, and so a decimal can be written with
fewer zeros and a greater exponent (`magnitude?_mul_pow`). The powers of ten that the reader does
not compute are those that would not change the answer (`magnitude?_eq_ofRatio?`).

With that, **the decimal that a number is printed as reads back as the number**
(`magnitude?_shortest`): the search only takes what it has read back, and the expansion, which it
falls back on, is exact.
-/

set_option autoImplicit false

namespace EL

theorem divEven_mul_mul (n d : Nat) {c : Nat} (hc : 0 < c) :
    divEven (n * c) (d * c) = divEven n d := by
  have hlt : ∀ a b : Nat, a * c < b * c ↔ a < b := fun a b => Nat.mul_lt_mul_right hc
  simp only [divEven, Nat.mul_div_mul_right _ _ hc, Nat.mul_mod_mul_right, ← Nat.mul_assoc, hlt]

namespace Magnitude

theorem nearestRank_mul_mul (n d : Nat) {c : Nat} (hc : 0 < c) :
    nearestRank (n * c) (d * c) = nearestRank n d := by
  simp only [nearestRank, Nat.mul_right_comm n c, Nat.mul_right_comm d c,
    Nat.mul_div_mul_right _ _ hc, divEven_mul_mul _ _ hc]

/-- **Rounding depends on the value of a ratio only.** -/
theorem nearestRank_congr {n d n' d' : Nat} (hd : 0 < d) (hd' : 0 < d') (h : n * d' = n' * d) :
    nearestRank n d = nearestRank n' d' := by
  rw [← nearestRank_mul_mul n d hd', ← nearestRank_mul_mul n' d' hd, h, Nat.mul_comm d d']

/-- The rank, with the exponent of the unit as a variable, since no step of a proof should compute
    that power. -/
theorem nearestRank_eq {k : Nat} (hk : 1074 = k) (n d : Nat) :
    nearestRank n d = ((n * 2 ^ k / d).log2 - 52) * binade +
      divEven (n * 2 ^ k) (d * 2 ^ ((n * 2 ^ k / d).log2 - 52)) := by
  rw [nearestRank, hk]
  rfl

/-- What is large enough rounds to infinity. -/
theorem total_le_nearestRank {n d j : Nat} (hj : 1026 ≤ j) (h : d * 2 ^ j ≤ n) (hd : 0 < d) :
    total ≤ nearestRank n d := by
  obtain ⟨k, hk⟩ : ∃ k, 1074 = k := ⟨_, rfl⟩
  have hquot : 2 ^ (j + k) ≤ n * 2 ^ k / d := by
    rw [Nat.le_div_iff_mul_le hd, Nat.pow_add]
    calc 2 ^ j * 2 ^ k * d = d * 2 ^ j * 2 ^ k := by rw [Nat.mul_comm, Nat.mul_assoc]
      _ ≤ n * 2 ^ k := Nat.mul_le_mul_right _ h
  have hne : n * 2 ^ k / d ≠ 0 := Nat.ne_of_gt (Nat.lt_of_lt_of_le (Nat.two_pow_pos _) hquot)
  have hlog : j + k ≤ (n * 2 ^ k / d).log2 := (Nat.le_log2 hne).mpr hquot
  have hscale : 2047 ≤ (n * 2 ^ k / d).log2 - 52 := by omega
  rw [nearestRank_eq hk]
  calc total = 2047 * binade := rfl
    _ ≤ ((n * 2 ^ k / d).log2 - 52) * binade := Nat.mul_le_mul_right _ hscale
    _ ≤ _ := Nat.le_add_right _ _

/-- What is small enough rounds to zero. -/
theorem nearestRank_eq_zero {n d j : Nat} (hj : 1075 ≤ j) (h : n * 2 ^ j < d) :
    nearestRank n d = 0 := by
  obtain ⟨k, hk⟩ : ∃ k, 1074 = k := ⟨_, rfl⟩
  have htwo : 2 * (n * 2 ^ k) < d := by
    refine Nat.lt_of_le_of_lt ?_ h
    calc 2 * (n * 2 ^ k) = n * 2 ^ (k + 1) := by
          rw [Nat.pow_succ, Nat.mul_left_comm, Nat.mul_comm 2]
      _ ≤ n * 2 ^ j := Nat.mul_le_mul_left _ (Nat.pow_le_pow_right Nat.two_pos (by omega))
  have hlt : n * 2 ^ k < d := Nat.lt_of_le_of_lt (Nat.le_mul_of_pos_left _ Nat.two_pos) htwo
  have hlog : Nat.log2 0 - 52 = 0 := by decide
  rw [nearestRank_eq hk, Nat.div_eq_of_lt hlt, hlog, Nat.pow_zero, Nat.mul_one, Nat.zero_mul,
    Nat.zero_add, divEven, Nat.div_eq_of_lt hlt, Nat.mod_eq_of_lt hlt]
  rw [if_pos htwo]

end Magnitude

namespace Decimal

theorem pow_ten_ge (k : Nat) : 2 ^ (3 * k) ≤ 10 ^ k := by
  rw [Nat.pow_mul]
  exact Nat.pow_le_pow_left (by decide) k

/-- The reader computes the ratio or need not. -/
theorem magnitude?_eq_ofRatio? {n : Nat} (hn : n ≠ 0) (x : Int) :
    magnitude? ⟨n, x⟩ = Magnitude.ofRatio? (n * 10 ^ x.toNat) (10 ^ (-x).toNat) := by
  have hlog : n < 2 ^ (n.log2 + 1) := Nat.lt_log2_self
  simp only [magnitude?, if_neg hn, Nat.pow_eq]
  split
  · rename_i hlarge
    have hneg : (-x).toNat = 0 := by omega
    have hx : 1026 ≤ 3 * x.toNat := by omega
    have hle : 1 * 2 ^ (3 * x.toNat) ≤ n * 10 ^ x.toNat :=
      Nat.mul_le_mul (Nat.one_le_iff_ne_zero.mpr hn) (pow_ten_ge _)
    have htotal := Magnitude.total_le_nearestRank hx hle Nat.one_pos
    rw [hneg, Nat.pow_zero, Magnitude.ofRatio?, Magnitude.ofRank?, dif_neg (by omega)]
  · split
    · rename_i hsmall
      have hpos : x.toNat = 0 := by omega
      have hpow : 2 ^ (3 * (-x).toNat) ≤ 10 ^ (-x).toNat := pow_ten_ge _
      obtain ⟨j, hj⟩ : ∃ j, j = 1075 := ⟨_, rfl⟩
      have hlt : n * 2 ^ j < 10 ^ (-x).toNat := by
        refine Nat.lt_of_lt_of_le ?_ hpow
        calc n * 2 ^ j < 2 ^ (n.log2 + 1) * 2 ^ j :=
              Nat.mul_lt_mul_of_pos_right hlog (Nat.two_pow_pos _)
          _ = 2 ^ (n.log2 + 1 + j) := (Nat.pow_add _ _ _).symm
          _ ≤ 2 ^ (3 * (-x).toNat) := Nat.pow_le_pow_right Nat.two_pos (by omega)
      rw [hpos, Nat.pow_zero, Nat.mul_one, Magnitude.ofRatio?,
        Magnitude.nearestRank_eq_zero (Nat.le_of_eq hj.symm) hlt]
      rfl
    · rfl

/-- Zeros at the end of the coefficient are worth as much in the exponent. -/
theorem magnitude?_mul_pow (n j : Nat) (x : Int) :
    magnitude? ⟨n * 10 ^ j, x⟩ = magnitude? ⟨n, x + j⟩ := by
  have hten : ∀ k : Nat, 0 < 10 ^ k := fun k => Nat.pow_pos (by decide)
  by_cases hn : n = 0
  · simp [magnitude?, hn]
  · have hnj : n * 10 ^ j ≠ 0 := Nat.mul_ne_zero hn (Nat.ne_of_gt (hten j))
    rw [magnitude?_eq_ofRatio? hnj, magnitude?_eq_ofRatio? hn, Magnitude.ofRatio?,
      Magnitude.ofRatio?, Magnitude.nearestRank_congr (hten _) (hten _)]
    rw [Nat.mul_assoc, Nat.mul_assoc, Nat.mul_assoc, ← Nat.pow_add, ← Nat.pow_add, ← Nat.pow_add]
    congr 2
    omega

end Decimal

/-! ## The decimal that is printed -/

namespace Magnitude

theorem log2_mul_two_pow {q : Nat} (hq : q ≠ 0) (s : Nat) : (q * 2 ^ s).log2 = q.log2 + s := by
  have hpos : 0 < 2 ^ s := Nat.two_pow_pos s
  rw [Nat.log2_eq_iff (Nat.mul_ne_zero hq (Nat.ne_of_gt hpos)), Nat.add_right_comm, Nat.pow_add,
    Nat.pow_add]
  exact ⟨Nat.mul_le_mul_right _ (Nat.log2_self_le hq),
    Nat.mul_lt_mul_of_pos_right Nat.lt_log2_self hpos⟩

/-- A magnitude in gaps of its own width. Above the first two binades there is just one binade of
    them for each width, and so the logarithm of the value tells the width. -/
theorem exists_units {m : Magnitude} (hm : m.rank ≠ 0) :
    ∃ q, m.rank = m.scale * binade + q ∧ m.units = q * 2 ^ m.scale ∧
      m.units ≠ 0 ∧ m.units.log2 - 52 = m.scale := by
  have hbinade : binade = 2 ^ 52 := by decide
  have hdiv := Nat.div_add_mod m.rank binade
  have hmod := Nat.mod_lt m.rank (show 0 < binade by decide)
  obtain ⟨q, hq, hsmall, hlarge⟩ : ∃ q, m.rank = m.scale * binade + q ∧ q < binade + binade ∧
      (m.scale ≠ 0 → binade ≤ q) := by
    by_cases hs : m.rank / binade ≤ 1
    · refine ⟨m.rank, ?_, ?_, ?_⟩
      · rw [scale, Nat.sub_eq_zero_of_le hs, Nat.zero_mul, Nat.zero_add]
      · have := Nat.mul_le_mul_left binade hs
        omega
      · exact fun h => absurd (Nat.sub_eq_zero_of_le hs) h
    · obtain ⟨s, hs'⟩ : ∃ s, m.rank / binade = s + 1 + 1 := ⟨m.rank / binade - 2, by omega⟩
      refine ⟨binade + m.rank % binade, ?_, ?_, fun _ => Nat.le_add_right _ _⟩
      · rw [scale, hs', Nat.add_sub_cancel, Nat.add_mul, Nat.one_mul]
        rw [hs', Nat.mul_add, Nat.mul_add, Nat.mul_one, Nat.mul_comm binade s] at hdiv
        omega
      · omega
  have hunits : m.units = q * 2 ^ m.scale := by
    rw [units, Nat.pow_eq, hq, Nat.add_sub_cancel_left]
  have hne : q ≠ 0 := by
    rintro rfl
    by_cases hs : m.scale = 0
    · rw [hs] at hq
      omega
    · exact absurd (hlarge hs) (by decide)
  refine ⟨q, hq, hunits, ?_, ?_⟩
  · rw [hunits]
    exact Nat.mul_ne_zero hne (Nat.ne_of_gt (Nat.two_pow_pos _))
  · have hlt : q.log2 < 53 := (Nat.log2_lt hne).mpr (by rw [hbinade] at hsmall; omega)
    have hge : m.scale ≠ 0 → 52 ≤ q.log2 := fun hs =>
      (Nat.le_log2 hne).mpr (by rw [← hbinade]; exact hlarge hs)
    rw [hunits, log2_mul_two_pow hne]
    by_cases hs : m.scale = 0
    · omega
    · have := hge hs
      omega

theorem expansion_eq {k : Nat} (hk : 1074 = k) (m : Magnitude) : m.expansion = m.units * 5 ^ k := by
  rw [expansion, hk, Nat.pow_eq]

/-- **The expansion of a magnitude is exact.** -/
theorem nearestRank_expansion {m : Magnitude} (hm : m.rank ≠ 0) {k : Nat} (hk : 1074 = k) :
    nearestRank m.expansion (10 ^ k) = m.rank := by
  obtain ⟨q, hrank, hunits, -, hscale⟩ := exists_units hm
  have hten : 0 < 10 ^ k := Nat.pow_pos (by decide)
  have hexact : m.expansion * 2 ^ k = m.units * 10 ^ k := by
    rw [expansion_eq hk, Nat.mul_assoc, ← Nat.mul_pow]
  rw [nearestRank_eq hk, hexact, Nat.mul_div_cancel _ hten, hscale, hrank, hunits, Nat.mul_assoc,
    Nat.mul_comm (2 ^ m.scale), divEven_mul _ (Nat.mul_pos hten (Nat.two_pow_pos _))]

theorem nearestOnGrid?_admits {tie : Tie} {x k c : Nat} {ok : Nat → Bool}
    (h : nearestOnGrid? tie x k ok = some c) : ok c = true := by
  unfold nearestOnGrid? at h
  split at h
  all_goals grind

/-- **What a number is printed as reads back as the number.** -/
theorem magnitude?_shortest (tie : Tie) (m : Magnitude) : (m.shortest tie).magnitude? = some m := by
  unfold shortest
  split
  · rename_i hm
    obtain ⟨rank, hrank⟩ := m
    obtain rfl : rank = 0 := hm
    rfl
  · rename_i hm
    dsimp only
    cases hfind : List.findSome? _ (List.range' 1 17) with
    | some d =>
      obtain ⟨n, -, hn⟩ := List.exists_of_findSome?_eq_some hfind
      obtain ⟨c, hc, rfl⟩ := Option.map_eq_some_iff.mp hn
      exact of_decide_eq_true (nearestOnGrid?_admits hc)
    | none =>
      obtain ⟨k, hk⟩ : ∃ k, 1074 = k := ⟨_, rfl⟩
      obtain ⟨-, -, -, hunits, -⟩ := exists_units hm
      have hne : m.expansion ≠ 0 := by
        rw [expansion_eq hk]
        exact Nat.mul_ne_zero hunits (Nat.ne_of_gt (Nat.pow_pos (by decide)))
      have hexponent : (-(-1074 : Int)).toNat = k := by omega
      have hcoefficient : (-1074 : Int).toNat = 0 := by decide
      rw [Option.getD_none, Decimal.magnitude?_eq_ofRatio? hne, hexponent, hcoefficient,
        Nat.pow_zero, Nat.mul_one, ofRatio?, nearestRank_expansion hm hk, ofRank?_rank]

end Magnitude

end EL
