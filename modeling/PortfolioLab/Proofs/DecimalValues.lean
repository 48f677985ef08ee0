import PortfolioLab.Proofs.NearestQuotients

/-!
# The values of decimals

A decimal denotes a rational number. Its size is judged, and it is rounded, by counting digits, with
short cuts for exponents that nothing could expand. On the value these are a comparison and the choice
of a nearest integer.
-/

namespace PortfolioLab

namespace Decimal

variable {d : Decimal} {places : Int}

def value (d : Decimal) : ℚ := d.signed * 10 ^ d.exponent

theorem abs_value (d : Decimal) : |d.value| = d.coefficient * 10 ^ d.exponent := by
  rw [value, abs_mul, abs_of_pos (by positivity : (0 : ℚ) < 10 ^ d.exponent), ← Int.cast_abs, abs_signed,
    Int.cast_natCast]

theorem abs_value_abs (d : Decimal) : |d.abs.value| = |d.value| := by
  rw [abs_value, abs_value]
  rfl

theorem abs_value_shift (d : Decimal) (places : Int) :
    |d.value| * 10 ^ places = d.coefficient * 10 ^ (d.exponent + places) := by
  rw [abs_value, mul_assoc, ← zpow_add₀ (by norm_num)]

theorem value_ofInt (n : Int) : (ofInt n).value = n := by
  rw [value, signed_ofInt]
  simp [ofInt]

theorem isNearest_scaledInt (d : Decimal) (places : Int) :
    IsNearest (d.value * 10 ^ places) (d.scaledInt places) := by
  rw [scaledInt_eq, value, mul_assoc, ← zpow_add₀ (by norm_num : (10 : ℚ) ≠ 0)]
  generalize d.exponent + places = shift
  split
  · next h =>
    obtain ⟨k, rfl⟩ := Int.eq_ofNat_of_zero_le h
    have hcast : (d.signed : ℚ) * 10 ^ (k : ℤ) = ((d.signed * 10 ^ k : ℤ) : ℚ) := by
      push_cast
      rw [zpow_natCast]
    rw [Int.toNat_natCast, hcast]
    exact .intCast _
  · next h =>
    obtain ⟨k, hk⟩ := Int.eq_ofNat_of_zero_le (by omega : 0 ≤ -shift)
    have hcast : (d.signed : ℚ) * 10 ^ shift = (d.signed : ℚ) / ((10 ^ k : ℤ) : ℚ) := by
      rw [← neg_neg shift, hk, zpow_neg, zpow_natCast, div_eq_mul_inv]
      push_cast
      rfl
    rw [hk, Int.toNat_natCast, hcast]
    exact isNearest_divHalfEven _ (by positivity)

/-! ## Sizes -/

private theorem lt_zpow_digitCount (n : Nat) (e : Int) : (n : ℚ) * 10 ^ e < 10 ^ (digitCount n + e) := by
  have h : (n : ℚ) < 10 ^ digitCount n := by exact_mod_cast lt_pow_digitCount n
  rw [zpow_add₀ (by norm_num), zpow_natCast]
  gcongr

private theorem zpow_digitCount_le {n : Nat} (hn : n ≠ 0) (e : Int) :
    (10 : ℚ) ^ (digitCount n - 1 + e) ≤ n * 10 ^ e := by
  have h : (10 : ℚ) ^ digitCount n ≤ 10 * n := by
    exact_mod_cast pow_digitCount_le (Nat.pos_of_ne_zero hn)
  have hpow : (10 : ℚ) ^ (digitCount n - 1 + e) = 10 ^ digitCount n / 10 * 10 ^ e := by
    rw [zpow_add₀ (by norm_num), zpow_sub₀ (by norm_num), zpow_natCast, zpow_one]
  rw [hpow]
  gcongr
  linarith

/-- The leading digit of a number tells which powers of ten it reaches. -/
theorem zpow_le_abs_value_iff (hc : d.coefficient ≠ 0) (n : Int) :
    (10 : ℚ) ^ n ≤ |d.value| ↔ n ≤ d.leadingExponent := by
  rw [abs_value, leadingExponent]
  constructor
  · intro h
    have hlt := h.trans_lt (lt_zpow_digitCount d.coefficient d.exponent)
    rw [zpow_lt_zpow_iff_right₀ (by norm_num)] at hlt
    omega
  · intro h
    exact (zpow_le_zpow_right₀ (by norm_num) h).trans (zpow_digitCount_le hc d.exponent)

theorem exceeds_iff {limit : Nat} (hl : 0 < limit) :
    d.exceeds places limit = true ↔ (limit : ℚ) < |d.value| * 10 ^ places := by
  rw [abs_value_shift]
  unfold exceeds
  generalize d.exponent + places = shift
  dsimp only
  have hone : (1 : ℚ) ≤ limit := by exact_mod_cast hl
  split
  · next hc => simp [hc]
  · next hc =>
    split
    · next hmore =>
      have hlimit := lt_zpow_digitCount limit 0
      rw [zpow_zero, mul_one, add_zero] at hlimit
      have hpow : (10 : ℚ) ^ (digitCount limit : ℤ) ≤ 10 ^ ((digitCount d.coefficient : ℤ) - 1 + shift) :=
        zpow_le_zpow_right₀ (by norm_num) (by omega)
      simpa using hlimit.trans_le (hpow.trans (zpow_digitCount_le hc shift))
    · split
      · next hless =>
        have hsmall : (d.coefficient : ℚ) * 10 ^ shift < 1 := by
          refine (lt_zpow_digitCount d.coefficient shift).trans_le ?_
          exact zpow_le_one_of_nonpos₀ (by norm_num) hless.le
        simpa using (hsmall.trans_le hone).le
      · rw [decide_eq_true_eq, tenTo_eq, tenTo_eq, zpow_eq_div, ← mul_div_assoc, lt_div_iff₀ (by positivity)]
        exact_mod_cast Iff.rfl

/-! ## Fewer digits -/

private theorem abs_value_roundToDigits {digits : Nat} (h : digits < digitCount d.coefficient)
    (places : Int) : ∃ excess : Nat, digitCount d.coefficient = digits + excess ∧
      |(d.roundToDigits digits).value| * 10 ^ places =
        (divHalfEven d.coefficient (10 ^ excess) : ℤ) * 10 ^ (d.exponent + places + excess) := by
  obtain ⟨excess, hexcess⟩ := Nat.exists_eq_add_of_le h.le
  refine ⟨excess, hexcess, ?_⟩
  have hnot : ¬ excess = 0 := by omega
  have hcoefficient : 0 ≤ divHalfEven (d.coefficient : ℤ) (10 ^ excess) := by
    have h := divHalfEven_nonneg (Int.natCast_nonneg d.coefficient) (Int.natCast_nonneg (10 ^ excess))
    exact_mod_cast h
  rw [abs_value_shift]
  simp only [roundToDigits, hexcess, Nat.add_sub_cancel_left, if_neg hnot, tenTo_eq, Nat.cast_pow,
    Nat.cast_ofNat]
  rw [← Int.cast_natCast (R := ℚ), Int.toNat_of_nonneg hcoefficient]
  congr 2
  ring

private theorem coefficient_ne_zero {digits : Nat} (hk : 0 < digits)
    (h : digits < digitCount d.coefficient) : d.coefficient ≠ 0 := by
  intro hc
  rw [hc, digitCount, if_pos (by norm_num)] at h
  omega

/-- Rounding to some digits does not carry a size beyond a whole number of as many digits. -/
theorem roundToDigits_le {digits limit : Nat} (hk : 0 < digits) (hlimit : limit < 10 ^ digits)
    (h : |d.value| * 10 ^ places ≤ limit) : |(d.roundToDigits digits).value| * 10 ^ places ≤ limit := by
  rcases Nat.lt_or_ge digits (digitCount d.coefficient) with hmore | hfew
  · obtain ⟨excess, hexcess, hvalue⟩ := abs_value_roundToDigits hmore places
    rw [hvalue]
    rw [abs_value_shift] at h
    generalize d.exponent + places = shift at h ⊢
    -- the last digit that is kept stands for no more than a unit
    have hpow : (10 : ℚ) ^ ((digitCount d.coefficient : ℤ) - 1 + shift) < 10 ^ (digits : ℤ) := by
      refine (zpow_digitCount_le (coefficient_ne_zero hk hmore) shift).trans_lt (h.trans_lt ?_)
      rw [zpow_natCast]
      exact_mod_cast hlimit
    rw [zpow_lt_zpow_iff_right₀ (by norm_num)] at hpow
    obtain ⟨k, hsum⟩ := Int.exists_eq_neg_ofNat (by omega : shift + excess ≤ 0)
    have hshift : shift = -((k + excess : ℕ) : ℤ) := by omega
    rw [hshift, zpow_neg, zpow_natCast, ← div_eq_mul_inv, div_le_iff₀ (by positivity), pow_add,
      ← mul_assoc] at h
    have hround : divHalfEven (d.coefficient : ℤ) (10 ^ excess) ≤ limit * 10 ^ k :=
      divHalfEven_le (by positivity) (by exact_mod_cast h)
    rw [hsum, zpow_neg, zpow_natCast, ← div_eq_mul_inv, div_le_iff₀ (by positivity)]
    exact_mod_cast hround
  · rwa [roundToDigits, Nat.sub_eq_zero_of_le hfew, if_pos rfl]

theorem le_roundToDigits {digits limit : Nat} (hk : 0 < digits) (hlimit : limit < 10 ^ digits)
    (h : limit ≤ |d.value| * 10 ^ places) : limit ≤ |(d.roundToDigits digits).value| * 10 ^ places := by
  rcases Nat.lt_or_ge digits (digitCount d.coefficient) with hmore | hfew
  · obtain ⟨excess, hexcess, hvalue⟩ := abs_value_roundToDigits hmore places
    rw [hvalue]
    rw [abs_value_shift] at h
    generalize d.exponent + places = shift at h ⊢
    rcases le_or_gt (shift + excess) 0 with hfine | hcoarse
    · obtain ⟨k, hsum⟩ := Int.exists_eq_neg_ofNat hfine
      have hshift : shift = -((k + excess : ℕ) : ℤ) := by omega
      rw [hshift, zpow_neg, zpow_natCast, ← div_eq_mul_inv, le_div_iff₀ (by positivity), pow_add,
        ← mul_assoc] at h
      have hround : limit * 10 ^ k ≤ divHalfEven (d.coefficient : ℤ) (10 ^ excess) :=
        le_divHalfEven (by positivity) (by exact_mod_cast h)
      rw [hsum, zpow_neg, zpow_natCast, ← div_eq_mul_inv, le_div_iff₀ (by positivity)]
      exact_mod_cast hround
    · -- every digit that is kept stands for ten or more
      obtain ⟨k, rfl⟩ := Nat.exists_eq_add_of_lt hk
      have hdigits := pow_digitCount_le (Nat.pos_of_ne_zero (coefficient_ne_zero hk hmore))
      rw [hexcess, pow_add, zero_add, pow_succ] at hdigits
      have hcoefficient : 10 ^ k * 10 ^ excess ≤ d.coefficient := by linarith
      have hround : 10 ^ k ≤ divHalfEven (d.coefficient : ℤ) (10 ^ excess) :=
        le_divHalfEven (by positivity) (by exact_mod_cast hcoefficient)
      have hten : (10 : ℚ) ^ (1 : ℤ) ≤ 10 ^ (shift + excess) :=
        zpow_le_zpow_right₀ (by norm_num) hcoarse
      rw [zpow_one] at hten
      have hround' : (10 : ℚ) ^ k ≤ (divHalfEven d.coefficient (10 ^ excess) : ℤ) := by
        exact_mod_cast hround
      calc (limit : ℚ) ≤ 10 ^ (0 + k + 1) := by exact_mod_cast hlimit.le
        _ = 10 ^ k * 10 := by rw [zero_add, pow_succ]
        _ ≤ (divHalfEven d.coefficient (10 ^ excess) : ℤ) * 10 ^ (shift + excess) :=
          mul_le_mul hround' hten (by norm_num) ((by positivity : (0 : ℚ) ≤ 10 ^ k).trans hround')
  · rwa [roundToDigits, Nat.sub_eq_zero_of_le hfew, if_pos rfl]

/-- A power of ten is not passed by rounding. -/
theorem abs_roundToDigits_le_zpow {digits : Nat} (hk : 0 < digits) {e : Int} (h : |d.value| ≤ 10 ^ e) :
    |(d.roundToDigits digits).value| ≤ 10 ^ e := by
  have hunit : ∀ x : ℚ, x * 10 ^ (-e) ≤ (1 : ℕ) ↔ x ≤ 10 ^ e := by
    intro x
    rw [Nat.cast_one, zpow_neg, ← div_eq_mul_inv, div_le_one (by positivity)]
  exact (hunit _).mp (roundToDigits_le hk (Nat.one_lt_pow hk.ne' (by norm_num)) ((hunit _).mpr h))

/-- Rounding keeps the sign. -/
theorem exists_sign_roundToDigits (digits : Nat) (d : Decimal) : ∃ s : ℤ, (s = 1 ∨ s = -1) ∧
    d.value = s * |d.value| ∧ (d.roundToDigits digits).value = s * |(d.roundToDigits digits).value| := by
  have hsigned : ∀ e : Decimal, e.negative = d.negative →
      e.value = ((if d.negative then -1 else 1 : ℤ) : ℚ) * |e.value| := by
    intro e he
    rw [abs_value, value, signed, he]
    split <;> simp
  refine ⟨if d.negative then -1 else 1, ?_, hsigned d rfl, hsigned _ ?_⟩
  · split
    · exact .inr rfl
    · exact .inl rfl
  · unfold roundToDigits
    dsimp only
    split <;> rfl

/-- A number of few digits at some place keeps its value, however many digits it is written with. -/
theorem value_roundToDigits {digits limit : Nat} (hk : 0 < digits) (hlimit : limit < 10 ^ digits)
    (h : |d.value| * 10 ^ places = limit) : (d.roundToDigits digits).value = d.value := by
  have hplace : (0 : ℚ) < 10 ^ places := by positivity
  have habs : |(d.roundToDigits digits).value| * 10 ^ places = |d.value| * 10 ^ places :=
    h ▸ le_antisymm (roundToDigits_le hk hlimit h.le) (le_roundToDigits hk hlimit h.ge)
  obtain ⟨s, _, hexact, hround⟩ := exists_sign_roundToDigits digits d
  rw [hround, mul_right_cancel₀ hplace.ne' habs, ← hexact]

private theorem abs_abs_roundToDigits_sub_le {digits q : Nat} (hk : 0 < digits)
    (hq : 10 * q + 5 < 10 ^ digits) (h : |(|d.value| - q)| ≤ 1 / 2) :
    |(|(d.roundToDigits digits).value| - q)| ≤ 1 / 2 := by
  rw [abs_le] at h ⊢
  have hhigh : |(d.roundToDigits digits).value| * 10 ^ (1 : ℤ) ≤ ((10 * q + 5 : ℕ) : ℚ) := by
    refine roundToDigits_le hk hq ?_
    push_cast
    linarith
  push_cast at hhigh
  refine ⟨?_, by linarith⟩
  rcases Nat.eq_zero_or_pos q with rfl | hpos
  · have hnonneg := abs_nonneg (d.roundToDigits digits).value
    push_cast
    linarith
  · have hlow : ((10 * q - 5 : ℕ) : ℚ) ≤ |(d.roundToDigits digits).value| * 10 ^ (1 : ℤ) := by
      refine le_roundToDigits hk (by omega) ?_
      push_cast [Nat.cast_sub (by omega : 5 ≤ 10 * q)]
      linarith
    push_cast [Nat.cast_sub (by omega : 5 ≤ 10 * q)] at hlow
    linarith

/-- A number that is within half a unit of an integer of fewer digits stays so when it is rounded. -/
theorem abs_roundToDigits_sub_le {digits : Nat} {n : ℤ} (hk : 0 < digits)
    (hn : 10 * n.natAbs + 5 < 10 ^ digits) (h : |d.value - n| ≤ 1 / 2) :
    |(d.roundToDigits digits).value - n| ≤ 1 / 2 := by
  obtain ⟨s, hs, hexact, hround⟩ := exists_sign_roundToDigits digits d
  have hside : ∀ a : ℚ, |s * a - n| = |a - (s * n : ℤ)| := by
    intro a
    rcases hs with rfl | rfl
    · simp
    · rw [← abs_neg]
      congr 1
      push_cast
      ring
  rw [hexact, hside] at h
  rw [hround, hside]
  -- on the side of the number itself, the integer is not negative
  have hnonneg : 0 ≤ s * n := by
    have hlow := (abs_le.mp h).2
    have hpos := abs_nonneg d.value
    have hgt : ((-1 : ℤ) : ℚ) < ((s * n : ℤ) : ℚ) := by
      rw [Int.cast_neg, Int.cast_one]
      linarith
    have hgt' : -1 < s * n := by exact_mod_cast hgt
    omega
  obtain ⟨q, hq⟩ := Int.eq_ofNat_of_zero_le hnonneg
  have hsize : q = n.natAbs := by
    rcases hs with rfl | rfl <;> omega
  rw [hq, Int.cast_natCast] at h ⊢
  exact abs_abs_roundToDigits_sub_le hk (hsize ▸ hn) h

end Decimal
end PortfolioLab
