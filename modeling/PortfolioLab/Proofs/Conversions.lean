import PortfolioLab.Proofs.DecimalValues
import PortfolioLab.Proofs.Numerals

/-!
# Dollars to cents and back

An amount in dollars comes in as the nearest number of cents, ties to even, if that is in range, and a
number of cents goes out as the exact decimal. So what goes out comes in again unchanged, as a decimal and
as its text, and what comes in goes out again within half a cent.
-/

namespace PortfolioLab

namespace Money

variable {v : Value} {d : Decimal} {n : Cents}

/-- A decimal of a moderate size is judged by that size. -/
theorem magnitude_of_le {limit : Nat} (hlimit : limit < 10 ^ sizeDigits)
    (h : |d.value| * 10 ^ (2 : ℤ) ≤ limit) :
    ∃ size, magnitude d = .ok size ∧ |size.value| * 10 ^ (2 : ℤ) ≤ limit := by
  have hsize : |(d.abs.roundToDigits sizeDigits).value| * 10 ^ (2 : ℤ) ≤ limit := by
    refine Decimal.roundToDigits_le (by norm_num [sizeDigits]) hlimit ?_
    rwa [Decimal.abs_value_abs]
  refine ⟨_, ?_, hsize⟩
  have hsmall : ¬ ((d.abs.roundToDigits sizeDigits).coefficient ≠ 0 ∧
      sizeMaxExponent < (d.abs.roundToDigits sizeDigits).leadingExponent) := by
    rintro ⟨hc, hlead⟩
    have hpow : (10 : ℚ) ^ (sizeDigits : ℤ) ≤ |(d.abs.roundToDigits sizeDigits).value| := by
      rw [Decimal.zpow_le_abs_value_iff hc]
      simp only [sizeDigits, sizeMaxExponent] at hlead ⊢
      omega
    have hlimit' : (limit : ℚ) < 10 ^ (sizeDigits : ℤ) := by
      rw [zpow_natCast]
      exact_mod_cast hlimit
    have hnonneg := abs_nonneg (d.abs.roundToDigits sizeDigits).value
    norm_num at hsize
    linarith
  simp only [magnitude, if_neg hsmall]

/-- An amount in dollars is the nearest number of cents, if that is in range. -/
theorem toCents_of_isNearest (hd : decimalOf v = .ok d) (hn : IsNearest (d.value * 10 ^ (2 : ℤ)) n)
    (hr : Cents.InRange n) : toCents v = .ok n := by
  have hlimit : maxCents.toNat + 100 = 9223372036854775907 := rfl
  have habs : |d.value| * 10 ^ (2 : ℤ) ≤ ((maxCents.toNat + 100 : ℕ) : ℚ) := by
    have hle := hn.abs_le
    have hrange : |(n : ℚ)| ≤ 9223372036854775808 := by
      rw [abs_le]
      obtain ⟨hlow, hhigh⟩ := hr
      simp only [minCents, maxCents] at hlow hhigh
      constructor
      · exact_mod_cast hlow
      · exact_mod_cast hhigh.trans (by norm_num)
    rw [abs_mul, abs_of_pos (by positivity : (0 : ℚ) < 10 ^ (2 : ℤ))] at hle
    rw [hlimit]
    norm_num at hle ⊢
    linarith
  obtain ⟨size, hsize, hle⟩ := magnitude_of_le (by norm_num [sizeDigits, hlimit]) habs
  have hwithin : ¬ size.exceeds 2 (maxCents.toNat + 100) = true := by
    rw [Decimal.exceeds_iff (Nat.succ_pos _)]
    exact not_lt.mpr hle
  rw [toCents, hd, ok_bind, hsize, ok_bind, if_neg hwithin,
    (Decimal.isNearest_scaledInt d 2).eq hn]
  exact Cents.check_of_inRange hr

/-- What comes in as an amount stands for a decimal, and it is the number of cents nearest to that. -/
theorem exists_of_toCents (h : toCents v = .ok n) :
    ∃ d, decimalOf v = .ok d ∧ IsNearest (d.value * 10 ^ (2 : ℤ)) n ∧ Cents.InRange n := by
  obtain ⟨d, hd, h⟩ := bind_eq_ok.mp h
  obtain ⟨size, _, h⟩ := bind_eq_ok.mp h
  split at h
  · cases h
  · obtain ⟨rfl, hrange⟩ := Cents.eq_of_check h
    exact ⟨d, hd, d.isNearest_scaledInt 2, hrange⟩

end Money

namespace Cents

variable {u : Cents}

/-- An amount in range goes out as a decimal of two places. -/
theorem exists_toDecimal (hu : InRange u) : ∃ e : Decimal, toDecimal u = .ok e ∧
    e.value * 10 ^ (2 : ℤ) = u ∧ Numeral.fits e = true := by
  refine ⟨⟨u < 0, u.natAbs, -2⟩, by rw [toDecimal, check_of_inRange hu]; rfl, ?_, ?_⟩
  · have hsigned : (⟨u < 0, u.natAbs, -2⟩ : Decimal).signed = u := Decimal.signed_ofInt u
    rw [Decimal.value, hsigned, mul_assoc, ← zpow_add₀ (by norm_num)]
    simp
  · obtain ⟨hlow, hhigh⟩ := hu
    simp only [minCents, maxCents] at hlow hhigh
    have hdigits : Decimal.digitCount u.natAbs ≤ 20 := Decimal.digitCount_le (by norm_num) (by omega)
    simp only [Numeral.fits, Numeral.minExponent, Numeral.maxExponent, Decimal.leadingExponent]
    split
    · simp
    · simp
      omega

end Cents

/-- The way in undoes the way out: an amount in range comes back from its decimal and from the text of
that decimal. A decimal of whole cents in range keeps its value on the way in and out, and any other is
at most half a cent off. -/
theorem Money.fixed_point_round_trip :
    (∀ u : Cents, Cents.InRange u → ∃ e, Cents.toDecimal u = .ok e ∧
      toCents (.decimal (.finite e)) = .ok u ∧ toCents (.text e.toText) = .ok u) ∧
    (∀ (d : Decimal) (k : ℤ), d.value * 100 = k → Cents.InRange k → ∃ e,
      toCents (.decimal (.finite d)) = .ok k ∧ Cents.toDecimal k = .ok e ∧ e.value = d.value) ∧
    ∀ (d : Decimal) (n : ℤ), IsNearest (d.value * 100) n → Cents.InRange n → ∃ e,
      toCents (.decimal (.finite d)) = .ok n ∧ Cents.toDecimal n = .ok e ∧
        |e.value - d.value| ≤ 1 / 200 := by
  have hscale : (10 : ℚ) ^ (2 : ℤ) = 100 := by norm_num
  refine ⟨fun u hu => ?_, fun d k hk hr => ?_, fun d n hn hr => ?_⟩
  · obtain ⟨e, he, hvalue, hfits⟩ := Cents.exists_toDecimal hu
    have hnear : IsNearest (e.value * 10 ^ (2 : ℤ)) u := hvalue ▸ .intCast u
    have htext : decimalOf (.text e.toText) = .ok e := by
      rw [decimalOf, Decimal.ofText?_toText hfits]
    exact ⟨e, he, toCents_of_isNearest rfl hnear hu, toCents_of_isNearest htext hnear hu⟩
  · obtain ⟨e, he, hvalue, _⟩ := Cents.exists_toDecimal hr
    have hnear : IsNearest (d.value * 10 ^ (2 : ℤ)) k := by
      rw [hscale, hk]
      exact .intCast k
    refine ⟨e, toCents_of_isNearest rfl hnear hr, he, ?_⟩
    rw [hscale] at hvalue
    linarith
  · obtain ⟨e, he, hvalue, _⟩ := Cents.exists_toDecimal hr
    have hnear : IsNearest (d.value * 10 ^ (2 : ℤ)) n := by rwa [hscale]
    refine ⟨e, toCents_of_isNearest rfl hnear hr, he, ?_⟩
    rw [hscale] at hvalue
    have hbound := hn.near
    rw [abs_le] at hbound ⊢
    constructor <;> linarith

/-- The smallest amount, a decimal of whole cents with more places, and a tie. -/
theorem Money.fixed_point_round_trip_ends :
    (∃ e, Cents.toDecimal minCents = .ok e ∧ toCents (.text e.toText) = .ok minCents) ∧
    (∃ e, toCents (.decimal (.finite ⟨true, 15000, -4⟩)) = .ok (-150) ∧
      Cents.toDecimal (-150) = .ok e ∧ e.value = -3 / 2) ∧
    ∃ e, toCents (.decimal (.finite ⟨false, 125, -3⟩)) = .ok 12 ∧ Cents.toDecimal 12 = .ok e ∧
      |e.value - 1 / 8| ≤ 1 / 200 := by
  obtain ⟨hround, hcents, hnearest⟩ := fixed_point_round_trip
  have hwhole : (⟨true, 15000, -4⟩ : Decimal).value = -3 / 2 := by norm_num [Decimal.value, Decimal.signed]
  have htie : (⟨false, 125, -3⟩ : Decimal).value = 1 / 8 := by norm_num [Decimal.value, Decimal.signed]
  refine ⟨?_, ?_, ?_⟩
  · obtain ⟨e, he, _, htext⟩ := hround minCents (by decide)
    exact ⟨e, he, htext⟩
  · rw [← hwhole]
    exact hcents _ (-150) (by rw [hwhole]; norm_num) (by decide)
  · rw [← htie]
    refine hnearest _ 12 ?_ (by decide)
    rw [htie]
    refine ⟨?_, fun _ => by decide⟩
    rw [abs_le]
    constructor <;> norm_num

end PortfolioLab
