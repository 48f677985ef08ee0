import PortfolioLab.Proofs.RoundingIntervals

/-!
# Fractions of an amount

The decimal that a double stands for lies in the interval of the reals that round to the double, so a
double below one stands for a decimal that is not above one, and the share of an amount by it is not
above the amount. Shares by numbers that are not below zero are not below zero.
-/

namespace PortfolioLab

def Decimal.size (d : Decimal) : ℚ := d.coefficient * 10 ^ d.exponent

namespace Binary64

theorem size_le_one_of_lt_one {x : Float} {d : Decimal} (h : shortest? x = some d) (hpos : 0 < x)
    (hone : x < 1) : d.size ≤ 1 := by
  obtain ⟨dyadic, hdecode, rfl⟩ := Option.map_eq_some_iff.mp h
  have hunit : (⟨false, 2 ^ 52, -52⟩ : Dyadic).magnitude = 1 := by norm_num [Dyadic.magnitude]
  have hlt := magnitude_lt_one hdecode hpos hone
  rw [← hunit] at hlt
  rw [Decimal.size, ← Decimal.abs_value]
  -- one lies above the interval of every smaller double
  calc |dyadic.shortest.value| ≤ dyadic.high := (regular_of_decode? hdecode).abs_shortest_bounds.2
    _ ≤ (⟨false, 2 ^ 52, -52⟩ : Dyadic).low :=
      (regular_of_decode? hdecode).high_le_low (regular_of_decode? decode?_one) hlt
    _ ≤ (⟨false, 2 ^ 52, -52⟩ : Dyadic).magnitude := (Dyadic.low_lt_magnitude (by norm_num)).le
    _ = 1 := hunit

end Binary64

namespace Money

variable {units : Int} {x : Float}

theorem times_nonneg (hu : 0 ≤ units) (hx : ¬ x < 0) : 0 ≤ times units x := by
  unfold times
  cases hd : Binary64.shortest? x with
  | none => exact le_rfl
  | some d =>
    obtain ⟨dyadic, hdecode, _⟩ := Option.map_eq_some_iff.mp hd
    obtain ⟨d', hd', hsign⟩ :=
      Binary64.shortest?_of_not_lt_zero (Binary64.isFinite_of_decode? hdecode) hx
    cases hd.symm.trans hd'
    have hsigned : 0 ≤ d.signed := Decimal.IsNonneg.signed_nonneg hsign
    dsimp only
    split
    · positivity
    · exact divHalfEven_nonneg (by positivity) (by positivity)

theorem times_le (hu : 0 ≤ units) (hpos : 0 < x) (hone : x < 1) : times units x ≤ units := by
  unfold times
  cases hd : Binary64.shortest? x with
  | none => exact hu
  | some d =>
    have hsize := Binary64.size_le_one_of_lt_one hd hpos hone
    have hint : d.signed * 10 ^ d.exponent.toNat ≤ 10 ^ (-d.exponent).toNat := by
      have hsigned : d.signed ≤ d.coefficient := (le_abs_self _).trans_eq d.abs_signed
      rw [Decimal.size, zpow_eq_div, mul_div_assoc', div_le_one (by positivity)] at hsize
      have hpow : (d.coefficient : Int) * 10 ^ d.exponent.toNat ≤ 10 ^ (-d.exponent).toNat := by
        exact_mod_cast hsize
      exact (mul_le_mul_of_nonneg_right hsigned (by positivity)).trans hpow
    have hshare := mul_le_mul_of_nonneg_left hint hu
    dsimp only
    split
    · next he =>
      have hnone : (-d.exponent).toNat = 0 := by omega
      rwa [hnone, pow_zero, mul_one, ← mul_assoc] at hshare
    · next he =>
      have hnone : d.exponent.toNat = 0 := by omega
      rw [hnone, pow_zero, mul_one] at hshare
      exact divHalfEven_le (by positivity) hshare

theorem toCents_nonneg {amount : Cents} (hx : ¬ x < 0) (h : toCents (.real x) = .ok amount) :
    0 ≤ amount := by
  obtain ⟨d, hd, h⟩ := bind_eq_ok.mp h
  obtain ⟨size, _, h⟩ := bind_eq_ok.mp h
  simp only [decimalOf] at hd
  split at hd
  · next decimal hshortest =>
    cases hd
    obtain ⟨dyadic, hdecode, _⟩ := Option.map_eq_some_iff.mp hshortest
    obtain ⟨d', hd', hsign⟩ :=
      Binary64.shortest?_of_not_lt_zero (Binary64.isFinite_of_decode? hdecode) hx
    cases hshortest.symm.trans hd'
    split at h
    · cases h
    · rw [(Cents.eq_of_check h).1]
      exact Decimal.IsNonneg.scaledInt_nonneg hsign 2
  · cases hd

end Money
end PortfolioLab
