import PortfolioLab.Proofs.Amounts
import Mathlib.Algebra.Order.Field.Power
import Mathlib.Data.Nat.Cast.Order.Field
import Mathlib.Tactic.FieldSimp
import Mathlib.Tactic.GCongr
import Mathlib.Tactic.Linarith
import Mathlib.Tactic.Positivity
import Mathlib.Tactic.Ring

/-!
# Rounding once

A rounded quotient is within half a unit. The product of an amount and a double is rounded to sixty
digits before it is rounded to a cent, but the amount has at most nineteen digits and the decimal that
the double stands for at most nineteen, so the first rounding changes nothing: the product is rounded
once, to the nearest cent with ties to even.
-/

namespace PortfolioLab

/-! ## Quotients -/

theorem abs_two_mul_divHalfEven_sub_le (n : Int) {d : Int} (hd : 0 < d) :
    |2 * (divHalfEven n d * d - n)| ≤ d := by
  have hnot : ¬ d < 0 := not_lt.mpr hd.le
  have hsplit := Int.mul_ediv_add_emod n d
  have hlow := Int.emod_nonneg n hd.ne'
  have hhigh := Int.emod_lt_of_pos n hd
  simp only [divHalfEven, if_neg hnot]
  rw [abs_le]
  split
  · next hup =>
    have htwice : d ≤ 2 * (n % d) := by
      rcases hup with h | h
      · exact h.le
      · exact h.1.ge
    constructor <;> linarith
  · next hdown =>
    have htwice : 2 * (n % d) ≤ d := by
      by_contra h
      exact hdown (Or.inl (not_le.mp h))
    constructor <;> linarith

theorem divHalfEven_eq_zero {n d : Int} (h : 2 * |n| < d) : divHalfEven n d = 0 := by
  have hd : 0 < d := lt_of_le_of_lt (by positivity) h
  have hnear := abs_two_mul_divHalfEven_sub_le n hd
  obtain ⟨hlow, hhigh⟩ := abs_le.mp hnear
  have hn := le_abs_self n
  have hn' := neg_abs_le n
  -- the rounded quotient times `d` lies strictly between `-d` and `d`
  have hlt : divHalfEven n d * d < 1 * d := by linarith
  have hgt : -1 * d < divHalfEven n d * d := by linarith
  have hlt' := lt_of_mul_lt_mul_right hlt hd.le
  have hgt' := lt_of_mul_lt_mul_right hgt hd.le
  omega

theorem divHalfEven_le {n d q : Int} (hd : 0 < d) (h : n ≤ q * d) : divHalfEven n d ≤ q := by
  obtain ⟨_, hhigh⟩ := abs_le.mp (abs_two_mul_divHalfEven_sub_le n hd)
  have hlt : divHalfEven n d * d < (q + 1) * d := by linarith
  exact Int.lt_add_one_iff.mp (lt_of_mul_lt_mul_right hlt hd.le)

theorem le_divHalfEven {n d q : Int} (hd : 0 < d) (h : q * d ≤ n) : q ≤ divHalfEven n d := by
  obtain ⟨hlow, _⟩ := abs_le.mp (abs_two_mul_divHalfEven_sub_le n hd)
  have hlt : (q - 1) * d < divHalfEven n d * d := by linarith
  exact Int.sub_one_lt_iff.mp (lt_of_mul_lt_mul_right hlt hd.le)

theorem divHalfEven_mono {n m d : Int} (hd : 0 < d) (h : n ≤ m) : divHalfEven n d ≤ divHalfEven m d := by
  rcases h.eq_or_lt with rfl | hlt
  · exact le_rfl
  · obtain ⟨_, hhigh⟩ := abs_le.mp (abs_two_mul_divHalfEven_sub_le n hd)
    obtain ⟨hlow, _⟩ := abs_le.mp (abs_two_mul_divHalfEven_sub_le m hd)
    -- both are within half a unit, so the first is less than a unit above the second
    have hstep : divHalfEven n d * d < (divHalfEven m d + 1) * d := by linarith
    exact Int.lt_add_one_iff.mp (lt_of_mul_lt_mul_right hstep hd.le)

theorem Cents.divide_of_ne_zero (n : Int) {d : Int} (hd : d ≠ 0) :
    Cents.divide n d = .ok (divHalfEven n d) := if_neg hd

/-! ## Digits -/

theorem tenTo_eq (n : Nat) : tenTo n = 10 ^ n := rfl

theorem twoTo_eq (n : Nat) : twoTo n = 2 ^ n := rfl

/-- An integer power as a quotient of natural ones. -/
theorem zpow_eq_div (b : ℚ) (e : Int) : b ^ e = b ^ e.toNat / b ^ (-e).toNat := by
  rcases le_total 0 e with he | he
  · have hneg : (-e).toNat = 0 := by omega
    rw [hneg, pow_zero, div_one, ← zpow_natCast, Int.toNat_of_nonneg he]
  · have hpos : e.toNat = 0 := by omega
    have hneg : (((-e).toNat : Nat) : Int) = -e := Int.toNat_of_nonneg (by omega)
    rw [hpos, pow_zero, ← zpow_natCast, hneg, zpow_neg, one_div, inv_inv]

namespace Decimal

theorem lt_pow_digitCount (n : Nat) : n < 10 ^ digitCount n := by
  induction n using digitCount.induct with
  | case1 n h =>
    rw [digitCount, if_pos h]
    simpa using h
  | case2 n h ih =>
    rw [digitCount, if_neg h, Nat.add_comm, pow_succ]
    omega

theorem pow_digitCount_le {n : Nat} (hn : 0 < n) : 10 ^ digitCount n ≤ 10 * n := by
  induction n using digitCount.induct with
  | case1 n h =>
    rw [digitCount, if_pos h]
    omega
  | case2 n h ih =>
    have hrest := ih (by omega)
    rw [digitCount, if_neg h, Nat.add_comm, pow_succ]
    omega

theorem digitCount_le {n k : Nat} (hk : 0 < k) (h : n < 10 ^ k) : digitCount n ≤ k := by
  rcases Nat.eq_zero_or_pos n with rfl | hn
  · simp [digitCount]
    omega
  · have hle := pow_digitCount_le hn
    have hlt : 10 ^ digitCount n < 10 ^ (k + 1) := by
      rw [pow_succ]
      omega
    exact Nat.lt_succ_iff.mp ((Nat.pow_lt_pow_iff_right (by norm_num)).mp hlt)

theorem roundToDigits_eq_self {d : Decimal} {digits : Nat} (hk : 0 < digits)
    (h : d.coefficient < 10 ^ digits) : d.roundToDigits digits = d := by
  have hcount := digitCount_le hk h
  have hexcess : digitCount d.coefficient - digits = 0 := by omega
  simp [roundToDigits, hexcess]

theorem abs_signed (d : Decimal) : |d.signed| = d.coefficient := by
  unfold signed
  split <;> simp

theorem signed_ofInt (n : Int) : (ofInt n).signed = n := by
  by_cases hn : n < 0
  · simp [signed, ofInt, hn, abs_of_neg hn]
  · simp [signed, ofInt, hn, abs_of_nonneg (not_lt.mp hn)]

theorem signed_mul (a b : Decimal) : (a.mul b).signed = a.signed * b.signed := by
  unfold signed Decimal.mul
  cases a.negative <;> cases b.negative <;> simp

/-- The short cuts of the rounding change nothing. -/
theorem scaledInt_eq (d : Decimal) (places : Int) : d.scaledInt places =
    if 0 ≤ d.exponent + places then d.signed * 10 ^ (d.exponent + places).toNat
    else divHalfEven d.signed (10 ^ (-(d.exponent + places)).toNat) := by
  unfold scaledInt
  simp only [tenTo_eq, Nat.cast_pow, Nat.cast_ofNat]
  generalize d.exponent + places = shift
  by_cases hc : d.coefficient = 0
  · have hs : d.signed = 0 := by
      rw [← abs_eq_zero, abs_signed, hc]
      rfl
    rw [if_pos hc, hs, zero_mul]
    have hzero := divHalfEven_zero (10 ^ (-shift).toNat)
    push_cast at hzero
    simp [hzero]
  · rw [if_neg hc]
    by_cases he : 0 ≤ shift
    · rw [if_pos he, if_pos he]
    · rw [if_neg he, if_neg he]
      split
      · next hsmall =>
        -- the coefficient has fewer digits than the power of ten
        refine (divHalfEven_eq_zero ?_).symm
        have hlt := lt_pow_digitCount d.coefficient
        have hpow : 10 ^ (digitCount d.coefficient + 1) ≤ 10 ^ (-shift).toNat :=
          Nat.pow_le_pow_right (by norm_num) hsmall
        rw [pow_succ] at hpow
        rw [abs_signed]
        have hnat : 2 * d.coefficient < 10 ^ (-shift).toNat := by omega
        exact_mod_cast hnat
      · rfl

end Decimal

/-! ## The digits of a double -/

namespace Binary64

open Decimal (digitCount)

theorem lt_pow_decimalExponent (n : Nat) {d : Nat} (hd : 0 < d) :
    (n : ℚ) / d < 10 ^ (decimalExponent n d + 1) := by
  have hd' : (0 : ℚ) < d := by exact_mod_cast hd
  have hten : (10 : ℚ) ≠ 0 := by norm_num
  simp only [decimalExponent]
  generalize he : (digitCount n : Int) - digitCount d = estimate
  by_cases hle : d * tenTo estimate.toNat ≤ n * tenTo (-estimate).toNat
  · rw [if_pos hle]
    -- the digits of numerator and denominator alone
    have hn : (n : ℚ) < 10 ^ digitCount n := by exact_mod_cast Decimal.lt_pow_digitCount n
    have hlow : (10 : ℚ) ^ digitCount d ≤ 10 * d := by exact_mod_cast Decimal.pow_digitCount_le hd
    rw [← he, zpow_add₀ hten, zpow_sub₀ hten, zpow_natCast, zpow_natCast, zpow_one, div_lt_iff₀ hd']
    have hpos : (0 : ℚ) < 10 ^ digitCount d := by positivity
    calc (n : ℚ) < 10 ^ digitCount n := hn
      _ = 10 ^ digitCount n / 10 ^ digitCount d * 10 ^ digitCount d := by field_simp
      _ ≤ 10 ^ digitCount n / 10 ^ digitCount d * (10 * d) := by gcongr
      _ = 10 ^ digitCount n / 10 ^ digitCount d * 10 * d := by ring
  · rw [if_neg hle]
    have hnat : n * 10 ^ (-estimate).toNat < d * 10 ^ estimate.toNat := not_le.mp hle
    have hrat : (n : ℚ) * 10 ^ (-estimate).toNat < d * 10 ^ estimate.toNat := by exact_mod_cast hnat
    rw [sub_add_cancel, zpow_eq_div 10, div_lt_div_iff₀ hd' (by positivity)]
    linarith

theorem Dyadic.fraction_eq (d : Dyadic) : (d.fraction.1 : ℚ) / d.fraction.2 = d.magnitude := by
  simp only [Dyadic.fraction, Dyadic.magnitude, twoTo_eq, Nat.cast_mul, Nat.cast_pow, Nat.cast_ofNat]
  rw [zpow_eq_div 2, mul_div_assoc]

theorem Interval.candidate?_le_div {i : Interval} {grid : Int} {c : Nat}
    (h : i.candidate? grid = some c) :
    c ≤ i.value * 2 ^ i.exponent.toNat * 10 ^ (-grid).toNat /
      (2 ^ (-i.exponent).toNat * 10 ^ grid.toNat) + 1 := by
  simp only [← twoTo_eq, ← tenTo_eq]
  unfold Interval.candidate? at h
  dsimp only at h
  split at h
  · split at h <;> cases h <;> omega
  · cases h
    omega
  · cases h
    omega
  · cases h

/-- A candidate on a grid is no further above the double than the next point of the grid. -/
theorem candidate?_le {d : Dyadic} {grid : Int} {c : Nat} (h : d.interval.candidate? grid = some c) :
    (c : ℚ) ≤ d.magnitude * 10 ^ (-grid) + 1 := by
  have hten : (10 : ℚ) ≠ 0 := by norm_num
  have htwo : (2 : ℚ) ≠ 0 := by norm_num
  have hc := Interval.candidate?_le_div h
  simp only [Dyadic.interval] at hc
  generalize hn : 4 * d.mantissa * 2 ^ (d.exponent - 2).toNat * 10 ^ (-grid).toNat = n at hc
  generalize hq : 2 ^ (-(d.exponent - 2)).toNat * 10 ^ grid.toNat = q at hc
  have hfloor : ((n / q : Nat) : ℚ) ≤ n / q := Nat.cast_div_le
  have hvalue : (n : ℚ) / q = d.magnitude * 10 ^ (-grid) := by
    rw [← hn, ← hq, Dyadic.magnitude]
    push_cast
    have hshift : (2 : ℚ) ^ d.exponent = 4 * 2 ^ (d.exponent - 2) := by
      rw [zpow_sub₀ htwo]
      norm_num
      ring
    rw [hshift, zpow_eq_div 2 (d.exponent - 2), zpow_eq_div 10 (-grid), neg_neg]
    field_simp
  calc (c : ℚ) ≤ ((n / q + 1 : Nat) : ℚ) := by exact_mod_cast hc
    _ = ((n / q : Nat) : ℚ) + 1 := by push_cast; ring
    _ ≤ d.magnitude * 10 ^ (-grid) + 1 := by linarith

private theorem search_le {i : Interval} {leading : Int}
    (h : ∀ (digits c : Nat), i.candidate? (leading + 1 - digits) = some c → c ≤ 10 ^ digits)
    (fuel digits : Nat) : (i.search leading fuel digits).1 ≤ 10 ^ (digits + fuel) := by
  induction fuel generalizing digits with
  | zero => simp [Interval.search]
  | succ fuel ih =>
    simp only [Interval.search]
    split
    · next c hc =>
      exact (h digits c hc).trans (Nat.pow_le_pow_right (by norm_num) (by omega))
    · have hrest := ih (digits + 1)
      rwa [Nat.add_assoc, Nat.add_comm 1 fuel] at hrest

private theorem dropZeros_le (fuel c : Nat) (e : Int) : (dropZeros fuel (c, e)).1 ≤ c := by
  induction fuel generalizing c e with
  | zero => exact le_refl c
  | succ fuel ih =>
    simp only [dropZeros]
    split
    · exact (ih (c / 10) (e + 1)).trans (Nat.div_le_self c 10)
    · exact le_refl c

theorem Dyadic.coefficient_shortest_le (d : Dyadic) : d.shortest.coefficient ≤ 10 ^ 18 := by
  unfold Dyadic.shortest
  split
  · simp
  · have hpos : 0 < d.fraction.2 := Nat.pos_of_ne_zero (by simp [Dyadic.fraction, twoTo_eq])
    have hlead := lt_pow_decimalExponent d.fraction.1 hpos
    rw [Dyadic.fraction_eq] at hlead
    generalize decimalExponent d.fraction.1 d.fraction.2 = leading at hlead ⊢
    have hcandidate : ∀ (digits c : Nat),
        d.interval.candidate? (leading + 1 - digits) = some c → c ≤ 10 ^ digits := by
      intro digits c hc
      have hle := candidate?_le hc
      have hten : (0 : ℚ) < 10 ^ (-(leading + 1 - digits)) := by positivity
      have hlt : d.magnitude * 10 ^ (-(leading + 1 - digits)) < 10 ^ digits := by
        calc d.magnitude * 10 ^ (-(leading + 1 - digits))
            < 10 ^ (leading + 1) * 10 ^ (-(leading + 1 - digits)) := by gcongr
          _ = 10 ^ digits := by
            rw [← zpow_add₀ (by norm_num), ← zpow_natCast]
            congr 1
            ring
      have hcast : (c : ℚ) < ((10 ^ digits + 1 : Nat) : ℚ) := by
        push_cast
        linarith
      exact Nat.lt_succ_iff.mp (by exact_mod_cast hcast)
    have hsearch := search_le hcandidate 17 1
    exact (dropZeros_le 20 _ _).trans hsearch

end Binary64

/-! ## Products -/

namespace Money

/-- An amount times the decimal that a double stands for, rounded once to a cent with ties to even. -/
def times (units : Int) (x : Float) : Int :=
  match Binary64.shortest? x with
  | some d =>
    if 0 ≤ d.exponent then units * d.signed * 10 ^ d.exponent.toNat
    else divHalfEven (units * d.signed) (10 ^ (-d.exponent).toNat)
  | none => 0

/-- The product of an amount in range and a decimal of few digits keeps all its digits. -/
theorem roundToDigits_mul_eq_self {units : Cents} {d : Decimal} (hr : Cents.InRange units)
    (hd : d.coefficient ≤ 10 ^ 18) :
    (d.mul (Decimal.ofInt units)).roundToDigits productDigits = d.mul (Decimal.ofInt units) := by
  have hunits : units.natAbs ≤ 10 ^ 19 := by
    obtain ⟨hlow, hhigh⟩ := hr
    simp only [minCents, maxCents] at hlow hhigh
    omega
  have hproduct : (d.mul (Decimal.ofInt units)).coefficient < 10 ^ productDigits := by
    calc d.coefficient * units.natAbs ≤ 10 ^ 18 * 10 ^ 19 := Nat.mul_le_mul hd hunits
      _ < 10 ^ productDigits := by norm_num [productDigits]
  exact Decimal.roundToDigits_eq_self (by norm_num [productDigits]) hproduct

theorem scaleBy_eq_nearest {units share : Cents} {d : Decimal} (hd : d.coefficient ≤ 10 ^ 18)
    (h : scaleBy units d = .ok share) :
    share = if 0 ≤ d.exponent then units * d.signed * 10 ^ d.exponent.toNat
      else divHalfEven (units * d.signed) (10 ^ (-d.exponent).toNat) := by
  obtain ⟨amount, hamount, hshare⟩ := bind_eq_ok.mp h
  obtain ⟨rfl, hrange⟩ := Cents.eq_of_check hamount
  dsimp only at hshare
  rw [roundToDigits_mul_eq_self hrange hd,
    Decimal.scaledInt_eq, Int.add_zero, Decimal.signed_mul, Decimal.signed_ofInt,
    Int.mul_comm d.signed] at hshare
  have hexponent : (d.mul (Decimal.ofInt amount)).exponent = d.exponent := by
    simp [Decimal.mul, Decimal.ofInt]
  rw [hexponent] at hshare
  exact (Cents.eq_of_check hshare).1

theorem scale_eq_times {units share : Cents} {x : Float} (h : scale units (.real x) = .ok share) :
    share = times units x := by
  obtain ⟨d, hd, h⟩ := bind_eq_ok.mp h
  obtain ⟨size, _, h⟩ := bind_eq_ok.mp h
  simp only [decimalOf] at hd
  split at hd
  · next decimal hshortest =>
    cases hd
    obtain ⟨dyadic, _, rfl⟩ := Option.map_eq_some_iff.mp hshortest
    split at h
    · cases h
    · simp only [times, hshortest]
      exact scaleBy_eq_nearest dyadic.coefficient_shortest_le h
  · cases hd

/-- A tenth of 25 cents is a tie, and so is a tenth of 35: both go to the even cent. -/
example : times 25 0.1 = 2 ∧ times 35 0.1 = 4 := by decide +kernel

end Money
end PortfolioLab
