import PortfolioLab.Proofs.Rounding

/-!
# The nearest integer to a quotient

A rounded quotient is within half a unit of the quotient, and even where it is just half a unit away. Only
one integer is, so the rounding has the symmetries of the quotient: a sign of the numerator or of the
denominator goes over to the result, and two signs cancel.
-/

namespace PortfolioLab

/-- No integer is nearer, and of two that are as near this is the even one. -/
structure IsNearest (x : ℚ) (n : ℤ) : Prop where
  near : |x - n| ≤ 1 / 2
  even : |x - n| = 1 / 2 → Even n

namespace IsNearest

variable {x : ℚ} {n m : ℤ}

theorem intCast (n : ℤ) : IsNearest n n := by
  constructor
  · simp
  · intro h
    norm_num at h

theorem eq (hn : IsNearest x n) (hm : IsNearest x m) : n = m := by
  by_contra hne
  have hsum : |(n : ℚ) - m| ≤ |x - n| + |x - m| := by
    have h := abs_sub_le (n : ℚ) x m
    rwa [abs_sub_comm (n : ℚ) x] at h
  have hone : (1 : ℚ) ≤ |(n : ℚ) - m| := by
    have h : 1 ≤ |n - m| := Int.one_le_abs (sub_ne_zero.mpr hne)
    exact_mod_cast h
  -- both are half a unit away, so both are even and one unit apart
  obtain ⟨a, ha⟩ := hn.even (by linarith [hn.near, hm.near])
  obtain ⟨b, hb⟩ := hm.even (by linarith [hn.near, hm.near])
  have hle : |n - m| ≤ 1 := by
    have h : |(n : ℚ) - m| ≤ 1 := by linarith [hn.near, hm.near]
    exact_mod_cast h
  rw [abs_le] at hle
  omega

theorem mono {y : ℚ} (hn : IsNearest x n) (hm : IsNearest y m) (h : x ≤ y) : n ≤ m := by
  by_contra hlt
  have hstep : (m : ℚ) + 1 ≤ n := by exact_mod_cast Int.add_one_le_of_lt (not_le.mp hlt)
  have hlow := (abs_le.mp hn.near).1
  have hhigh := (abs_le.mp hm.near).2
  -- both lie half-way between the integers, and then they are the same number
  have hsame : x = y := by linarith
  rw [hsame] at hn
  exact hlt (hn.eq hm).le

theorem abs_le (h : IsNearest x n) : |x| ≤ |(n : ℚ)| + 1 / 2 := by
  have htriangle := abs_add_le (x - n) (n : ℚ)
  rw [sub_add_cancel] at htriangle
  linarith [h.near]

theorem abs_intCast_le (h : IsNearest x n) : |(n : ℚ)| ≤ |x| + 1 / 2 := by
  have htriangle := abs_sub_le (n : ℚ) x 0
  rw [sub_zero, sub_zero, abs_sub_comm] at htriangle
  linarith [h.near]

theorem neg (h : IsNearest x n) : IsNearest (-x) (-n) := by
  have hdist : |(-x) - ((-n : ℤ) : ℚ)| = |x - n| := by
    rw [Int.cast_neg, ← abs_neg]
    congr 1
    ring
  exact ⟨hdist.trans_le h.near, fun htie => (h.even (hdist.symm.trans htie)).neg⟩

end IsNearest

/-! ## Quotients of integers -/

/-- An integer is nearest to a quotient if twice the error is at most the denominator, and the integer is
even if it is all of it. -/
theorem isNearest_div_iff {n d q : Int} (hd : d ≠ 0) : IsNearest ((n : ℚ) / d) q ↔
    |2 * (q * d - n)| ≤ |d| ∧ (|2 * (q * d - n)| = |d| → Even q) := by
  have hd' : (d : ℚ) ≠ 0 := by exact_mod_cast hd
  have hpos : (0 : ℚ) < 2 * |(d : ℚ)| := by positivity
  have hdist : |(n : ℚ) / d - q| * (2 * |(d : ℚ)|) = ((|2 * (q * d - n)| : ℤ) : ℚ) := by
    have hfactor : (n : ℚ) / d - q = -(q * d - n) / d := by
      field_simp
      ring
    rw [hfactor, abs_div, abs_neg]
    push_cast
    rw [abs_mul, abs_two]
    field_simp
  have hhalf : 1 / 2 * (2 * |(d : ℚ)|) = ((|d| : ℤ) : ℚ) := by
    push_cast
    ring
  have hnear : |(n : ℚ) / d - q| ≤ 1 / 2 ↔ |2 * (q * d - n)| ≤ |d| := by
    rw [← mul_le_mul_iff_of_pos_right hpos, hdist, hhalf, Int.cast_le]
  have htie : |(n : ℚ) / d - q| = 1 / 2 ↔ |2 * (q * d - n)| = |d| := by
    rw [← mul_left_inj' hpos.ne', hdist, hhalf, Int.cast_inj]
  constructor
  · intro h
    exact ⟨hnear.mp h.near, fun heq => h.even (htie.mpr heq)⟩
  · rintro ⟨hle, heven⟩
    exact ⟨hnear.mpr hle, fun heq => heven (htie.mp heq)⟩

theorem even_divHalfEven_of_tie {n d : Int} (hd : 0 < d) (h : |2 * (divHalfEven n d * d - n)| = d) :
    Even (divHalfEven n d) := by
  have hnot : ¬ d < 0 := not_lt.mpr hd.le
  have hsplit := Int.mul_ediv_add_emod n d
  have hlow := Int.emod_nonneg n hd.ne'
  simp only [divHalfEven, if_neg hnot] at h ⊢
  split
  · next hup =>
    rw [if_pos hup] at h
    rcases hup with hlt | ⟨_, hodd⟩
    · -- more than half a unit below the next integer is no tie
      have hdist : 2 * ((n / d + 1) * d - n) = 2 * (d - n % d) := by linarith
      have hhigh := Int.emod_lt_of_pos n hd
      rw [hdist, abs_of_nonneg (by linarith)] at h
      omega
    · rw [Int.even_iff]
      omega
  · next hdown =>
    rw [if_neg hdown] at h
    have hdist : 2 * (n / d * d - n) = -(2 * (n % d)) := by linarith
    rw [hdist, abs_neg, abs_of_nonneg (by linarith)] at h
    rw [Int.even_iff]
    omega

theorem isNearest_divHalfEven (n : Int) {d : Int} (hd : 0 < d) :
    IsNearest ((n : ℚ) / d) (divHalfEven n d) := by
  rw [isNearest_div_iff hd.ne', abs_of_pos hd]
  exact ⟨abs_two_mul_divHalfEven_sub_le n hd, even_divHalfEven_of_tie hd⟩

/-! ## Signs -/

/-- The signs of numerator and denominator cancel. -/
theorem divHalfEven_neg_neg (n : Int) {d : Int} (hd : d ≠ 0) :
    divHalfEven (-n) (-d) = divHalfEven n d := by
  rcases hd.lt_or_gt with hneg | hpos
  · have hnot : ¬ -d < 0 := by omega
    simp only [divHalfEven, if_pos hneg, if_neg hnot]
  · have hnot : ¬ d < 0 := by omega
    have hlt : -d < 0 := by omega
    simp only [divHalfEven, if_neg hnot, if_pos hlt, neg_neg]

theorem isNearest_divHalfEven_of_ne_zero (n : Int) {d : Int} (hd : d ≠ 0) :
    IsNearest ((n : ℚ) / d) (divHalfEven n d) := by
  rcases hd.lt_or_gt with hneg | hpos
  · have hnear := isNearest_divHalfEven (-n) (neg_pos.mpr hneg)
    rwa [divHalfEven_neg_neg n hd, Int.cast_neg, Int.cast_neg, neg_div_neg_eq] at hnear
  · exact isNearest_divHalfEven n hpos

theorem divHalfEven_neg (n : Int) {d : Int} (hd : d ≠ 0) :
    divHalfEven (-n) d = -divHalfEven n d := by
  have hnear := isNearest_divHalfEven_of_ne_zero (-n) hd
  rw [Int.cast_neg, neg_div] at hnear
  exact hnear.eq (isNearest_divHalfEven_of_ne_zero n hd).neg

theorem divHalfEven_neg_right (n : Int) {d : Int} (hd : d ≠ 0) :
    divHalfEven n (-d) = -divHalfEven n d := by
  rw [← divHalfEven_neg n hd, ← divHalfEven_neg_neg (-n) hd, neg_neg]

namespace Cents

/-- A quotient is the one integer that is nearest, with ties to even, whatever the signs: twice its error is
at most the denominator. A sign goes over to the result, and with a positive denominator a larger numerator
has no smaller quotient. -/
theorem divide_half_even (n : Int) {d : Int} (hd : d ≠ 0) :
    ∃ q, divide n d = .ok q ∧ |2 * (q * d - n)| ≤ |d| ∧ (|2 * (q * d - n)| = |d| → Even q) ∧
      (∀ r, IsNearest ((n : ℚ) / d) r ↔ r = q) ∧
      divide (-n) d = .ok (-q) ∧ divide n (-d) = .ok (-q) ∧
      (0 < d → ∀ m, n ≤ m → ∃ r, divide m d = .ok r ∧ q ≤ r) := by
  have hnear := isNearest_divHalfEven_of_ne_zero n hd
  obtain ⟨herror, heven⟩ := (isNearest_div_iff hd).mp hnear
  refine ⟨divHalfEven n d, divide_of_ne_zero n hd, herror, heven, fun r => ?_, ?_, ?_, ?_⟩
  · constructor
    · exact fun h => h.eq hnear
    · rintro rfl
      exact hnear
  · rw [divide_of_ne_zero _ hd, divHalfEven_neg n hd]
  · rw [divide_of_ne_zero _ (neg_ne_zero.mpr hd), divHalfEven_neg_right n hd]
  · intro hpos m hle
    exact ⟨divHalfEven m d, divide_of_ne_zero m hd, divHalfEven_mono hpos hle⟩

/-- Seven by minus two is a tie, which goes to minus four on either side of zero. -/
theorem divide_half_even_tie : (-2 : Int) ≠ 0 ∧ divide 7 (-2) = .ok (-4) ∧ divide (-7) (-2) = .ok 4 ∧
    divide 7 (- -2) = .ok 4 ∧ ∀ r, IsNearest (((7 : ℤ) : ℚ) / ((-2 : ℤ) : ℚ)) r ↔ r = -4 := by
  obtain ⟨q, hq, _, _, hunique, hneg, hright, _⟩ := divide_half_even 7 (by decide : (-2 : Int) ≠ 0)
  have hvalue : q = -4 := by
    cases hq
    rfl
  subst hvalue
  exact ⟨by decide, hq, hneg, hright, hunique⟩

end Cents
end PortfolioLab
