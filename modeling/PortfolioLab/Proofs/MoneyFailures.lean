import PortfolioLab.Proofs.Conversions

/-!
# Failures at the money boundary

A value that comes in as an amount or as a factor is refused, or leaves the range, with a failure of the
library's own. Two steps below it have limits that it does not guard: a size of a million digits or more
before the point cannot be judged, and an integer of more than 4300 digits cannot be shown in a message.
These are the only failures that escape.
-/

namespace PortfolioLab

theorem surface_error {α : Type} (e : Failure) :
    surface (.error e : Except Failure α) = .error e.surfaced := rfl

theorem surface_outOfRange {α : Type} {fault : RangeFault} (h : fault.isShown = true) :
    surface (.error (.outOfRange fault) : Except Failure α) = .error (.outOfRange fault) := by
  rw [surface_error, Failure.surfaced, if_pos h]

namespace Decimal

theorem roundToDigits_abs (digits : Nat) (d : Decimal) :
    d.abs.roundToDigits digits = (d.roundToDigits digits).abs := by
  by_cases h : digitCount d.coefficient - digits = 0 <;> simp [roundToDigits, Decimal.abs, h]

theorem value_mul (a b : Decimal) : (a.mul b).value = a.value * b.value := by
  have hexponent : (a.mul b).exponent = a.exponent + b.exponent := rfl
  rw [value, signed_mul, value, value, hexponent, zpow_add₀ (by norm_num)]
  push_cast
  ring

end Decimal

namespace Money

variable {v : Value} {d : Decimal} {units : Int}

/-- An amount in range, or one of the failures that the boundary declares. -/
inductive Declared : Except Failure Cents → Prop
  | amount {n : Cents} (h : Cents.InRange n) : Declared (.ok n)
  | refused (cause : InvalidInput) : Declared (.error (.invalidInput cause))
  | outOfRange (cause : RangeFault) : Declared (.error (.outOfRange cause))

/-- The value stands for a decimal whose size, in twenty-eight digits, is a million digits or more before
the point. -/
def Oversized (v : Value) : Prop :=
  ∃ d, decimalOf v = .ok d ∧ (10 : ℚ) ^ (1000000 : ℤ) ≤ |(d.roundToDigits 28).value|

private theorem isLarge_iff (d : Decimal) : (d.coefficient ≠ 0 ∧ sizeMaxExponent < d.leadingExponent) ↔
    (10 : ℚ) ^ (1000000 : ℤ) ≤ |d.value| := by
  by_cases hc : d.coefficient = 0
  · have hpos : (0 : ℚ) < 10 ^ (1000000 : ℤ) := by positivity
    rw [Decimal.abs_value, hc, Nat.cast_zero, zero_mul]
    simp only [ne_eq, not_true_eq_false, false_and, false_iff, not_le]
    exact hpos
  · rw [Decimal.zpow_le_abs_value_iff hc, sizeMaxExponent]
    constructor
    · rintro ⟨_, h⟩
      omega
    · exact fun h => ⟨hc, by omega⟩

theorem magnitude_eq (d : Decimal) : magnitude d =
    if (10 : ℚ) ^ (1000000 : ℤ) ≤ |(d.roundToDigits 28).value| then .error .exponentOverflow
    else .ok (d.abs.roundToDigits 28) := by
  simp only [← Decimal.abs_value_abs (d.roundToDigits 28), ← isLarge_iff, ← Decimal.roundToDigits_abs]
  rfl

/-! ## One guarded step -/

/-- An integer of moderate size can be shown. -/
theorem isShownInt_of_lt {n : Int} {k : Nat} (hk : k ≤ shownDigits) (h : |n| < 10 ^ k) :
    isShownInt n = true := by
  have hn : n.natAbs < 10 ^ k := by
    rw [Int.abs_eq_natAbs] at h
    exact_mod_cast h
  have hdigits : Decimal.digitCount n.natAbs ≤ max k 1 :=
    Decimal.digitCount_le (by omega) (hn.trans_le (Nat.pow_le_pow_right (by norm_num) (le_max_left k 1)))
  exact decide_eq_true (hdigits.trans (max_le hk (by decide)))

/-- A refusal shows nothing but the value. -/
private theorem refused_of_decimalOf {e : Failure} (h : decimalOf v = .error e) :
    ∃ cause, e = .invalidInput cause ∧ cause.isShown = v.isShown := by
  unfold decimalOf at h
  split at h
  · cases h
  · cases h
  · split at h <;> cases h
    exact ⟨_, rfl, rfl⟩
  · cases h
  · cases h
    exact ⟨_, rfl, rfl⟩
  · split at h <;> cases h
    · exact ⟨_, rfl, rfl⟩
    · exact ⟨_, rfl, rfl⟩
  · cases h
    exact ⟨_, rfl, rfl⟩

/-- A value of moderate size can be shown. -/
private theorem isShown_of_lt (hd : decimalOf v = .ok d) (h : |d.value| < 10 ^ 100) :
    v.isShown = true := by
  cases v with
  | int n =>
    cases hd
    rw [Decimal.value_ofInt] at h
    exact isShownInt_of_lt (k := 100) (by decide) (by exact_mod_cast h)
  | list items => cases hd
  | table entries => cases hd
  | null => cases hd
  | bool b => rfl
  | real x => rfl
  | decimal n => rfl
  | text s => rfl

private theorem declared_refused_iff (cause : InvalidInput) :
    Declared (surface (.error (.invalidInput cause))) ↔ cause.isShown = true := by
  rw [surface_error, Failure.surfaced]
  split
  · next h => exact iff_of_true (.refused cause) h
  · next h => exact iff_of_false (fun hd => nomatch hd) h

private theorem declared_outOfRange_iff (fault : RangeFault) :
    Declared (surface (.error (.outOfRange fault))) ↔ fault.isShown = true := by
  rw [surface_error, Failure.surfaced]
  split
  · next h => exact iff_of_true (.outOfRange fault) h
  · next h => exact iff_of_false (fun hd => nomatch hd) h

/-- An amount of moderate size that is checked. -/
private theorem declared_check {n : Int} (h : |n| < 10 ^ 100) : Declared (surface (Cents.check n)) := by
  unfold Cents.check
  split
  · next hr => exact .amount hr
  · exact (declared_outOfRange_iff _).mpr (isShownInt_of_lt (by decide) h)

private theorem magnitude_of_oversized (hd : decimalOf v = .ok d) (h : Oversized v) :
    magnitude d = .error .exponentOverflow := by
  obtain ⟨d', hd', hlarge⟩ := h
  rw [hd] at hd'
  cases hd'
  rw [magnitude_eq, if_pos hlarge]

/-- A decimal of a size below the limit can be judged. -/
theorem not_oversized_of_le (hd : decimalOf v = .ok d) {e : ℤ} (he : e < 1000000)
    (h : |d.value| ≤ 10 ^ e) : ¬ Oversized v := by
  rintro ⟨d', hd', hlarge⟩
  rw [hd] at hd'
  cases hd'
  have hround := Decimal.abs_roundToDigits_le_zpow (by norm_num : 0 < 28) h
  have hless : (10 : ℚ) ^ e < 10 ^ (1000000 : ℤ) := zpow_lt_zpow_right₀ (by norm_num) he
  exact absurd (hlarge.trans hround) (not_le.mpr hless)

private theorem magnitude_of_not_oversized (hd : decimalOf v = .ok d) (h : ¬ Oversized v) :
    magnitude d = .ok (d.abs.roundToDigits 28) := by
  rw [magnitude_eq, if_neg fun hlarge => h ⟨d, hd, hlarge⟩]

/-- A size within a limit bounds the decimal that it is the size of. -/
theorem lt_of_not_exceeds {limit : Nat} (hpos : 0 < limit) (hlimit : limit + 1 < 10 ^ 28)
    (h : ¬ (d.abs.roundToDigits 28).exceeds 2 limit = true) :
    |d.value| * 10 ^ (2 : ℤ) < limit + 1 := by
  rw [Decimal.exceeds_iff hpos, not_lt] at h
  by_contra hge
  have habove : ((limit + 1 : ℕ) : ℚ) ≤ |d.abs.value| * 10 ^ (2 : ℤ) := by
    rw [Decimal.abs_value_abs]
    exact_mod_cast not_lt.mp hge
  have hround := Decimal.le_roundToDigits (by norm_num : 0 < 28) hlimit habove
  push_cast at hround
  linarith

/-- A value is turned into a decimal, the size of which is judged against a limit. If all that is done
with a decimal within the limit ends as declared, then nothing escapes but a size that cannot be judged
and a value that cannot be shown. -/
private theorem declared_guarded_iff {limit : Nat} {fault : RangeFault}
    {rest : Decimal → Except Failure Cents} (hpos : 0 < limit) (hlimit : limit + 1 < 10 ^ 28)
    (hfault : fault.isShown = v.isShown)
    (hrest : ∀ d : Decimal, |d.value| * 10 ^ (2 : ℤ) < limit + 1 → Declared (surface (rest d))) :
    Declared (surface (do
      let d ← decimalOf v
      let size ← magnitude d
      if size.exceeds 2 limit then .error (.outOfRange fault) else rest d)) ↔
      ¬ Oversized v ∧ v.isShown = true := by
  cases hd : decimalOf v with
  | error e =>
    obtain ⟨cause, rfl, hcause⟩ := refused_of_decimalOf hd
    have hsize : ¬ Oversized v := by
      rintro ⟨d, hd', _⟩
      rw [hd] at hd'
      cases hd'
    rw [error_bind, declared_refused_iff, hcause]
    exact ⟨fun h => ⟨hsize, h⟩, And.right⟩
  | ok d =>
    rw [ok_bind]
    by_cases hsize : Oversized v
    · rw [magnitude_of_oversized hd hsize, error_bind, surface_error]
      exact iff_of_false (fun h => nomatch h) fun h => h.1 hsize
    · rw [magnitude_of_not_oversized hd hsize, ok_bind]
      by_cases hlarge : (d.abs.roundToDigits 28).exceeds 2 limit = true
      · rw [if_pos hlarge, declared_outOfRange_iff, hfault]
        exact ⟨fun h => ⟨hsize, h⟩, And.right⟩
      · rw [if_neg hlarge]
        have hwithin := lt_of_not_exceeds hpos hlimit hlarge
        refine iff_of_true (hrest d hwithin) ⟨hsize, isShown_of_lt hd ?_⟩
        have hnonneg := abs_nonneg d.value
        have hlimit' : ((limit + 1 : ℕ) : ℚ) < 10 ^ 28 := by exact_mod_cast hlimit
        push_cast at hlimit'
        norm_num at hwithin ⊢
        linarith

/-- An amount in dollars that is not refused for its size has few digits. -/
theorem abs_scaledInt_lt (hd : |d.value| * 10 ^ (2 : ℤ) < (maxCents.toNat + 100 : ℕ) + 1) :
    |d.scaledInt 2| < 10 ^ 100 := by
  have hlimit : maxCents.toNat + 100 = 9223372036854775907 := rfl
  have hnear := (d.isNearest_scaledInt 2).abs_intCast_le
  rw [abs_mul, abs_of_pos (by positivity : (0 : ℚ) < 10 ^ (2 : ℤ))] at hnear
  have hsmall : |((d.scaledInt 2 : ℤ) : ℚ)| < 10 ^ 100 := by
    rw [hlimit] at hd
    norm_num at hd hnear ⊢
    linarith
  exact_mod_cast hsmall

theorem declared_toCents_iff (v : Value) :
    Declared (surface (toCents v)) ↔ ¬ Oversized v ∧ v.isShown = true := by
  have hlimit : maxCents.toNat + 100 = 9223372036854775907 := rfl
  unfold toCents
  exact declared_guarded_iff (Nat.succ_pos _) (by norm_num [hlimit]) rfl fun d hd =>
    declared_check (abs_scaledInt_lt hd)

def product (units : Cents) (d : Decimal) : Decimal :=
  (d.mul (Decimal.ofInt units)).roundToDigits productDigits

theorem scaleBy_of_inRange (hr : Cents.InRange units) (d : Decimal) :
    scaleBy units d = Cents.check ((product units d).scaledInt 0) := by
  rw [scaleBy, Cents.check_of_inRange hr]
  rfl

/-- The product with a factor that is not refused has far fewer than sixty digits before the point. -/
theorem abs_value_mul_units_le (hr : Cents.InRange units)
    (hd : |d.value| * 10 ^ (2 : ℤ) < maxCents.toNat + 1) :
    |(d.mul (Decimal.ofInt units)).value| ≤ ((10 ^ 50 : ℕ) : ℚ) := by
  have hlimit : maxCents.toNat = 9223372036854775807 := rfl
  have hamount : |(units : ℚ)| ≤ 9223372036854775808 := by
    obtain ⟨hlow, hhigh⟩ := hr
    simp only [minCents, maxCents] at hlow hhigh
    have h : |units| ≤ 9223372036854775808 := abs_le.mpr ⟨hlow, by omega⟩
    exact_mod_cast h
  have hfactor : |d.value| ≤ 92233720368547758.08 := by
    rw [hlimit] at hd
    norm_num at hd ⊢
    linarith
  rw [Decimal.value_mul, Decimal.value_ofInt, abs_mul]
  calc |d.value| * |(units : ℚ)| ≤ 92233720368547758.08 * 9223372036854775808 :=
        mul_le_mul hfactor hamount (abs_nonneg _) (by norm_num)
    _ ≤ ((10 ^ 50 : ℕ) : ℚ) := by norm_num

theorem abs_scaledInt_product_lt (hr : Cents.InRange units)
    (hd : |d.value| * 10 ^ (2 : ℤ) < maxCents.toNat + 1) : |(product units d).scaledInt 0| < 10 ^ 100 := by
  have hexact := abs_value_mul_units_le hr hd
  rw [← mul_one |_|, ← zpow_zero (10 : ℚ)] at hexact
  have hround : |(product units d).value| * 10 ^ (0 : ℤ) ≤ ((10 ^ 50 : ℕ) : ℚ) :=
    Decimal.roundToDigits_le (by norm_num [productDigits]) (by norm_num [productDigits]) hexact
  have hnear := ((product units d).isNearest_scaledInt 0).abs_intCast_le
  rw [abs_mul, abs_of_pos (by positivity : (0 : ℚ) < 10 ^ (0 : ℤ))] at hnear
  have hsmall : |(((product units d).scaledInt 0 : ℤ) : ℚ)| < 10 ^ 100 := by
    refine (hnear.trans (add_le_add_left hround _)).trans_lt ?_
    norm_num
  exact_mod_cast hsmall

private theorem declared_scaleBy (hunits : isShownInt units = true)
    (hd : |d.value| * 10 ^ (2 : ℤ) < maxCents.toNat + 1) : Declared (surface (scaleBy units d)) := by
  by_cases hr : Cents.InRange units
  · rw [scaleBy_of_inRange hr]
    exact declared_check (abs_scaledInt_product_lt hr hd)
  · have hcheck : Cents.check units = .error (.outOfRange (.cents units)) := if_neg hr
    rw [scaleBy, hcheck, error_bind]
    exact (declared_outOfRange_iff _).mpr hunits

private theorem declared_scale_iff (hunits : isShownInt units = true) (v : Value) :
    Declared (surface (scale units v)) ↔ ¬ Oversized v ∧ v.isShown = true := by
  have hlimit : maxCents.toNat = 9223372036854775807 := rfl
  unfold scale
  exact declared_guarded_iff (by norm_num [hlimit]) (by norm_num [hlimit]) rfl fun d hd =>
    declared_scaleBy hunits hd

/-- The money boundary fails with its own failures exactly when the size of the value can be judged and
the value can be shown, for an amount to scale that can be shown. -/
theorem boundary_failures_declared (v : Value) (hunits : isShownInt units = true) :
    (Declared (surface (toCents v)) ↔ ¬ Oversized v ∧ v.isShown = true) ∧
      (Declared (surface (scale units v)) ↔ ¬ Oversized v ∧ v.isShown = true) :=
  ⟨declared_toCents_iff v, declared_scale_iff hunits v⟩

/-- A text of a few dollars is an amount and a factor. -/
theorem boundary_failures_declared_text : isShownInt (-250) = true ∧
    Declared (surface (toCents (.text "12.345"))) ∧ Declared (surface (scale (-250) (.text "12.345"))) := by
  have hunits : isShownInt (-250) = true := isShownInt_of_lt (k := 100) (by decide) (by norm_num)
  have hread : Numeral.ofText? "12.345" = some (.finite ⟨false, 12345, -3⟩) := by decide +kernel
  have hdecimal : decimalOf (.text "12.345") = .ok ⟨false, 12345, -3⟩ := by rw [decimalOf, hread]
  have hsize : ¬ Oversized (.text "12.345") := by
    rintro ⟨d, hd, hlarge⟩
    rw [hdecimal] at hd
    cases hd
    rw [Decimal.roundToDigits_eq_self (by norm_num) (by norm_num), ← isLarge_iff] at hlarge
    simp [Decimal.leadingExponent, Decimal.digitCount, sizeMaxExponent] at hlarge
  obtain ⟨hcents, hscale⟩ := boundary_failures_declared (.text "12.345") hunits
  exact ⟨hunits, hcents.mpr ⟨hsize, rfl⟩, hscale.mpr ⟨hsize, rfl⟩⟩

/-- A decimal of a million digits cannot be judged, and an integer of 4301 digits cannot be shown. -/
theorem boundary_failures_escape :
    ¬ Declared (surface (toCents (.decimal (.finite ⟨false, 1, 1000000⟩)))) ∧
      ¬ Declared (surface (toCents (.int (10 ^ 4300)))) := by
  rw [declared_toCents_iff, declared_toCents_iff]
  constructor
  · have hlarge : Oversized (.decimal (.finite ⟨false, 1, 1000000⟩)) := by
      refine ⟨_, rfl, ?_⟩
      rw [Decimal.roundToDigits_eq_self (by norm_num) (by norm_num), ← isLarge_iff]
      simp [Decimal.leadingExponent, Decimal.digitCount, sizeMaxExponent]
    exact fun h => h.1 hlarge
  · rintro ⟨_, hshown⟩
    have hdigits := of_decide_eq_true hshown
    have hlt := Decimal.lt_pow_digitCount (10 ^ 4300 : ℤ).natAbs
    generalize Decimal.digitCount (10 ^ 4300 : ℤ).natAbs = digits at hdigits hlt
    rw [Int.natAbs_pow] at hlt
    have hmore := (Nat.pow_lt_pow_iff_right (by norm_num : 1 < (10 : ℤ).natAbs)).mp hlt
    exact absurd hmore (Nat.not_lt.mpr hdigits)

end Money
end PortfolioLab
