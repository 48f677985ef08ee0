import PortfolioLab.Proofs.MoneyFailures

/-!
# The nearest cent

An amount in dollars becomes the nearest number of cents whatever the number of its digits, because the
few digits in which its size is judged decide nothing but whether it is refused. A product with a factor
is rounded to sixty digits before it is rounded to a cent. This keeps it within half a cent of the cent
that is nearest to the exact product, so the only product that goes elsewhere is one that the sixty digits
turn into a tie.
-/

namespace PortfolioLab

/-- The outcome of an operation that is worth `n` cents: these, if they are in range, and a failure that
says that they are not, otherwise. -/
structure Cents.Yields (r : Except Failure Cents) (n : ℤ) : Prop where
  amount : InRange n → r = .ok n
  outOfRange : ¬ InRange n → ∃ fault, r = .error (.outOfRange fault)

theorem Cents.yields_check {n : ℤ} (h : isShownInt n = true) : Yields (surface (check n)) n where
  amount hr := by
    rw [check_of_inRange hr]
    rfl
  outOfRange hr := by
    refine ⟨.cents n, ?_⟩
    rw [check, if_neg hr]
    exact surface_outOfRange h

namespace Money

variable {v : Value} {d : Decimal} {units : Cents}

/-- A value stands for a decimal: an integer and a decimal for themselves, a double for the shortest
decimal that reads back as it, and a text for the decimal that it reads as. -/
inductive Denotes : Value → Decimal → Prop
  | int (n : ℤ) : Denotes (.int n) (Decimal.ofInt n)
  | real {x : Float} {d : Decimal} (h : Binary64.shortest? x = some d) : Denotes (.real x) d
  | decimal (d : Decimal) : Denotes (.decimal (.finite d)) d
  | text {s : String} {d : Decimal} (h : Numeral.ofText? s = some (.finite d)) : Denotes (.text s) d

theorem Denotes.decimalOf_eq (hv : Denotes v d) : decimalOf v = .ok d := by
  cases hv with
  | int n => rfl
  | real h => rw [decimalOf, h]
  | decimal d => rfl
  | text h => rw [decimalOf, h]

/-- The text of a decimal stands for it, however many digits it has. -/
theorem denotes_toText (h : Numeral.fits d = true) : Denotes (.text d.toText) d :=
  .text (Decimal.ofText?_toText h)

theorem Denotes.isShown (hv : Denotes v d) (hint : ∀ n, v = .int n → isShownInt n = true) :
    v.isShown = true := by
  cases hv with
  | int n => exact hint n rfl
  | real h => rfl
  | decimal d => rfl
  | text h => rfl

/-! ## Dollars -/

theorem magnitude_of_lt (hd : |d.value| < 10 ^ (999999 : ℤ)) :
    magnitude d = .ok (d.abs.roundToDigits sizeDigits) := by
  have hround := Decimal.abs_roundToDigits_le_zpow (by norm_num : 0 < 28) hd.le
  have hmore : (10 : ℚ) ^ (999999 : ℤ) < 10 ^ (1000000 : ℤ) :=
    zpow_lt_zpow_right₀ (by norm_num) (by norm_num)
  rw [magnitude_eq, if_neg (not_le.mpr (hround.trans_lt hmore))]
  rfl

/-- An amount in dollars is rounded once, to the nearest cent with ties to even, and is refused exactly if
that is out of range. -/
theorem dollars_to_nearest_cent (hv : Denotes v d) (hint : ∀ n, v = .int n → |n| < 10 ^ 4000)
    (hd : |d.value| < 10 ^ (999999 : ℤ)) :
    ∃ n : ℤ, IsNearest (d.value * 100) n ∧ Cents.Yields (surface (toCents v)) n := by
  have hnear := d.isNearest_scaledInt 2
  refine ⟨d.scaledInt 2, ?_, ?_⟩
  · norm_num at hnear
    exact hnear
  by_cases hlarge : (d.abs.roundToDigits sizeDigits).exceeds 2 (maxCents.toNat + 100) = true
  · -- what is refused for its size is out of range
    have hrefused : toCents v = .error (.outOfRange (.value v)) := by
      rw [toCents, hv.decimalOf_eq, ok_bind, magnitude_of_lt hd, ok_bind, if_pos hlarge]
    constructor
    · intro hr
      rw [toCents_of_isNearest hv.decimalOf_eq hnear hr] at hrefused
      cases hrefused
    · intro _
      have hshown : v.isShown = true :=
        hv.isShown fun n hn => isShownInt_of_lt (k := 4000) (by decide) (hint n hn)
      refine ⟨.value v, ?_⟩
      rw [hrefused]
      exact surface_outOfRange hshown
  · rw [toCents, hv.decimalOf_eq, ok_bind, magnitude_of_lt hd, ok_bind, if_neg hlarge]
    have hlimit : maxCents.toNat + 100 = 9223372036854775907 := rfl
    have hwithin := lt_of_not_exceeds (Nat.succ_pos _) (by norm_num [hlimit]) hlarge
    exact Cents.yields_check (isShownInt_of_lt (by decide) (abs_scaledInt_lt hwithin))

/-- A text just above a tie, of more digits than those in which a size is judged, and an integer out of
range. -/
theorem dollars_to_nearest_cent_long_inputs :
    surface (toCents (.text (Decimal.mk false (1005 * 10 ^ 60 + 1) (-63)).toText)) = .ok 101 ∧
      ∃ fault, surface (toCents (.int (10 ^ 30))) = .error (.outOfRange fault) := by
  have hsize : (10 : ℚ) ^ (31 : ℤ) < 10 ^ (999999 : ℤ) := zpow_lt_zpow_right₀ (by norm_num) (by norm_num)
  constructor
  · have hvalue : (Decimal.mk false (1005 * 10 ^ 60 + 1) (-63)).value = (1005 * 10 ^ 60 + 1) / 10 ^ 63 := by
      norm_num [Decimal.value, Decimal.signed]
    have hfits : ∀ c, Decimal.digitCount c ≤ 64 → Numeral.fits ⟨false, c, -63⟩ = true := by
      intro c hdigits
      simp only [Numeral.fits, Numeral.minExponent, Numeral.maxExponent, Decimal.leadingExponent]
      split
      · simp
      · simp
        omega
    have hdigits : Decimal.digitCount (1005 * 10 ^ 60 + 1) ≤ 64 :=
      Decimal.digitCount_le (by norm_num) (by norm_num)
    have hnear : IsNearest ((Decimal.mk false (1005 * 10 ^ 60 + 1) (-63)).value * 100) 101 := by
      rw [hvalue]
      constructor <;> norm_num [abs_of_neg]
    have hmagnitude : |(Decimal.mk false (1005 * 10 ^ 60 + 1) (-63)).value| < 10 ^ (999999 : ℤ) := by
      refine lt_trans ?_ hsize
      rw [hvalue]
      norm_num [abs_of_pos]
    have hdenotes := denotes_toText (hfits _ hdigits)
    obtain ⟨n, hn, hyields⟩ := dollars_to_nearest_cent hdenotes (fun n h => by cases h) hmagnitude
    obtain rfl := hn.eq hnear
    exact hyields.amount (by decide)
  · have hmagnitude : |(Decimal.ofInt (10 ^ 30)).value| < 10 ^ (999999 : ℤ) := by
      refine lt_trans ?_ hsize
      rw [Decimal.value_ofInt]
      norm_num [abs_of_pos]
    have hnear : IsNearest ((Decimal.ofInt (10 ^ 30)).value * 100) ((10 ^ 30 * 100 : ℤ)) := by
      have hcast : (((10 ^ 30 : ℤ) : ℚ)) * 100 = ((10 ^ 30 * 100 : ℤ) : ℚ) := by norm_num
      rw [Decimal.value_ofInt, hcast]
      exact .intCast _
    have hint : ∀ n, Value.int (10 ^ 30) = .int n → |n| < 10 ^ 4000 := by
      intro n h
      cases h
      rw [abs_of_pos (by norm_num)]
      exact pow_lt_pow_right₀ (by norm_num) (by norm_num)
    obtain ⟨n, hn, hyields⟩ := dollars_to_nearest_cent (.int (10 ^ 30)) hint hmagnitude
    obtain rfl := hn.eq hnear
    exact hyields.outOfRange (by decide)

/-! ## Products -/

/-- Where a number goes that is rounded to `y` on the way. The integer `m` is nearest to `y`. It is the
integer `n` that the number itself is nearest to or one next to it, and another one exactly if `y` has
become a tie. -/
structure RoundedOnTheWay (y : ℚ) (n m : ℤ) : Prop where
  nearest : IsNearest y m
  near : |m - n| ≤ 1
  ne_iff : m ≠ n ↔ |y - n| = 1 / 2 ∧ Odd n

theorem RoundedOnTheWay.of_near {y : ℚ} {n m : ℤ} (h : |y - n| ≤ 1 / 2) (hm : IsNearest y m) :
    RoundedOnTheWay y n m where
  nearest := hm
  near := by
    have htriangle := abs_sub_le (m : ℚ) y n
    rw [abs_sub_comm (m : ℚ) y] at htriangle
    have hle : |(m : ℚ) - n| ≤ 1 := by linarith [hm.near]
    exact_mod_cast hle
  ne_iff := by
    rw [← Int.not_even_iff_odd, ← Classical.not_imp, not_iff_not]
    exact ⟨fun hmn => hmn ▸ hm.even, fun heven => hm.eq ⟨h, heven⟩⟩

/-- The digits that a product keeps do not move it away from the cent that it is nearest to by more than
half a cent. -/
theorem abs_product_sub_le {n : ℤ} (hunits : Cents.InRange units)
    (hsmall : |d.value| * 10 ^ (2 : ℤ) < maxCents.toNat + 1) (hn : IsNearest (d.value * units) n) :
    |(product units d).value - n| ≤ 1 / 2 := by
  have hexact := abs_value_mul_units_le hunits hsmall
  rw [← Decimal.value_ofInt units, ← Decimal.value_mul] at hn
  refine Decimal.abs_roundToDigits_sub_le (by norm_num [productDigits]) ?_ hn.near
  have habs : ((n.natAbs : ℕ) : ℚ) ≤ ((10 ^ 50 + 1 : ℕ) : ℚ) := by
    rw [Nat.cast_natAbs, Int.cast_abs]
    push_cast at hexact ⊢
    linarith [hn.abs_intCast_le]
  have hnat : n.natAbs ≤ 10 ^ 50 + 1 := by exact_mod_cast habs
  calc 10 * n.natAbs + 5 ≤ 10 * (10 ^ 50 + 1) + 5 := by omega
    _ < 10 ^ productDigits := by norm_num [productDigits]

/-- A product of at most sixty digits is exact. -/
theorem value_product_of_lt {c : ℤ} {k : ℕ} (hc : d.value = c / 10 ^ k)
    (h : |units * c| < 10 ^ productDigits) : (product units d).value = d.value * units := by
  have hplaces : |(d.mul (Decimal.ofInt units)).value| * 10 ^ (k : ℤ) = ((units * c).natAbs : ℕ) := by
    rw [Decimal.value_mul, Decimal.value_ofInt, hc, Nat.cast_natAbs, Int.cast_abs, zpow_natCast,
      ← abs_of_pos (by positivity : (0 : ℚ) < 10 ^ k), ← abs_mul]
    congr 1
    rw [abs_of_pos (by positivity : (0 : ℚ) < 10 ^ k)]
    push_cast
    field_simp
  have hlimit : (units * c).natAbs < 10 ^ productDigits := by
    rw [Int.abs_eq_natAbs] at h
    exact_mod_cast h
  rw [product, Decimal.value_roundToDigits (by norm_num [productDigits]) hlimit hplaces,
    Decimal.value_mul, Decimal.value_ofInt]

/-- A factor of few digits has a product of at most sixty. -/
theorem value_product_of_coefficient (hunits : Cents.InRange units) (hd : d.coefficient ≤ 10 ^ 18) :
    (product units d).value = d.value * units := by
  rw [product, roundToDigits_mul_eq_self hunits hd, Decimal.value_mul, Decimal.value_ofInt]

/-- An integer that is no larger than a factor may be has few digits, and so has the shortest decimal of
any double. -/
theorem Denotes.coefficient_le (hv : Denotes v d) (hnumber : (∃ i, v = .int i) ∨ ∃ x, v = .real x)
    (hsmall : |d.value| * 10 ^ (2 : ℤ) < maxCents.toNat + 1) : d.coefficient ≤ 10 ^ 18 := by
  cases hv with
  | int n =>
    have hlimit : maxCents.toNat = 9223372036854775807 := rfl
    have habs : ((n.natAbs : ℕ) : ℚ) ≤ ((10 ^ 18 : ℕ) : ℚ) := by
      rw [Decimal.value_ofInt, hlimit] at hsmall
      rw [Nat.cast_natAbs, Int.cast_abs]
      norm_num at hsmall ⊢
      linarith
    exact_mod_cast habs
  | real h =>
    obtain ⟨dyadic, _, rfl⟩ := Option.map_eq_some_iff.mp h
    exact dyadic.coefficient_shortest_le
  | decimal d => simp at hnumber
  | text h => simp at hnumber

/-- The product of an amount in range and a factor that is not too large is an amount if it is in range,
and the failure that it is not otherwise. It is the nearest cent, ties to even, to the exact product, or
to the product in sixty digits where these make a tie of it; integers, doubles and whatever has a product
of at most sixty digits never come there. -/
theorem product_to_nearest_cent {c : ℤ} {k : ℕ} (hunits : Cents.InRange units) (hv : Denotes v d)
    (hc : d.value = c / 10 ^ k) (hfactor : |d.value| ≤ 92233720368547758.07) :
    ∃ m : ℤ, Cents.Yields (surface (scale units v)) m ∧
      RoundedOnTheWay (product units d).value (divHalfEven (units * c) (10 ^ k)) m ∧
      ((∃ i, v = .int i) ∨ (∃ x, v = .real x) ∨ |units * c| < 10 ^ 60 →
        m = divHalfEven (units * c) (10 ^ k)) := by
  have hlimit : maxCents.toNat = 9223372036854775807 := rfl
  have hwithin : |d.value| * 10 ^ (2 : ℤ) ≤ ((maxCents.toNat : ℕ) : ℚ) := by
    rw [hlimit]
    norm_num at hfactor ⊢
    linarith
  have hsmall : |d.value| * 10 ^ (2 : ℤ) < maxCents.toNat + 1 := hwithin.trans_lt (lt_add_one _)
  have hscale : scale units v = Cents.check ((product units d).scaledInt 0) := by
    obtain ⟨size, hsize, hle⟩ := magnitude_of_le (by norm_num [sizeDigits, hlimit]) hwithin
    have hpasses : ¬ size.exceeds 2 maxCents.toNat = true := by
      rw [Decimal.exceeds_iff (by norm_num [hlimit])]
      exact not_lt.mpr hle
    rw [scale, hv.decimalOf_eq, ok_bind, hsize, ok_bind, if_neg hpasses, scaleBy_of_inRange hunits]
  have hexact : d.value * units = ((units * c : ℤ) : ℚ) / ((10 ^ k : ℤ) : ℚ) := by
    rw [hc]
    push_cast
    ring
  have hnearest := isNearest_divHalfEven (units * c) (by positivity : (0 : ℤ) < 10 ^ k)
  rw [← hexact] at hnearest
  have hrounded := (product units d).isNearest_scaledInt 0
  rw [zpow_zero, mul_one] at hrounded
  refine ⟨(product units d).scaledInt 0, ?_, ?_, ?_⟩
  · rw [hscale]
    exact Cents.yields_check (isShownInt_of_lt (by decide) (abs_scaledInt_product_lt hunits hsmall))
  · exact .of_near (abs_product_sub_le hunits hsmall hnearest) hrounded
  · intro hfew
    have hsame : (product units d).value = d.value * units := by
      rcases hfew with hint | hreal | hlt
      · exact value_product_of_coefficient hunits (hv.coefficient_le (.inl hint) hsmall)
      · exact value_product_of_coefficient hunits (hv.coefficient_le (.inr hreal) hsmall)
      · exact value_product_of_lt hc hlt
    exact (hsame ▸ hrounded).eq hnearest

/-- A hundredth of 150 cents is a tie, which goes to the even cent. -/
theorem product_to_nearest_cent_text : surface (scale 150 (.text "0.01")) = .ok 2 := by
  have hread : Numeral.ofText? "0.01" = some (.finite ⟨false, 1, -2⟩) := by decide +kernel
  have hvalue : (⟨false, 1, -2⟩ : Decimal).value = ((1 : ℤ) : ℚ) / 10 ^ 2 := by
    norm_num [Decimal.value, Decimal.signed]
  obtain ⟨m, hyields, _, hexact⟩ := product_to_nearest_cent (by decide : Cents.InRange 150) (.text hread)
    hvalue (by rw [hvalue]; norm_num [abs_of_pos])
  have hm : m = 2 := hexact (.inr (.inr (by norm_num [abs_of_pos])))
  subst hm
  exact hyields.amount (by decide)

/-- A hair more than half a cent is a cent, but in sixty digits it is half a cent, which goes to zero. -/
theorem product_rounded_twice :
    (Decimal.mk false (5 * 10 ^ 60 + 1) (-61)).value = ((5 * 10 ^ 60 + 1 : ℤ) : ℚ) / 10 ^ 61 ∧
      divHalfEven (1 * (5 * 10 ^ 60 + 1)) (10 ^ 61) = 1 ∧
      surface (scale 1 (.decimal (.finite ⟨false, 5 * 10 ^ 60 + 1, -61⟩))) = .ok 0 := by
  refine ⟨by norm_num [Decimal.value, Decimal.signed], by decide, ?_⟩
  have hany : (scale 1 (.decimal (.finite ⟨false, 5 * 10 ^ 60 + 1, -61⟩))).toOption.any (· == 0) = true := by
    decide +kernel
  obtain ⟨n, hn, hzero⟩ := exists_of_check hany
  rw [hn, eq_of_beq hzero]
  rfl

end Money
end PortfolioLab
