import PortfolioLab.Proofs.DecimalValues

/-!
# The numbers that round to a double

Every double stands for an interval of numbers, whose ends lie half a place below and above it, or a
quarter below where the doubles get denser. Intervals of different doubles have at most an end in common,
so doubles in one order stand for numbers in that order. The decimal of fewest digits that reads back is
in the interval, because a grid of seventeen digits is finer than the interval is wide; and the interval
is too narrow for two numbers of fifteen digits.
-/

namespace PortfolioLab.Binary64

variable {a b d : Dyadic} {v w : ℚ}

/-! ## Intervals -/

def Dyadic.low (d : Dyadic) : ℚ := d.interval.lower * 2 ^ d.interval.exponent

def Dyadic.high (d : Dyadic) : ℚ := d.interval.upper * 2 ^ d.interval.exponent

/-- A number of the sign of the double and between the ends; zero has both signs. -/
def Dyadic.Covers (d : Dyadic) (v : ℚ) : Prop :=
  if d.negative then d.low ≤ -v ∧ -v ≤ d.high else d.low ≤ v ∧ v ≤ d.high

theorem Dyadic.low_nonneg (d : Dyadic) : 0 ≤ d.low := by
  unfold low
  positivity

theorem Dyadic.high_eq (d : Dyadic) : d.high = (4 * d.mantissa + 2) * 2 ^ (d.exponent - 2) := by
  simp [high, interval]

private theorem magnitude_eq_quarters (d : Dyadic) : d.magnitude = 4 * d.mantissa * 2 ^ (d.exponent - 2) := by
  rw [Dyadic.magnitude, zpow_sub₀ (by norm_num)]
  norm_num
  ring

/-- The lower end is half a place below, or a quarter if the doubles below are denser. -/
theorem Dyadic.lower_cases (d : Dyadic) :
    d.mantissa = 2 ^ 52 ∧ -1074 < d.exponent ∧ d.interval.lower = 4 * d.mantissa - 1 ∨
      (d.mantissa ≠ 2 ^ 52 ∨ d.exponent ≤ -1074) ∧ d.interval.lower = 4 * d.mantissa - 2 := by
  by_cases hdense : d.mantissa = twoTo 52 ∧ -1074 < d.exponent
  · exact .inl ⟨hdense.1, hdense.2, by simp only [Dyadic.interval, if_pos hdense]⟩
  · refine .inr ⟨?_, by simp only [Dyadic.interval, if_neg hdense]⟩
    rw [not_and_or, not_lt] at hdense
    exact hdense

theorem Dyadic.magnitude_lt_high (d : Dyadic) : d.magnitude < d.high := by
  rw [magnitude_eq_quarters, high_eq]
  gcongr
  linarith

theorem Dyadic.low_lt_magnitude (h : 0 < d.mantissa) : d.low < d.magnitude := by
  rw [magnitude_eq_quarters, low]
  have hlt : d.interval.lower < 4 * d.mantissa := by
    have hcases := d.lower_cases
    omega
  have hrat : (d.interval.lower : ℚ) < 4 * d.mantissa := by exact_mod_cast hlt
  exact mul_lt_mul_of_pos_right hrat (by positivity)

/-- The interval of a double lies below that of a larger one. -/
theorem Dyadic.Regular.high_le_low (ha : a.Regular) (hb : b.Regular) (h : a.magnitude < b.magnitude) :
    a.high ≤ b.low := by
  rw [Dyadic.high_eq]
  have hlow : b.low = b.interval.lower * 2 ^ (b.exponent - 2) := rfl
  rw [hlow]
  have hcases := b.lower_cases
  rcases (ha.magnitude_lt_iff hb).mp h with hlt | ⟨heq, hlt⟩
  · have hleast := ha.least_le
    have hm := ha.mantissa_lt
    have hfull : 2 ^ 52 ≤ b.mantissa := hb.full.resolve_right (by omega)
    -- two quarters of the lower exponent make one of the next
    have hends : 4 * a.mantissa + 2 ≤ 2 * b.interval.lower := by omega
    have hends' : (4 * a.mantissa + 2 : ℚ) ≤ 2 * b.interval.lower := by exact_mod_cast hends
    have hpow : (2 : ℚ) ^ (a.exponent - 2 + 1) ≤ 2 ^ (b.exponent - 2) :=
      zpow_le_zpow_right₀ (by norm_num) (by omega)
    rw [zpow_add₀ (by norm_num), zpow_one] at hpow
    calc (4 * a.mantissa + 2 : ℚ) * 2 ^ (a.exponent - 2)
        ≤ 2 * b.interval.lower * 2 ^ (a.exponent - 2) := by gcongr
      _ = b.interval.lower * (2 ^ (a.exponent - 2) * 2) := by ring
      _ ≤ b.interval.lower * 2 ^ (b.exponent - 2) := by gcongr
  · have hends : 4 * a.mantissa + 2 ≤ b.interval.lower := by omega
    have hends' : (4 * a.mantissa + 2 : ℚ) ≤ b.interval.lower := by exact_mod_cast hends
    rw [heq]
    gcongr

/-- Numbers are in the order of the doubles that they round to. -/
theorem Dyadic.Covers.le (ha : a.Regular) (hb : b.Regular) (hv : a.Covers v) (hw : b.Covers w)
    (h : a.value < b.value) : v ≤ w := by
  have hlowA := a.low_nonneg
  have hlowB := b.low_nonneg
  have hnonnegA := a.magnitude_nonneg
  have hnonnegB := b.magnitude_nonneg
  unfold Dyadic.Covers at hv hw
  unfold Dyadic.value at h
  cases hna : a.negative <;> cases hnb : b.negative <;>
    simp only [hna, hnb, if_true, if_false, Bool.false_eq_true] at hv hw h
  · have hends := ha.high_le_low hb h
    linarith
  · linarith
  · linarith
  · have hends := hb.high_le_low ha (by linarith)
    linarith

theorem Dyadic.Covers.neg (h : d.Covers v) : d.neg.Covers (-v) := by
  unfold Dyadic.Covers at h ⊢
  have hlow : d.neg.low = d.low := rfl
  have hhigh : d.neg.high = d.high := rfl
  rw [hlow, hhigh]
  cases hneg : d.negative <;> simpa [Dyadic.neg, hneg] using h

/-! ## Grids -/

section Grid

variable {i : Interval} {c : Nat} {grid leading : Int}

private theorem scaled (i : Interval) (k c : Nat) (grid : Int) :
    ∃ unit : ℚ, 0 < unit ∧
      ((c * tenTo grid.toNat * twoTo (-i.exponent).toNat : Nat) : ℚ) = c * 10 ^ grid * unit ∧
      ((k * (tenTo (-grid).toNat * twoTo i.exponent.toNat) : Nat) : ℚ) = k * 2 ^ i.exponent * unit := by
  refine ⟨10 ^ (-grid).toNat * 2 ^ (-i.exponent).toNat, by positivity, ?_, ?_⟩
  · rw [zpow_eq_div 10, tenTo_eq, twoTo_eq]
    push_cast
    field_simp
  · rw [zpow_eq_div 2, tenTo_eq, twoTo_eq]
    push_cast
    field_simp

private theorem lt_point_iff (k : Nat) : (k : ℚ) * 2 ^ i.exponent < c * 10 ^ grid ↔
    k * (tenTo (-grid).toNat * twoTo i.exponent.toNat) <
      c * tenTo grid.toNat * twoTo (-i.exponent).toNat := by
  obtain ⟨unit, hunit, hpoint, hend⟩ := scaled i k c grid
  rw [← Nat.cast_lt (α := ℚ), hpoint, hend, mul_lt_mul_iff_left₀ hunit]

private theorem point_lt_iff (k : Nat) : (c : ℚ) * 10 ^ grid < k * 2 ^ i.exponent ↔
    c * tenTo grid.toNat * twoTo (-i.exponent).toNat <
      k * (tenTo (-grid).toNat * twoTo i.exponent.toNat) := by
  obtain ⟨unit, hunit, hpoint, hend⟩ := scaled i k c grid
  rw [← Nat.cast_lt (α := ℚ), hpoint, hend, mul_lt_mul_iff_left₀ hunit]

/-- A point of a grid that the interval holds is not outside its ends. -/
theorem Interval.bounds_of_holds (hle : i.lower ≤ i.upper) (h : i.holds c grid = true) :
    i.lower * 2 ^ i.exponent ≤ c * (10 : ℚ) ^ grid ∧
      c * (10 : ℚ) ^ grid ≤ i.upper * 2 ^ i.exponent := by
  rw [← not_lt, ← not_lt, point_lt_iff, lt_point_iff, not_lt, not_lt]
  simp only [holds, Bool.or_eq_true, Bool.and_eq_true, beq_iff_eq, decide_eq_true_eq] at h
  rcases h with ⟨hlow, hhigh⟩ | ⟨_, heq | heq⟩
  · exact ⟨hlow.le, hhigh.le⟩
  · rw [heq]
    exact ⟨le_rfl, Nat.mul_le_mul_right _ hle⟩
  · rw [heq]
    exact ⟨Nat.mul_le_mul_right _ hle, le_rfl⟩

theorem Interval.holds_of_between (hlow : i.lower * 2 ^ i.exponent < c * (10 : ℚ) ^ grid)
    (hhigh : c * (10 : ℚ) ^ grid < i.upper * 2 ^ i.exponent) : i.holds c grid = true := by
  rw [lt_point_iff] at hlow
  rw [point_lt_iff] at hhigh
  simp only [holds, hlow, hhigh, decide_true, Bool.and_true, Bool.true_or]

theorem Interval.holds_of_candidate? (h : i.candidate? grid = some c) : i.holds c grid = true := by
  unfold candidate? at h
  dsimp only at h
  split at h
  · next hbelow habove =>
    split at h
    · cases h
      exact hbelow
    · cases h
      exact habove
  · next hbelow _ =>
    cases h
    exact hbelow
  · next _ habove =>
    cases h
    exact habove
  · cases h

/-- The search ends at a point of the interval if one of its grids has one. -/
private theorem holds_search {k : Nat} (fuel digits : Nat) (hk : k < fuel)
    (h : i.candidate? (leading + 1 - (digits + k : Nat)) ≠ none) :
    i.holds (i.search leading fuel digits).1 (i.search leading fuel digits).2 = true := by
  induction fuel generalizing digits k with
  | zero => exact absurd hk (Nat.not_lt_zero k)
  | succ fuel ih =>
    simp only [Interval.search]
    split
    · next c hc => exact Interval.holds_of_candidate? hc
    · next hnone =>
      cases k with
      | zero => exact absurd hnone h
      | succ k => exact ih (digits + 1) (Nat.lt_of_succ_lt_succ hk) (by rwa [Nat.add_right_comm])

end Grid

/-! ## The shortest decimal -/

theorem pow_decimalExponent_le {n d : Nat} (hn : 0 < n) (hd : 0 < d) :
    (10 : ℚ) ^ decimalExponent n d ≤ n / d := by
  have hd' : (0 : ℚ) < d := by exact_mod_cast hd
  have hten : (10 : ℚ) ≠ 0 := by norm_num
  simp only [decimalExponent]
  generalize he : (Decimal.digitCount n : Int) - Decimal.digitCount d = estimate
  by_cases hle : d * tenTo estimate.toNat ≤ n * tenTo (-estimate).toNat
  · rw [if_pos hle, zpow_eq_div 10, div_le_div_iff₀ (by positivity) hd']
    rw [tenTo_eq, tenTo_eq] at hle
    have hrat : (d : ℚ) * 10 ^ estimate.toNat ≤ n * 10 ^ (-estimate).toNat := by exact_mod_cast hle
    linarith
  · rw [if_neg hle, ← he, le_div_iff₀ hd']
    -- the digits of numerator and denominator alone
    have hn' : (10 : ℚ) ^ Decimal.digitCount n ≤ 10 * n := by exact_mod_cast Decimal.pow_digitCount_le hn
    have hlow : (d : ℚ) ≤ 10 ^ Decimal.digitCount d := by exact_mod_cast (Decimal.lt_pow_digitCount d).le
    rw [zpow_sub₀ hten, zpow_sub₀ hten, zpow_natCast, zpow_natCast, zpow_one]
    calc (10 : ℚ) ^ Decimal.digitCount n / 10 ^ Decimal.digitCount d / 10 * d
        ≤ 10 ^ Decimal.digitCount n / 10 ^ Decimal.digitCount d / 10 * 10 ^ Decimal.digitCount d := by
          gcongr
      _ = 10 ^ Decimal.digitCount n / 10 := by field_simp
      _ ≤ n := by linarith

/-- A grid of seventeen digits is finer than the interval is wide. -/
private theorem grid_lt_width (hd : d.Regular) (hm : 0 < d.mantissa) {leading : Int}
    (h : (10 : ℚ) ^ leading ≤ d.magnitude) : (10 : ℚ) ^ (leading - 16) < d.high - d.low := by
  have hten : (10 : ℚ) ≠ 0 := by norm_num
  have hunit : (0 : ℚ) < 2 ^ (d.exponent - 2) := by positivity
  have hfine : (10 : ℚ) ^ (leading - 16) ≤ 4 * d.mantissa / 10 ^ 16 * 2 ^ (d.exponent - 2) := by
    rw [magnitude_eq_quarters] at h
    rw [zpow_sub₀ hten, div_mul_eq_mul_div]
    gcongr
    norm_num
  have hwidth : d.high - d.low = (4 * d.mantissa + 2 - d.interval.lower) * 2 ^ (d.exponent - 2) := by
    rw [Dyadic.high_eq, Dyadic.low, sub_mul]
    rfl
  rw [hwidth]
  refine hfine.trans_lt (mul_lt_mul_of_pos_right ?_ hunit)
  have hbound := hd.mantissa_lt
  rw [div_lt_iff₀ (by norm_num)]
  rcases d.lower_cases with ⟨hdense, _, hlower⟩ | ⟨_, hlower⟩
  · have hsum : d.interval.lower + 1 = 4 * d.mantissa := by omega
    have hsum' : (d.interval.lower : ℚ) + 1 = 4 * d.mantissa := by exact_mod_cast hsum
    have hdense' : (d.mantissa : ℚ) = 2 ^ 52 := by exact_mod_cast hdense
    norm_num [hdense'] at hsum' ⊢
    linarith
  · have hsum : d.interval.lower + 2 = 4 * d.mantissa := by omega
    have hsum' : (d.interval.lower : ℚ) + 2 = 4 * d.mantissa := by exact_mod_cast hsum
    have hbound' : (d.mantissa : ℚ) < 9007199254740992 := by exact_mod_cast hbound
    norm_num
    linarith

/-- The points of a grid next to a number. -/
private theorem floor_bounds (i : Interval) (grid : Int) :
    ∃ below : Nat, (i.candidate? grid = none → i.holds below grid = false ∧ i.holds (below + 1) grid = false) ∧
      below * (10 : ℚ) ^ grid ≤ i.value * 2 ^ i.exponent ∧
        i.value * 2 ^ i.exponent < (below + 1 : Nat) * (10 : ℚ) ^ grid := by
  let n := i.value * twoTo i.exponent.toNat * tenTo (-grid).toNat
  let q := twoTo (-i.exponent).toNat * tenTo grid.toNat
  have hq : 0 < q := Nat.mul_pos (Nat.pow_pos (by norm_num)) (Nat.pow_pos (by norm_num))
  refine ⟨n / q, fun hnone => ?_, ?_, ?_⟩
  · unfold Interval.candidate? at hnone
    dsimp only at hnone
    split at hnone
    · cases hnone
    · cases hnone
    · cases hnone
    · next hbelow habove => exact ⟨hbelow, habove⟩
  · rw [← not_lt, lt_point_iff, not_lt]
    calc n / q * tenTo grid.toNat * twoTo (-i.exponent).toNat = n / q * q := by ring
      _ ≤ n := Nat.div_mul_le_self n q
      _ = i.value * (tenTo (-grid).toNat * twoTo i.exponent.toNat) := by ring
  · rw [lt_point_iff]
    calc i.value * (tenTo (-grid).toNat * twoTo i.exponent.toNat) = n := by ring
      _ < (n / q + 1) * q := Nat.lt_mul_of_div_lt (Nat.lt_succ_self _) hq
      _ = (n / q + 1) * tenTo grid.toNat * twoTo (-i.exponent).toNat := by ring

/-- One of the two points of a fine grid around a double lies in its interval. -/
private theorem candidate?_ne_none (hm : 0 < d.mantissa) {grid : Int}
    (h : (10 : ℚ) ^ grid < d.high - d.low) : d.interval.candidate? grid ≠ none := by
  intro hnone
  obtain ⟨below, hholds, hfloor, hceil⟩ := floor_bounds d.interval grid
  obtain ⟨hbelow, habove⟩ := hholds hnone
  have hvalue : (d.interval.value : ℚ) * 2 ^ d.interval.exponent = d.magnitude := by
    rw [magnitude_eq_quarters]
    simp [Dyadic.interval]
  rw [hvalue] at hfloor hceil
  have hlow := Dyadic.low_lt_magnitude hm
  have hhigh := d.magnitude_lt_high
  rcases lt_or_ge d.low (below * (10 : ℚ) ^ grid) with hin | hout
  · exact Bool.false_ne_true (hbelow.symm.trans (Interval.holds_of_between hin (hfloor.trans_lt hhigh)))
  · have hnext : ((below + 1 : Nat) : ℚ) * 10 ^ grid < d.high := by
      push_cast
      linarith
    exact Bool.false_ne_true (habove.symm.trans (Interval.holds_of_between (hlow.trans hceil) hnext))

/-- Trailing zeros are worth as much in the exponent. -/
private theorem dropZeros_size (fuel c : Nat) (e : Int) :
    ((dropZeros fuel (c, e)).1 : ℚ) * 10 ^ (dropZeros fuel (c, e)).2 = c * 10 ^ e := by
  induction fuel generalizing c e with
  | zero => rfl
  | succ fuel ih =>
    simp only [dropZeros]
    split
    · next hzero =>
      have hten : c = 10 * (c / 10) := by omega
      have hcast : (c : ℚ) = 10 * (c / 10 : Nat) := by exact_mod_cast hten
      rw [ih, zpow_add₀ (by norm_num), zpow_one, hcast]
      ring
    · rfl

/-- The decimal that a double stands for lies in the interval of the double. -/
theorem Dyadic.Regular.abs_shortest_bounds (hd : d.Regular) :
    d.low ≤ |d.shortest.value| ∧ |d.shortest.value| ≤ d.high := by
  rw [Decimal.abs_value]
  unfold Dyadic.shortest
  split
  · next hzero =>
    have hcases := d.lower_cases
    have hlower : d.interval.lower = 0 := by omega
    rw [Dyadic.low, hlower]
    have hhigh := d.magnitude_nonneg.trans_lt d.magnitude_lt_high
    simpa using hhigh.le
  · next hm =>
    have hpos := Nat.pos_of_ne_zero hm
    have hnumerator : 0 < d.fraction.1 := Nat.mul_pos hpos (Nat.pow_pos (by norm_num))
    have hdenominator : 0 < d.fraction.2 := Nat.pow_pos (by norm_num)
    have hlead := pow_decimalExponent_le hnumerator hdenominator
    rw [Dyadic.fraction_eq] at hlead
    generalize decimalExponent d.fraction.1 d.fraction.2 = leading at hlead ⊢
    have hgrid : d.interval.candidate? (leading + 1 - (1 + 16 : Nat)) ≠ none := by
      refine candidate?_ne_none hpos ?_
      have hsixteen : leading + 1 - (1 + 16 : Nat) = leading - 16 := by omega
      rw [hsixteen]
      exact grid_lt_width hd hpos hlead
    have hle : d.interval.lower ≤ d.interval.upper := by
      simp only [Dyadic.interval]
      omega
    have hsearch := Interval.bounds_of_holds hle (holds_search 17 1 (by norm_num) hgrid)
    rwa [← dropZeros_size 20] at hsearch

theorem Dyadic.Regular.covers_shortest (hd : d.Regular) : d.Covers d.shortest.value := by
  have hbounds := hd.abs_shortest_bounds
  have hnegative : d.shortest.negative = d.negative := by
    unfold Dyadic.shortest
    split <;> rfl
  unfold Dyadic.Covers
  rw [Decimal.abs_value] at hbounds
  rw [Decimal.value, Decimal.signed, hnegative]
  cases d.negative <;> simpa using hbounds

/-! ## Numbers of few digits -/

/-- Numbers of few digits are far apart for their size. -/
private theorem lt_gap {m n k : Nat} {e f : Int} (hm : m < 10 ^ k) (hn : n < 10 ^ k)
    (h : (n : ℚ) * 10 ^ f < m * 10 ^ e) :
    (n : ℚ) * 10 ^ f < (m * 10 ^ e - n * 10 ^ f) * 10 ^ k := by
  have hten : (10 : ℚ) ≠ 0 := by norm_num
  have hm' : (m : ℚ) < 10 ^ k := by exact_mod_cast hm
  have hn' : (n : ℚ) < 10 ^ k := by exact_mod_cast hn
  rcases le_total f e with hle | hle
  · -- both are whole multiples of the second unit
    obtain ⟨j, hj⟩ := Int.eq_ofNat_of_zero_le (by omega : 0 ≤ e - f)
    have hexponent : e = f + j := by omega
    rw [hexponent, zpow_add₀ hten, zpow_natCast] at h ⊢
    have hunit : (0 : ℚ) < 10 ^ f := by positivity
    have hlt : (n : ℚ) < m * 10 ^ j := by
      refine lt_of_mul_lt_mul_right ?_ hunit.le
      linarith
    have hstep : n + 1 ≤ m * 10 ^ j := by exact_mod_cast hlt
    have hstep' : (n : ℚ) + 1 ≤ m * 10 ^ j := by exact_mod_cast hstep
    calc (n : ℚ) * 10 ^ f < 1 * 10 ^ f * 10 ^ k := by
          rw [one_mul, mul_comm]
          gcongr
      _ ≤ (m * 10 ^ j - n) * 10 ^ f * 10 ^ k := by
          gcongr
          linarith
      _ = (m * (10 ^ f * 10 ^ j) - n * 10 ^ f) * 10 ^ k := by ring
  · obtain ⟨j, hj⟩ := Int.eq_ofNat_of_zero_le (by omega : 0 ≤ f - e)
    have hexponent : f = e + j := by omega
    rw [hexponent, zpow_add₀ hten, zpow_natCast] at h ⊢
    have hunit : (0 : ℚ) < 10 ^ e := by positivity
    have hlt : (n : ℚ) * 10 ^ j < m := by
      refine lt_of_mul_lt_mul_right ?_ hunit.le
      linarith
    have hstep : n * 10 ^ j + 1 ≤ m := by exact_mod_cast hlt
    have hstep' : (n : ℚ) * 10 ^ j + 1 ≤ m := by exact_mod_cast hstep
    calc (n : ℚ) * (10 ^ e * 10 ^ j) < m * 10 ^ e := h
      _ < 1 * 10 ^ e * 10 ^ k := by
          rw [one_mul, mul_comm]
          gcongr
      _ ≤ (m - n * 10 ^ j) * 10 ^ e * 10 ^ k := by
          gcongr
          linarith
      _ = (m * 10 ^ e - n * (10 ^ e * 10 ^ j)) * 10 ^ k := by ring

/-- Doubles with a mantissa that is not full are tiny. -/
private theorem full_of_le_high (hd : d.Regular) (h : 1 / 200 ≤ d.high) : 2 ^ 52 ≤ d.mantissa := by
  by_contra hm
  have hle : 4 * d.mantissa + 2 ≤ 2 ^ 54 := by omega
  have hle' : (4 * d.mantissa + 2 : ℚ) ≤ 2 ^ 54 := by exact_mod_cast hle
  have hexponent := hd.full.resolve_left hm
  have hhigh : d.high ≤ 2 ^ 54 * 2 ^ (-62 : ℤ) := by
    rw [Dyadic.high_eq, hexponent]
    have hpow : (2 : ℚ) ^ (-1074 - 2 : ℤ) ≤ 2 ^ (-62 : ℤ) := zpow_le_zpow_right₀ (by norm_num) (by norm_num)
    gcongr
  norm_num at hhigh
  linarith

theorem Dyadic.Covers.of_pos (h : d.Covers v) (hpos : 0 < v) :
    d.negative = false ∧ d.low ≤ v ∧ v ≤ d.high := by
  have hnonneg := d.low_nonneg
  unfold Dyadic.Covers at h
  split at h
  · linarith
  · next hunsigned => exact ⟨eq_false_of_ne_true hunsigned, h⟩

theorem Dyadic.Covers.value_ne_zero (hd : d.Regular) (h : d.Covers v) (hlarge : 1 / 200 ≤ v) :
    d.value ≠ 0 := by
  obtain ⟨hunsigned, _, hhigh⟩ := h.of_pos (by linarith)
  have hfull := full_of_le_high hd (hlarge.trans hhigh)
  rw [Dyadic.value, if_neg (by simp [hunsigned])]
  exact (Dyadic.magnitude_pos (by omega)).ne'

/-- Two numbers of fifteen digits do not round to the same double, unless it is tiny. -/
theorem Dyadic.Covers.le_of_few_digits {m n : Decimal} (hd : d.Regular) (hm : d.Covers m.value)
    (hn : d.Covers n.value) (hm15 : m.coefficient < 10 ^ 15) (hn15 : n.coefficient < 10 ^ 15)
    (hlarge : 1 / 200 ≤ m.value) : m.value ≤ n.value := by
  by_contra hlt
  rw [not_le] at hlt
  have hnonneg := d.low_nonneg
  obtain ⟨hunsigned, hm⟩ := hm.of_pos (by linarith)
  rw [Dyadic.Covers, if_neg (by simp [hunsigned])] at hn
  have hgap : n.value < (m.value - n.value) * 10 ^ 15 := by
    have hm' : m.value = m.coefficient * 10 ^ m.exponent := by
      rw [← Decimal.abs_value, abs_of_nonneg (by linarith)]
    have hn' : n.value = n.coefficient * 10 ^ n.exponent := by
      rw [← Decimal.abs_value, abs_of_nonneg (by linarith)]
    rw [hm', hn'] at hlt ⊢
    exact lt_gap hm15 hn15 hlt
  -- the numbers are at most one place apart, and the double has more than fifteen digits
  have hfull := full_of_le_high hd (hlarge.trans hm.2)
  have hlower : 4 * d.mantissa ≤ d.interval.lower + 2 := by
    have hcases := d.lower_cases
    omega
  have hfull' : (2 : ℚ) ^ 52 ≤ d.mantissa := by exact_mod_cast hfull
  have hlower' : 4 * (d.mantissa : ℚ) ≤ d.interval.lower + 2 := by exact_mod_cast hlower
  have hunit : (0 : ℚ) < 2 ^ (d.exponent - 2) := by positivity
  have hlow : (4 * d.mantissa - 2 : ℚ) * 2 ^ (d.exponent - 2) ≤ d.low := by
    have hends : (4 * d.mantissa - 2 : ℚ) ≤ d.interval.lower := by linarith
    exact mul_le_mul_of_nonneg_right hends hunit.le
  have hhigh := d.high_eq
  generalize (2 : ℚ) ^ (d.exponent - 2) = unit at hunit hlow hhigh
  have hwidth : m.value - n.value ≤ 4 * unit := by linarith
  have hsize : (4 * 2 ^ 52 - 2) * unit ≤ n.value := by
    calc (4 * 2 ^ 52 - 2) * unit ≤ (4 * d.mantissa - 2) * unit := by gcongr
      _ ≤ d.low := hlow
      _ ≤ n.value := hn.1
  norm_num at hsize hgap
  linarith

end PortfolioLab.Binary64
