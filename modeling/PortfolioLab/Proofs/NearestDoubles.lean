import PortfolioLab.Money.Conversion
import PortfolioLab.Proofs.RoundingIntervals
import PortfolioLab.Schedule.Table

/-!
# Numbers read as doubles

A fraction, an integer and a decimal are read as the double in whose interval they lie, or as infinity
where there is none. So a cell of a table that can be read both as a double and as a decimal has its
decimal in the interval of its double, whatever kind of cell it is.
-/

namespace PortfolioLab.Binary64

variable {x : Float} {d : Dyadic} {v : ℚ}

/-- A number rounds to a double if it lies in the interval of the double; the largest ones round to
infinity. -/
def Rounds (v : ℚ) (x : Float) : Prop := x.isInf ∨ ∃ d, decode? x = some d ∧ d.Covers v

theorem Rounds.neg (h : Rounds v x) : Rounds (-v) (-x) := by
  rcases h with hinf | ⟨d, hd, hcovers⟩
  · exact .inl (isInf_neg hinf)
  · exact .inr ⟨d.neg, decode?_neg hd, hcovers.neg⟩

/-! ## Rounded mantissas -/

theorem Dyadic.covers_of_near (hsign : d.negative = false) (hnonneg : 0 ≤ v)
    (hnear : |v / 2 ^ d.exponent - d.mantissa| ≤ 1 / 2)
    (hdense : d.mantissa = 2 ^ 52 → -1074 < d.exponent →
      (d.mantissa - 1 / 4 : ℚ) ≤ v / 2 ^ d.exponent) : d.Covers v := by
  have hplace : (0 : ℚ) < 2 ^ d.exponent := by positivity
  have hquarter : (0 : ℚ) < 2 ^ (d.exponent - 2) := by positivity
  have hv : v = 4 * (v / 2 ^ d.exponent) * 2 ^ (d.exponent - 2) := by
    rw [zpow_sub₀ (by norm_num)]
    field_simp
    norm_num
  have hquotient : 0 ≤ v / 2 ^ d.exponent := by positivity
  obtain ⟨hbelow, habove⟩ := abs_le.mp hnear
  generalize v / 2 ^ d.exponent = q at hv hquotient hbelow habove hdense
  have hlower : (d.interval.lower : ℚ) ≤ 4 * q := by
    rcases d.lower_cases with ⟨hm, he, hlower⟩ | ⟨_, hlower⟩
    · have hsum : d.interval.lower + 1 = 4 * d.mantissa := by omega
      have hsum' : (d.interval.lower : ℚ) + 1 = 4 * d.mantissa := by exact_mod_cast hsum
      have hends := hdense hm he
      linarith
    · rcases Nat.eq_zero_or_pos d.mantissa with hm | hm
      · rw [hlower, hm]
        simpa using hquotient
      · have hsum : d.interval.lower + 2 = 4 * d.mantissa := by omega
        have hsum' : (d.interval.lower : ℚ) + 2 = 4 * d.mantissa := by exact_mod_cast hsum
        linarith
  rw [Dyadic.Covers, hsign, high_eq, hv]
  refine ⟨mul_le_mul_of_nonneg_right hlower hquarter.le, mul_le_mul_of_nonneg_right ?_ hquarter.le⟩
  linarith

theorem decode?_ofMantissa {mantissa : Nat} {exponent : Int} (hleast : -1074 ≤ exponent)
    (hm : mantissa ≤ 2 ^ 53) (hfull : 2 ^ 52 ≤ mantissa ∨ exponent = -1074) :
    (ofMantissa mantissa exponent).isInf ∨ ∃ d, decode? (ofMantissa mantissa exponent) = some d ∧
      d.negative = false ∧ (d.mantissa = mantissa ∧ d.exponent = exponent ∨
        mantissa = 2 ^ 53 ∧ d.mantissa = 2 ^ 52 ∧ d.exponent = exponent + 1) := by
  obtain ⟨n, hn⟩ := Int.eq_ofNat_of_zero_le (by omega : 0 ≤ exponent + 1074)
  have hword : ofMantissa mantissa exponent =
      Float.ofBits (min (mantissa + n * 2 ^ 52) (2047 * 2 ^ 52)).toUInt64 := by
    rw [ofMantissa, hn]
    rfl
  rw [hword]
  rcases Nat.lt_or_ge (mantissa + n * 2 ^ 52) (2047 * 2 ^ 52) with hlt | hge
  · right
    rw [min_eq_left hlt.le]
    have hread : ∀ d : Dyadic, d.Regular → d.word = mantissa + n * 2 ^ 52 →
        decode? (Float.ofBits (mantissa + n * 2 ^ 52).toUInt64) = some d := by
      intro d hd hd'
      refine decode?_ofBits ?_
      rw [← hd', UInt64.toNat_ofNat_of_lt' hd.word_lt, decodeWord_word hd]
    rcases hm.lt_or_eq with hless | heq
    · refine ⟨⟨false, mantissa, exponent⟩, hread _ ⟨hless, hleast, by dsimp only; omega, hfull⟩ ?_, rfl,
        .inl ⟨rfl, rfl⟩⟩
      simp [Dyadic.word, hn]
    · refine ⟨⟨false, 2 ^ 52, exponent + 1⟩, hread _ ⟨by norm_num, by dsimp only; omega,
        by dsimp only; omega, .inl le_rfl⟩ ?_, rfl, .inr ⟨heq, rfl, rfl⟩⟩
      simp [Dyadic.word]
      omega
  · left
    rw [min_eq_right hge]
    decide +kernel

/-- The double made from a rounded mantissa is the one that the number rounds to. -/
theorem rounds_ofMantissa {mantissa : Nat} {exponent : Int} (hnonneg : 0 ≤ v)
    (hleast : -1074 ≤ exponent) (hm : mantissa ≤ 2 ^ 53)
    (hfull : exponent = -1074 ∨ 2 ^ 52 ≤ v / 2 ^ exponent)
    (hnear : |v / 2 ^ exponent - mantissa| ≤ 1 / 2) : Rounds v (ofMantissa mantissa exponent) := by
  have hplace : (0 : ℚ) < 2 ^ exponent := by positivity
  obtain ⟨hbelow, habove⟩ := abs_le.mp hnear
  have hfull' : 2 ^ 52 ≤ mantissa ∨ exponent = -1074 := by
    rcases hfull with hmin | hfull
    · exact .inr hmin
    · left
      by_contra hlow
      have hstep : mantissa + 1 ≤ 2 ^ 52 := by omega
      have hstep' : (mantissa : ℚ) + 1 ≤ 2 ^ 52 := by exact_mod_cast hstep
      linarith
  rcases decode?_ofMantissa hleast hm hfull' with hinf | ⟨d, hd, hsign, ⟨hm', he'⟩ | ⟨hcarry, hm', he'⟩⟩
  · exact .inl hinf
  · refine .inr ⟨d, hd, Dyadic.covers_of_near hsign hnonneg (by rwa [hm', he']) fun hdense hmore => ?_⟩
    have hreal : (d.mantissa : ℚ) = 2 ^ 52 := by exact_mod_cast hdense
    have hlarge := hfull.resolve_left (by omega)
    rw [hreal, he']
    linarith
  · -- the mantissa was rounded up to the next power of two
    have hreal : (mantissa : ℚ) = 2 ^ 53 := by exact_mod_cast hcarry
    have hhalf : v / 2 ^ d.exponent = v / 2 ^ exponent / 2 := by
      rw [he', zpow_add₀ (by norm_num), zpow_one, div_mul_eq_div_div]
    have hpower : (d.mantissa : ℚ) = 2 ^ 52 := by exact_mod_cast hm'
    rw [hreal] at hbelow habove
    refine .inr ⟨d, hd, Dyadic.covers_of_near hsign hnonneg ?_ fun _ _ => ?_⟩
    · rw [hhalf, hpower, abs_le]
      constructor <;> linarith
    · rw [hhalf, hpower]
      linarith

/-! ## Fractions -/

private theorem zpow_le_div_iff (k : Nat) (e : Int) {n d : Nat} (hd : 0 < d) :
    (2 : ℚ) ^ (e + k) ≤ n / d ↔ twoTo k * (d * twoTo e.toNat) ≤ n * twoTo (-e).toNat := by
  have hd' : (0 : ℚ) < d := by exact_mod_cast hd
  rw [zpow_add₀ (by norm_num), zpow_natCast, zpow_eq_div 2 e, div_mul_eq_mul_div,
    div_le_div_iff₀ (by positivity) hd', ← Nat.cast_le (α := ℚ)]
  simp only [twoTo_eq]
  push_cast
  constructor <;> intro h <;> linarith

/-- The exponent at which a fraction has a mantissa of 53 bits. -/
def fittedExponent (n d : Nat) : Int :=
  let estimate : Int := (n.log2 : Int) - (d.log2 : Int) - 52
  let tooWide : Bool := twoTo 53 * (d * twoTo estimate.toNat) ≤ n * twoTo (-estimate).toNat
  let tooNarrow : Bool := n * twoTo (-estimate).toNat < twoTo 52 * (d * twoTo estimate.toNat)
  if tooWide then estimate + 1 else if tooNarrow then estimate - 1 else estimate

/-- The binary digits of numerator and denominator tell the exponent up to one. -/
private theorem log2_bounds {n d : Nat} (hn : 0 < n) (hd : 0 < d) :
    (2 : ℚ) ^ ((n.log2 : Int) - d.log2 - 1) ≤ n / d ∧ (n : ℚ) / d < 2 ^ ((n.log2 : Int) - d.log2 + 1) := by
  have htwo : (2 : ℚ) ≠ 0 := by norm_num
  have hd' : (0 : ℚ) < d := by exact_mod_cast hd
  have hnlow : (2 : ℚ) ^ n.log2 ≤ n := by exact_mod_cast Nat.log2_self_le hn.ne'
  have hnhigh : (n : ℚ) < 2 ^ (n.log2 + 1) := by exact_mod_cast Nat.lt_log2_self
  have hdlow : (2 : ℚ) ^ d.log2 ≤ d := by exact_mod_cast Nat.log2_self_le hd.ne'
  have hdhigh : (d : ℚ) < 2 ^ (d.log2 + 1) := by exact_mod_cast Nat.lt_log2_self
  constructor
  · rw [le_div_iff₀ hd', sub_sub, zpow_sub₀ htwo, zpow_natCast]
    calc (2 : ℚ) ^ n.log2 / 2 ^ ((d.log2 : Int) + 1) * d
        ≤ 2 ^ n.log2 / 2 ^ ((d.log2 : Int) + 1) * 2 ^ (d.log2 + 1) := by gcongr
      _ = 2 ^ n.log2 := by
        rw [← Nat.cast_succ, zpow_natCast]
        field_simp
      _ ≤ n := hnlow
  · rw [div_lt_iff₀ hd', sub_add_eq_add_sub, zpow_sub₀ htwo, ← Nat.cast_succ, zpow_natCast, zpow_natCast]
    calc (n : ℚ) < 2 ^ (n.log2 + 1) := hnhigh
      _ = 2 ^ (n.log2 + 1) / 2 ^ d.log2 * 2 ^ d.log2 := by field_simp
      _ ≤ 2 ^ (n.log2 + 1) / 2 ^ d.log2 * d := by gcongr

theorem fittedExponent_bounds {n d : Nat} (hn : 0 < n) (hd : 0 < d) :
    (2 : ℚ) ^ (fittedExponent n d + 52) ≤ n / d ∧ (n : ℚ) / d < 2 ^ (fittedExponent n d + 53) := by
  obtain ⟨hlow, hhigh⟩ := log2_bounds hn hd
  unfold fittedExponent
  dsimp only
  generalize he : (n.log2 : Int) - (d.log2 : Int) - 52 = estimate
  have hlow' : (2 : ℚ) ^ (estimate - 1 + 52) ≤ n / d := by
    have hsum : estimate - 1 + 52 = (n.log2 : Int) - d.log2 - 1 := by omega
    rwa [hsum]
  have hhigh' : (n : ℚ) / d < 2 ^ (estimate + 53) := by
    have hsum : estimate + 53 = (n.log2 : Int) - d.log2 + 1 := by omega
    rwa [hsum]
  have hwide : ¬ twoTo 53 * (d * twoTo estimate.toNat) ≤ n * twoTo (-estimate).toNat := fun h =>
    hhigh'.not_ge ((zpow_le_div_iff 53 estimate hd).mpr h)
  rw [if_neg (by simpa using hwide)]
  split
  · next hnarrow =>
    have hless := mt (zpow_le_div_iff 52 estimate hd).mp (by simpa using hnarrow)
    refine ⟨hlow', ?_⟩
    have hsum : estimate - 1 + 53 = estimate + (52 : ℕ) := by norm_num; ring
    rw [hsum]
    exact not_le.mp hless
  · next hnarrow =>
    exact ⟨(zpow_le_div_iff 52 estimate hd).mpr (by simpa using hnarrow), hhigh'⟩

/-- The double made from a fraction is the one that the fraction rounds to. -/
theorem rounds_ofFraction {n d : Nat} (hn : 0 < n) (hd : 0 < d) : Rounds (n / d) (ofFraction n d) := by
  obtain ⟨hlow, hhigh⟩ := fittedExponent_bounds hn hd
  generalize he : max (fittedExponent n d) (-1074) = exponent
  generalize hnumerator : n * twoTo (-exponent).toNat = numerator
  generalize hdenominator : d * twoTo exponent.toNat = denominator
  have hmade : ofFraction n d = ofMantissa (divHalfEven numerator denominator).toNat exponent := by
    rw [ofFraction, if_neg (by omega), ← hnumerator, ← hdenominator, ← he]
    rfl
  have hpos : 0 < denominator := hdenominator ▸ Nat.mul_pos hd (Nat.pow_pos (by norm_num))
  have hpos' : (0 : ℚ) < denominator := by exact_mod_cast hpos
  have hquotient : (n / d : ℚ) / 2 ^ exponent = numerator / denominator := by
    rw [← hnumerator, ← hdenominator, zpow_eq_div 2 exponent, twoTo_eq, twoTo_eq]
    push_cast
    field_simp
  have hplace : (0 : ℚ) < 2 ^ exponent := by positivity
  have hless : (numerator : ℚ) < 2 ^ 53 * denominator := by
    have hpow : (2 : ℚ) ^ (fittedExponent n d + 53) ≤ 2 ^ (exponent + 53) :=
      zpow_le_zpow_right₀ (by norm_num) (by omega)
    have hquot : (n / d : ℚ) / 2 ^ exponent < 2 ^ 53 := by
      rw [div_lt_iff₀ hplace, mul_comm]
      rw [zpow_add₀ (by norm_num) exponent] at hpow
      exact hhigh.trans_le hpow
    rwa [hquotient, div_lt_iff₀ hpos'] at hquot
  have hround := isNearest_divHalfEven (numerator : Int) (d := denominator) (by exact_mod_cast hpos)
  have hnonneg := divHalfEven_nonneg (Int.natCast_nonneg numerator) (Int.natCast_nonneg denominator)
  have hle : divHalfEven (numerator : Int) denominator ≤ 2 ^ 53 :=
    divHalfEven_le (by exact_mod_cast hpos) (by exact_mod_cast hless.le)
  rw [hmade]
  refine rounds_ofMantissa (by positivity) (by omega) (by omega) ?_ ?_
  · rcases max_choice (fittedExponent n d) (-1074) with hfit | hleast
    · right
      rw [← he, hfit, le_div_iff₀ (by positivity), ← zpow_natCast, ← zpow_add₀ (by norm_num), add_comm]
      exact hlow
    · exact .inl (he.symm.trans hleast)
  · have hcast : (((divHalfEven (numerator : Int) denominator).toNat : ℕ) : ℚ) =
        divHalfEven (numerator : Int) denominator := by
      exact_mod_cast Int.toNat_of_nonneg hnonneg
    have hnear := hround.near
    rw [Int.cast_natCast, Int.cast_natCast] at hnear
    rwa [hquotient, hcast]

/-! ## Integers, decimals and texts -/

/-- Numbers of at most half the least double round to zero. -/
theorem rounds_zero (hnonneg : 0 ≤ v) (hsmall : v ≤ 2 ^ (-1075 : ℤ)) : Rounds v 0 := by
  refine .inr ⟨_, decode?_zero, Dyadic.covers_of_near rfl hnonneg ?_ fun hm _ => ?_⟩
  · have hhalf : (2 : ℚ) ^ (-1075 : ℤ) = 1 / 2 * 2 ^ (-1074 : ℤ) := by
      rw [show (-1075 : ℤ) = -1 + -1074 by norm_num, zpow_add₀ (by norm_num)]
      norm_num
    have hplace : (0 : ℚ) < 2 ^ (-1074 : ℤ) := by positivity
    rw [Nat.cast_zero, sub_zero, abs_of_nonneg (by positivity), div_le_iff₀ hplace, ← hhalf]
    exact hsmall
  · norm_num at hm

theorem rounds_ofInt (n : Int) : Rounds n (ofInt n) := by
  have hsize : Rounds |(n : ℚ)| (ofFraction n.natAbs 1) := by
    rcases Nat.eq_zero_or_pos n.natAbs with hzero | hpos
    · rw [Int.natAbs_eq_zero.mp hzero]
      simpa [ofFraction] using rounds_zero le_rfl (by positivity)
    · have h := rounds_ofFraction hpos Nat.one_pos
      rwa [Nat.cast_one, div_one, Nat.cast_natAbs, Int.cast_abs] at h
  unfold ofInt ofRatio
  by_cases hneg : n < 0
  · have hneg' : (n : ℚ) < 0 := by exact_mod_cast hneg
    have h := hsize.neg
    rw [abs_of_neg hneg', neg_neg] at h
    simpa [hneg] using h
  · have hnonneg : (0 : ℚ) ≤ n := by exact_mod_cast not_lt.mp hneg
    rw [abs_of_nonneg hnonneg] at hsize
    simpa [hneg] using hsize

def ofMagnitude (d : Decimal) : Float :=
  if d.coefficient = 0 then 0
  else if 400 < d.leadingExponent then 1 / 0
  else if d.leadingExponent < -400 then 0
  else ofFraction (d.coefficient * tenTo d.exponent.toNat) (tenTo (-d.exponent).toNat)

theorem ofDecimal_eq (d : Decimal) :
    ofDecimal d = if d.negative then -ofMagnitude d else ofMagnitude d := rfl

private theorem tiny_le : (10 : ℚ) ^ (-400 : ℤ) ≤ 2 ^ (-1075 : ℤ) := by
  rw [zpow_neg, zpow_neg, inv_le_inv₀ (by positivity) (by positivity)]
  calc (2 : ℚ) ^ (1075 : ℤ) ≤ 2 ^ (1200 : ℤ) := zpow_le_zpow_right₀ (by norm_num) (by norm_num)
    _ = (2 ^ (3 : ℤ)) ^ (400 : ℤ) := by
      rw [← zpow_mul]
      rfl
    _ ≤ 10 ^ (400 : ℤ) := zpow_le_zpow_left₀ (by norm_num) (by norm_num) (by norm_num)

private theorem rounds_ofMagnitude (d : Decimal) : Rounds |d.value| (ofMagnitude d) := by
  unfold ofMagnitude
  split
  · next hzero =>
    rw [Decimal.abs_value, hzero, Nat.cast_zero, zero_mul]
    exact rounds_zero le_rfl (by positivity)
  · next hc =>
    split
    · exact .inl (by decide +kernel)
    · split
      · next htiny =>
        have hless := mt (Decimal.zpow_le_abs_value_iff hc (-400)).mp (not_le.mpr htiny)
        exact rounds_zero (abs_nonneg _) ((not_le.mp hless).le.trans tiny_le)
      · have hnumerator : 0 < d.coefficient * tenTo d.exponent.toNat :=
          Nat.mul_pos (Nat.pos_of_ne_zero hc) (Nat.pow_pos (by norm_num))
        have hdenominator : 0 < tenTo (-d.exponent).toNat := Nat.pow_pos (by norm_num)
        have h := rounds_ofFraction hnumerator hdenominator
        rw [Decimal.abs_value, zpow_eq_div]
        simpa only [tenTo_eq, Nat.cast_mul, Nat.cast_pow, Nat.cast_ofNat, mul_div_assoc] using h

theorem rounds_ofDecimal (d : Decimal) : Rounds d.value (ofDecimal d) := by
  have h := rounds_ofMagnitude d
  rw [Decimal.abs_value] at h
  rw [ofDecimal_eq, Decimal.value, Decimal.signed]
  cases d.negative with
  | false => simpa using h
  | true => simpa using h.neg

end PortfolioLab.Binary64

namespace PortfolioLab

/-- The sign of a numeral is read apart from its digits. -/
private theorem Numeral.readUnsigned?_eq (negative : Bool) (cs : List Char) :
    readUnsigned? negative cs = (readUnsigned? false cs).map fun d => { d with negative } := by
  unfold readUnsigned?
  split
  · dsimp only
    split
    · rfl
    · rw [Option.map_map]
      rfl
  · rfl
  · rw [Option.map_map]
    rfl

private theorem Numeral.negative_of_readUnsigned? {negative : Bool} {cs : List Char} {d : Decimal}
    (h : readUnsigned? negative cs = some d) : d.negative = negative := by
  rw [readUnsigned?_eq] at h
  obtain ⟨_, _, rfl⟩ := Option.map_eq_some_iff.mp h
  rfl

private theorem Numeral.readName?_ne_finite (negative : Bool) (cs : List Char) (d : Decimal) :
    readName? negative cs ≠ some (.finite d) := by
  intro h
  unfold readName? at h
  dsimp only at h
  split at h
  · cases h
  · cases h
  · split at h <;> cases h
  · split at h <;> cases h
  · cases h

/-- A text that is read both as a double and as a decimal. -/
private theorem Binary64.rounds_ofText? {s : String} {x : Float} {d : Decimal} (hx : ofText? s = some x)
    (hd : Numeral.ofText? s = some (.finite d)) : Rounds d.value x := by
  unfold ofText? at hx
  unfold Numeral.ofText? at hd
  dsimp only at hx hd
  generalize Numeral.splitSign ((Text.trimBlanks s.toList).filter (· != '_')) = parts at hx hd
  obtain ⟨negative, body⟩ := parts
  dsimp only at hx hd
  rw [Numeral.readUnsigned?_eq] at hd
  split at hx
  · cases hx
  · cases hunsigned : Numeral.readUnsigned? false body with
    | none =>
      rw [hunsigned] at hd
      exact absurd hd (Numeral.readName?_ne_finite _ _ _)
    | some magnitude =>
      rw [hunsigned] at hx hd
      dsimp only [Option.map_some] at hx hd
      split at hd
      · cases hx
        cases hd
        have h := rounds_ofDecimal magnitude
        have hunsigned := Numeral.negative_of_readUnsigned? hunsigned
        cases negative with
        | false => simpa [Decimal.value, Decimal.signed, hunsigned] using h
        | true => simpa [Decimal.value, Decimal.signed, hunsigned] using h.neg
      · cases hd

namespace Value

open Binary64 (Rounds)

variable {v : Value} {x : Float} {d : Decimal}

/-- Read as a double, a cell is the one that its decimal rounds to. -/
theorem rounds_cellNumber (hx : v.cellNumber = .ok x) (hd : Money.decimalOf v = .ok d) :
    Rounds d.value x := by
  cases v with
  | null => cases hd
  | bool b =>
    cases hx
    cases hd
    have h := Binary64.rounds_ofInt (if b then 1 else 0)
    rw [Decimal.value_ofInt]
    cases b
    · have hzero : Binary64.ofInt 0 = 0 := by decide +kernel
      simpa [hzero] using h
    · have hone : Binary64.ofInt 1 = 1 := by decide +kernel
      simpa [hone] using h
  | int n =>
    cases hx
    cases hd
    rw [Decimal.value_ofInt]
    exact Binary64.rounds_ofInt n
  | real y =>
    cases hx
    simp only [Money.decimalOf] at hd
    split at hd
    · next hshortest =>
      cases hd
      obtain ⟨dyadic, hdecode, rfl⟩ := Option.map_eq_some_iff.mp hshortest
      exact .inr ⟨dyadic, hdecode, (Binary64.regular_of_decode? hdecode).covers_shortest⟩
    · cases hd
  | decimal n =>
    cases n with
    | finite d =>
      cases hx
      cases hd
      exact Binary64.rounds_ofDecimal d
    | infinite negative => cases hd
    | notANumber negative signaling payload => cases hd
  | text s =>
    simp only [cellNumber] at hx
    simp only [Money.decimalOf] at hd
    split at hx
    · next hread =>
      cases hx
      split at hd
      · next hdecimal =>
        cases hd
        exact Binary64.rounds_ofText? hread hdecimal
      · cases hd
      · cases hd
    · cases hx
  | list items => cases hd
  | table entries => cases hd

end Value
end PortfolioLab
