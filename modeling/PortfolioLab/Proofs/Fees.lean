import PortfolioLab.Portfolio.Cost
import PortfolioLab.Proofs.NearestQuotients

/-!
# Fees

Commission and slippage are shares of the value of a trade, each rounded to a cent. Rounding keeps the order
of the values, and so do the sum of the two and the minimum fee, which is charged where the sum is less: a
trade of larger value has no smaller fee. Two roundings move the fee by no more than a cent.
-/

namespace PortfolioLab.CostModel

variable {m : CostModel} {fee : Cents}

/-! ## Rates -/

theorem isNearest_rateOf (gross : Int) (bps : Nat) :
    IsNearest ((gross : ℚ) * bps / 10000) (rateOf gross bps) := by
  have hnear := isNearest_divHalfEven (gross * bps) (by norm_num : (0 : ℤ) < 10000)
  push_cast at hnear
  exact hnear

theorem rateOf_nonneg {gross : Int} (h : 0 ≤ gross) (bps : Nat) : 0 ≤ rateOf gross bps :=
  divHalfEven_nonneg (mul_nonneg h (Int.natCast_nonneg bps)) (by norm_num)

theorem rateOf_mono {gross gross' : Int} (h : gross ≤ gross') (bps : Nat) :
    rateOf gross bps ≤ rateOf gross' bps :=
  divHalfEven_mono (by norm_num) (mul_le_mul_of_nonneg_right h (Int.natCast_nonneg bps))

/-! ## The parts of a fee -/

theorem partsOf_of_ne_zero {gross : Int} (h : gross ≠ 0) :
    m.partsOf gross = ⟨rateOf gross m.commission, rateOf gross m.slippage,
      max (m.minimumFee - rateOf gross m.commission - rateOf gross m.slippage) 0⟩ := if_neg h

/-- The whole fee is commission and slippage, and at least the minimum. -/
theorem total_partsOf {gross : Int} (h : gross ≠ 0) : (m.partsOf gross).total =
    max (m.minimumFee : Int) (rateOf gross m.commission + rateOf gross m.slippage) := by
  rw [partsOf_of_ne_zero h, CostBreakdown.total]
  dsimp only
  omega

theorem total_partsOf_nonneg {gross : Int} : 0 ≤ (m.partsOf gross).total := by
  by_cases h : gross = 0
  · simp [partsOf, h, CostBreakdown.total]
  · rw [total_partsOf h]
    exact le_max_of_le_left (Int.natCast_nonneg _)

theorem total_partsOf_mono {gross gross' : Int} (h : 0 ≤ gross) (hle : gross ≤ gross') :
    (m.partsOf gross).total ≤ (m.partsOf gross').total := by
  rcases h.eq_or_lt with rfl | hpos
  · exact total_partsOf_nonneg
  · rw [total_partsOf hpos.ne', total_partsOf (hpos.trans_le hle).ne']
    exact max_le_max le_rfl (add_le_add (rateOf_mono hle _) (rateOf_mono hle _))

/-- Two roundings are half a cent off each. -/
theorem abs_rates_sub_le (gross : Int) :
    |((rateOf gross m.commission + rateOf gross m.slippage : ℤ) : ℚ) - gross * m.totalRate / 10000| ≤ 1 := by
  have hcommission := (isNearest_rateOf gross m.commission).near
  have hslippage := (isNearest_rateOf gross m.slippage).near
  have hsplit : ((rateOf gross m.commission + rateOf gross m.slippage : ℤ) : ℚ) -
      gross * m.totalRate / 10000 = -((gross : ℚ) * m.commission / 10000 - rateOf gross m.commission +
        ((gross : ℚ) * m.slippage / 10000 - rateOf gross m.slippage)) := by
    rw [totalRate]
    push_cast
    ring
  rw [hsplit, abs_neg]
  calc |(gross : ℚ) * m.commission / 10000 - rateOf gross m.commission +
        ((gross : ℚ) * m.slippage / 10000 - rateOf gross m.slippage)|
      ≤ |(gross : ℚ) * m.commission / 10000 - rateOf gross m.commission| +
        |(gross : ℚ) * m.slippage / 10000 - rateOf gross m.slippage| := abs_add_le _ _
    _ ≤ 1 / 2 + 1 / 2 := add_le_add hcommission hslippage
    _ = 1 := by norm_num

/-! ## The fee of a trade -/

theorem breakdown_of_inRange {notional : Int} (h : Cents.InRange notional) :
    m.breakdown notional = .ok (m.partsOf |notional|) := by
  rw [← Int.natCast_natAbs, breakdown, Cents.check_of_inRange h]
  rfl

theorem fee_of_inRange {notional : Int} (h : Cents.InRange notional) :
    m.fee notional = Cents.check (m.partsOf |notional|).total := by
  rw [CostModel.fee, breakdown_of_inRange h]
  rfl

theorem fee_eq_ok_iff {notional : Int} : m.fee notional = .ok fee ↔
    Cents.InRange notional ∧ Cents.InRange fee ∧ fee = (m.partsOf |notional|).total := by
  constructor
  · intro h
    obtain ⟨parts, hparts, _⟩ := bind_eq_ok.mp h
    obtain ⟨amount, hamount, _⟩ := bind_eq_ok.mp hparts
    have hrange := (Cents.eq_of_check hamount).2
    rw [fee_of_inRange hrange] at h
    obtain ⟨rfl, hfee⟩ := Cents.eq_of_check h
    exact ⟨hrange, hfee, rfl⟩
  · rintro ⟨hrange, hfee, rfl⟩
    rw [fee_of_inRange hrange]
    exact Cents.check_of_inRange hfee

/-- A trade of smaller value has a fee too, and none that is larger. -/
theorem exists_fee_le_of_abs_le {notional notional' : Int} (h : m.fee notional = .ok fee)
    (hrange : Cents.InRange notional') (hle : |notional'| ≤ |notional|) :
    ∃ part, m.fee notional' = .ok part ∧ 0 ≤ part ∧ part ≤ fee := by
  obtain ⟨_, hfee, rfl⟩ := fee_eq_ok_iff.mp h
  have hpart : (m.partsOf |notional'|).total ≤ (m.partsOf |notional|).total :=
    total_partsOf_mono (abs_nonneg _) hle
  refine ⟨_, fee_eq_ok_iff.mpr ⟨hrange, ?_, rfl⟩, total_partsOf_nonneg, hpart⟩
  exact ⟨le_trans (by decide) total_partsOf_nonneg, hpart.trans hfee.2⟩

theorem exists_fee_le {notional notional' : Int} (h : m.fee notional = .ok fee) (hpos : 0 ≤ notional')
    (hle : notional' ≤ notional) : ∃ part, m.fee notional' = .ok part ∧ 0 ≤ part ∧ part ≤ fee := by
  refine exists_fee_le_of_abs_le h ?_ (by rwa [abs_of_nonneg hpos, abs_of_nonneg (hpos.trans hle)])
  exact ⟨le_trans (by decide) hpos, hle.trans (fee_eq_ok_iff.mp h).1.2⟩

theorem fee_nonneg {notional : Int} (h : m.fee notional = .ok fee) : 0 ≤ fee := by
  obtain ⟨_, _, rfl⟩ := fee_eq_ok_iff.mp h
  exact total_partsOf_nonneg

theorem minimumFee_le {notional : Int} (h : m.fee notional = .ok fee) (hne : notional ≠ 0) :
    (m.minimumFee : Int) ≤ fee := by
  obtain ⟨_, _, rfl⟩ := fee_eq_ok_iff.mp h
  rw [total_partsOf (abs_ne_zero.mpr hne)]
  exact le_max_left _ _

/-- A trade has no larger fee than one of larger value, and the same fee as the opposite trade. The parts of
the fee are not negative and make up commission and slippage, or the minimum fee if that is more. Commission
and slippage are the nearest cents to their shares of the value, so their sum is within a cent of the share
by both rates. -/
theorem fee_monotone_by_parts (m : CostModel) {notional : Int} (h : Cents.InRange notional) :
    (∀ larger fee, |notional| ≤ |larger| → m.fee larger = .ok fee →
      ∃ part, m.fee notional = .ok part ∧ part ≤ fee) ∧
    (Cents.InRange (-notional) → m.fee (-notional) = m.fee notional) ∧
    (notional ≠ 0 → ∃ parts, m.breakdown notional = .ok parts ∧ m.fee notional = Cents.check parts.total ∧
      0 ≤ parts.commission ∧ 0 ≤ parts.slippage ∧ 0 ≤ parts.topUp ∧
      parts.total = max (m.minimumFee : Int) (parts.commission + parts.slippage) ∧
      IsNearest (((|notional| : ℤ) : ℚ) * m.commission / 10000) parts.commission ∧
      IsNearest (((|notional| : ℤ) : ℚ) * m.slippage / 10000) parts.slippage ∧
      |((parts.commission + parts.slippage : ℤ) : ℚ) -
        ((|notional| : ℤ) : ℚ) * m.totalRate / 10000| ≤ 1) := by
  refine ⟨fun larger fee hle hfee => ?_, fun hneg => ?_, fun hne => ?_⟩
  · obtain ⟨part, hpart, _, hless⟩ := exists_fee_le_of_abs_le hfee h hle
    exact ⟨part, hpart, hless⟩
  · rw [fee_of_inRange hneg, fee_of_inRange h, abs_neg]
  · have hgross := abs_ne_zero.mpr hne
    refine ⟨_, breakdown_of_inRange h, fee_of_inRange h, ?_⟩
    rw [total_partsOf hgross, partsOf_of_ne_zero hgross]
    exact ⟨rateOf_nonneg (abs_nonneg _) _, rateOf_nonneg (abs_nonneg _) _, le_max_right _ _, rfl,
      isNearest_rateOf _ _, isNearest_rateOf _ _, abs_rates_sub_le _⟩

/-- Five and fifteen basis points of ten dollars are half a cent and a cent and a half: both are ties, which
go to no cent and to two. The minimum fee of three cents makes up the rest. -/
theorem fee_monotone_by_parts_ties : Cents.InRange (-1000) ∧
    (⟨5, 15, 3⟩ : CostModel).breakdown (-1000) = .ok ⟨0, 2, 1⟩ ∧
    (⟨5, 15, 3⟩ : CostModel).fee 1000 = (⟨5, 15, 3⟩ : CostModel).fee (-1000) ∧
    ∃ part, (⟨5, 15, 3⟩ : CostModel).fee (-1000) = .ok part ∧ part ≤ 20 := by
  obtain ⟨hmono, hneg, hparts⟩ :=
    fee_monotone_by_parts ⟨5, 15, 3⟩ (by decide : Cents.InRange (-1000))
  obtain ⟨parts, hbreakdown, _⟩ := hparts (by decide)
  have hvalue : parts = ⟨0, 2, 1⟩ := by
    cases hbreakdown
    rfl
  subst hvalue
  exact ⟨by decide, hbreakdown, hneg (by decide), hmono 10000 20 (by decide) rfl⟩

end PortfolioLab.CostModel
