import Mathlib.Algebra.BigOperators.Field
import Mathlib.Analysis.Convex.StdSimplex
import Mathlib.Topology.Instances.Matrix
import PortfolioLab.Allocation.Variance
import PortfolioLab.Proofs.ExactMatrices
import PortfolioLab.Proofs.FallbackChain

/-!
# The largest excess return per deviation

The ratio of excess return and deviation does not change when holdings are scaled. Holdings of excess return
one therefore have the largest ratio where their variance is least, and scaled to sum one they are the portfolio
of the largest ratio. Dividing the covariance by its mean variance, and the excess returns by the largest of
them, multiplies every ratio by the same positive number.
-/

namespace PortfolioLab

open Matrix Exact

/-- A feasible point with no feasible point of lower value. -/
structure QuadraticProgram.IsMinimum (q : QuadraticProgram Exact) (x : List ℝ) : Prop where
  feasible : q.Feasible (x.map .number)
  le_objective : ∀ y : List ℝ, q.Feasible (y.map .number) →
    q.objective (x.map .number) ≤ q.objective (y.map .number)

variable {n : ℕ} {C M : Matrix (Fin n) (Fin n) ℝ} {e mean y w : Fin n → ℝ} {rate t : ℝ}

/-! ## The ratio of holdings -/

def excessOver (mean : Fin n → ℝ) (rate : ℝ) : Fin n → ℝ := fun i => mean i - rate

noncomputable def holdingRatio (C : Matrix (Fin n) (Fin n) ℝ) (e y : Fin n → ℝ) : ℝ :=
  e ⬝ᵥ y / √(y ⬝ᵥ C *ᵥ y)

noncomputable def excessPerDeviation (M : Matrix (Fin n) (Fin n) ℝ) (mean : Fin n → ℝ) (rate : ℝ)
    (w : Fin n → ℝ) : ℝ :=
  (w ⬝ᵥ mean - rate) / √(w ⬝ᵥ M *ᵥ w)

theorem variance_smul (t : ℝ) (C : Matrix (Fin n) (Fin n) ℝ) (y : Fin n → ℝ) :
    (t • y) ⬝ᵥ C *ᵥ (t • y) = t ^ 2 * (y ⬝ᵥ C *ᵥ y) := by
  rw [mulVec_smul, dotProduct_smul, smul_dotProduct, smul_eq_mul, smul_eq_mul]
  ring

theorem holdingRatio_smul (ht : 0 < t) : holdingRatio C e (t • y) = holdingRatio C e y := by
  rw [holdingRatio, holdingRatio, variance_smul, dotProduct_smul, smul_eq_mul, Real.sqrt_mul (sq_nonneg t),
    Real.sqrt_sq ht.le, mul_div_mul_left _ _ ht.ne']

theorem holdingRatio_nonpos (h : e ⬝ᵥ y ≤ 0) : holdingRatio C e y ≤ 0 :=
  div_nonpos_of_nonpos_of_nonneg h (Real.sqrt_nonneg _)

/-- On weights of sum one the rate can be taken from each mean return. -/
theorem excessPerDeviation_eq_holdingRatio (hw : ∑ i, w i = 1) :
    excessPerDeviation M mean rate w = holdingRatio M (excessOver mean rate) w := by
  have hexcess : excessOver mean rate ⬝ᵥ w = w ⬝ᵥ mean - rate := by
    simp only [dotProduct, excessOver, sub_mul, Finset.sum_sub_distrib, ← Finset.mul_sum, hw, mul_one]
    simp only [mul_comm]
  rw [excessPerDeviation, holdingRatio, hexcess]

/-- Covariance and excess returns in other units. -/
theorem holdingRatio_units {v c : ℝ} (hv : 0 < v) :
    holdingRatio (v • C) (c • e) y = c / √v * holdingRatio C e y := by
  rw [holdingRatio, holdingRatio, smul_dotProduct, smul_mulVec, dotProduct_smul, smul_eq_mul, smul_eq_mul,
    Real.sqrt_mul hv.le, mul_div_mul_comm]

/-! ## Holdings of excess return one -/

/-- Holdings without short positions whose excess return is one. -/
def unitHoldings (e : Fin n → ℝ) : Set (Fin n → ℝ) := {y | (∀ i, 0 ≤ y i) ∧ e ⬝ᵥ y = 1}

theorem sum_pos_of_unitHoldings (hy : y ∈ unitHoldings e) : 0 < ∑ i, y i := by
  refine (Finset.sum_nonneg fun i _ => hy.1 i).lt_of_ne fun hzero => ?_
  have hnone : ∀ i, y i = 0 := fun i =>
    (Finset.sum_eq_zero_iff_of_nonneg fun j _ => hy.1 j).mp hzero.symm i (Finset.mem_univ i)
  have hexcess := hy.2
  simp [dotProduct, hnone] at hexcess

theorem holdingRatio_of_unitHoldings (hy : y ∈ unitHoldings e) :
    holdingRatio C e y = 1 / √(y ⬝ᵥ C *ᵥ y) := by
  rw [holdingRatio, hy.2]

theorem variance_pos_of_unitHoldings (hC : C.PosDef) (hy : y ∈ unitHoldings e) : 0 < y ⬝ᵥ C *ᵥ y := by
  refine variance_pos_of_ne hC ?_
  rintro rfl
  simpa using hy.2

/-- Among holdings of excess return one, the smaller variance is the larger ratio. -/
theorem holdingRatio_le_iff (hC : C.PosDef) {z : Fin n → ℝ} (hy : y ∈ unitHoldings e)
    (hz : z ∈ unitHoldings e) :
    holdingRatio C e z ≤ holdingRatio C e y ↔ y ⬝ᵥ C *ᵥ y ≤ z ⬝ᵥ C *ᵥ z := by
  have hypos := variance_pos_of_unitHoldings hC hy
  have hzpos := variance_pos_of_unitHoldings hC hz
  rw [holdingRatio_of_unitHoldings hy, holdingRatio_of_unitHoldings hz,
    one_div_le_one_div (Real.sqrt_pos.mpr hzpos) (Real.sqrt_pos.mpr hypos), Real.sqrt_le_sqrt_iff hzpos.le]

/-- Holdings with a positive excess return can be scaled to excess return one. -/
theorem smul_mem_unitHoldings (hw : ∀ i, 0 ≤ w i) (hexcess : 0 < e ⬝ᵥ w) :
    (e ⬝ᵥ w)⁻¹ • w ∈ unitHoldings e := by
  refine ⟨fun i => mul_nonneg (inv_nonneg.mpr hexcess.le) (hw i), ?_⟩
  rw [dotProduct_smul, smul_eq_mul, inv_mul_cancel₀ hexcess.ne']

/-- Holdings scaled to sum one are a portfolio. -/
theorem smul_mem_stdSimplex (hy : y ∈ unitHoldings e) : (∑ i, y i)⁻¹ • y ∈ stdSimplex ℝ (Fin n) := by
  have hsum := sum_pos_of_unitHoldings hy
  refine ⟨fun i => mul_nonneg (inv_nonneg.mpr hsum.le) (hy.1 i), ?_⟩
  simp only [Pi.smul_apply, smul_eq_mul, ← Finset.mul_sum]
  exact inv_mul_cancel₀ hsum.ne'

/-- Weights of sum one are found again after scaling. -/
theorem scaled_smul (ht : t ≠ 0) (hw : ∑ i, w i = 1) : (∑ i, (t • w) i)⁻¹ • t • w = w := by
  simp only [Pi.smul_apply, smul_eq_mul, ← Finset.mul_sum, hw, mul_one]
  rw [smul_smul, inv_mul_cancel₀ ht, one_smul]

/-- The least variance among holdings of excess return one is the largest ratio of all portfolios. -/
theorem isMaxOn_of_least_variance (hC : C.PosDef) (hy : y ∈ unitHoldings e)
    (hleast : ∀ z ∈ unitHoldings e, y ⬝ᵥ C *ᵥ y ≤ z ⬝ᵥ C *ᵥ z) :
    IsMaxOn (holdingRatio C e) (stdSimplex ℝ (Fin n)) ((∑ i, y i)⁻¹ • y) := by
  refine isMaxOn_iff.mpr fun w hw => ?_
  rw [holdingRatio_smul (inv_pos.mpr (sum_pos_of_unitHoldings hy))]
  by_cases hexcess : 0 < e ⬝ᵥ w
  · have hunit := smul_mem_unitHoldings hw.1 hexcess
    have hle := (holdingRatio_le_iff hC hy hunit).mpr (hleast _ hunit)
    rwa [holdingRatio_smul (inv_pos.mpr hexcess)] at hle
  -- a portfolio without excess return has no positive ratio
  · refine (holdingRatio_nonpos (not_lt.mp hexcess)).trans ?_
    rw [holdingRatio_of_unitHoldings hy]
    positivity

/-- The portfolio of the largest ratio has the least variance, once it is scaled to excess return one. -/
theorem least_variance_of_isMaxOn (hC : C.PosDef) (hsome : (unitHoldings e).Nonempty)
    (hw : w ∈ stdSimplex ℝ (Fin n)) (hmax : IsMaxOn (holdingRatio C e) (stdSimplex ℝ (Fin n)) w) :
    0 < e ⬝ᵥ w ∧ ∀ z ∈ unitHoldings e,
      ((e ⬝ᵥ w)⁻¹ • w) ⬝ᵥ C *ᵥ ((e ⬝ᵥ w)⁻¹ • w) ≤ z ⬝ᵥ C *ᵥ z := by
  have hbelow : ∀ z ∈ unitHoldings e, holdingRatio C e z ≤ holdingRatio C e w := by
    intro z hz
    have hle := isMaxOn_iff.mp hmax _ (smul_mem_stdSimplex hz)
    rwa [holdingRatio_smul (inv_pos.mpr (sum_pos_of_unitHoldings hz))] at hle
  obtain ⟨z₀, hz₀⟩ := hsome
  have hexcess : 0 < e ⬝ᵥ w := by
    by_contra hnone
    have hle := hbelow z₀ hz₀
    rw [holdingRatio_of_unitHoldings hz₀] at hle
    have hpositive := one_div_pos.mpr (Real.sqrt_pos.mpr (variance_pos_of_unitHoldings hC hz₀))
    linarith [holdingRatio_nonpos (C := C) (not_lt.mp hnone)]
  refine ⟨hexcess, fun z hz => ?_⟩
  rw [← holdingRatio_le_iff hC (smul_mem_unitHoldings hw.1 hexcess) hz, holdingRatio_smul (inv_pos.mpr hexcess)]
  exact hbelow z hz

/-- Some portfolio has the largest ratio. -/
theorem exists_isMaxOn_holdingRatio [NeZero n] (hC : C.PosDef) (e : Fin n → ℝ) :
    ∃ w ∈ stdSimplex ℝ (Fin n), IsMaxOn (holdingRatio C e) (stdSimplex ℝ (Fin n)) w := by
  refine (isCompact_stdSimplex ℝ (Fin n)).exists_isMaxOn ⟨_, single_mem_stdSimplex ℝ 0⟩ ?_
  have hexcess : Continuous fun w => e ⬝ᵥ w := continuous_const.dotProduct continuous_id
  have hvariance : Continuous fun w => w ⬝ᵥ C *ᵥ w :=
    continuous_id.dotProduct (continuous_const.matrix_mulVec continuous_id)
  refine hexcess.continuousOn.div (Real.continuous_sqrt.comp hvariance).continuousOn fun w hw => ?_
  have hne : w ≠ 0 := by
    rintro rfl
    simpa using hw.2
  exact (Real.sqrt_pos.mpr (variance_pos_of_ne hC hne)).ne'

/-! ## The quadratic program -/

noncomputable def largestSize (e : Fin n → ℝ) : ℝ := (List.ofFn fun i => |e i|).foldl max 0

theorem largestSize_exact (e : Fin n → ℝ) :
    Scalar.largest 0 ((vectorOf e).map Scalar.magnitude) = number (largestSize e) := by
  rw [map_vectorOf (y := fun i => |e i|) fun i => magnitude_number (e i), zero_eq, vectorOf, largest_number,
    largestSize]

theorem largestSize_pos (h : ∃ i, 0 < e i) : 0 < largestSize e := by
  obtain ⟨i, hi⟩ := h
  by_contra hnone
  -- otherwise the largest size would be below the size of entry `i`, and so would that size itself
  have hbelow : Scalar.largest 0 ((vectorOf e).map Scalar.magnitude) < number |e i| := by
    rw [largestSize_exact]
    exact (not_lt.mp hnone).trans_lt (abs_pos.mpr hi.ne')
  rw [map_vectorOf (y := fun i => |e i|) fun i => magnitude_number (e i), largest_vectorOf_lt_iff] at hbelow
  exact lt_irrefl _ (hbelow.2 i)

noncomputable def relativeExcess (e : Fin n → ℝ) : Fin n → ℝ := (largestSize e)⁻¹ • e

theorem relativeExcess_pos (h : ∃ i, 0 < e i) : ∃ i, 0 < relativeExcess e i :=
  h.imp fun _ hi => mul_pos (inv_pos.mpr (largestSize_pos h)) hi

theorem scaledToUnit_exact (h : ∃ i, 0 < e i) : scaledToUnit (vectorOf e) = vectorOf (relativeExcess e) := by
  rw [scaledToUnit, largestSize_exact]
  exact map_vectorOf fun i => (number_div (largestSize_pos h).ne').trans (congrArg number (div_eq_inv_mul _ _))

noncomputable def positiveTotal (e : Fin n → ℝ) : ℝ := ∑ i, if 0 < e i then e i else 0

theorem positiveTotal_pos (h : ∃ i, 0 < e i) : 0 < positiveTotal e := by
  obtain ⟨i, hi⟩ := h
  refine Finset.sum_pos' (fun j _ => ?_) ⟨i, Finset.mem_univ i, by rwa [if_pos hi]⟩
  split
  · next hj => exact hj.le
  · exact le_rfl

noncomputable def equalHoldings (e : Fin n → ℝ) : Fin n → ℝ := fun i =>
  if 0 < e i then 1 / positiveTotal e else 0

theorem equalHoldings_mem (h : ∃ i, 0 < e i) : equalHoldings e ∈ unitHoldings e := by
  have htotal := positiveTotal_pos h
  refine ⟨fun i => ?_, ?_⟩
  · unfold equalHoldings
    positivity
  · have hterms : ∀ i, e i * equalHoldings e i = (if 0 < e i then e i else 0) / positiveTotal e := by
      intro i
      unfold equalHoldings
      split <;> ring
    rw [dotProduct, Finset.sum_congr rfl fun i _ => hterms i, ← Finset.sum_div]
    exact div_self htotal.ne'

theorem positiveStart_exact (h : ∃ i, 0 < e i) : positiveStart (vectorOf e) = vectorOf (equalHoldings e) := by
  have hpositive : ∀ x : ℝ, (0 : Exact) < number x ↔ 0 < x := fun x => Iff.rfl
  have hfilter : (vectorOf e).filter (0 < ·) = ((List.ofFn e).filter (0 < ·)).map number := by
    rw [vectorOf, List.filter_map]
    exact congrArg _ (List.filter_congr fun x _ => decide_eq_decide.mpr (hpositive x))
  have htotal : ((List.ofFn e).filter (0 < ·)).sum = positiveTotal e := by
    have hparts := List.sum_map_ite (0 < ·) id (fun _ => (0 : ℝ)) (List.ofFn e)
    simpa [positiveTotal, List.map_ofFn, List.sum_ofFn] using hparts.symm
  rw [positiveStart, hfilter, sum_number, htotal]
  refine map_vectorOf fun i => ?_
  rw [one_eq, number_div (positiveTotal_pos h).ne', zero_eq, equalHoldings, apply_ite number]
  exact if_congr (hpositive (e i)) rfl rfl

noncomputable def unitProgram (C : Matrix (Fin n) (Fin n) ℝ) (e : Fin n → ℝ) : QuadraticProgram Exact where
  curvature := matrixOf C
  slope := Scalar.zeros n
  limits := []
  equations := [(vectorOf e, 1)]
  ranges := List.replicate n .nonnegative
  start := vectorOf (equalHoldings e)

theorem sharpeProgram_exact (hM : M.PosDef) (h : ∃ i, rate < mean i) :
    sharpeProgram? ⟨matrixOf M, vectorOf mean⟩ (number rate) =
      some (unitProgram (relative M) (relativeExcess (excessOver mean rate))) := by
  obtain ⟨i, hi⟩ := h
  have : NeZero n := ⟨(i.pos).ne'⟩
  have hexcess : excessReturns (vectorOf mean) (number rate) = vectorOf (excessOver mean rate) :=
    map_vectorOf fun i => number_sub
  have hpositive : ∃ i, 0 < excessOver mean rate i := ⟨i, sub_pos.mpr hi⟩
  have hany : (vectorOf (excessOver mean rate)).any (0 < ·) = true := by
    refine List.any_eq_true.mpr ⟨_, List.mem_map_of_mem (List.mem_ofFn.mpr ⟨i, rfl⟩), ?_⟩
    exact decide_eq_true (sub_pos.mpr hi : 0 < excessOver mean rate i)
  simp only [sharpeProgram?, hexcess, hany, if_true, scaledToUnit_exact hpositive,
    positiveStart_exact (relativeExcess_pos hpositive), normalized_matrixOf hM, length_vectorOf]
  rfl

theorem unitProgram_feasible_iff : (unitProgram C e).Feasible (vectorOf y) ↔ y ∈ unitHoldings e := by
  have hequation : Scalar.dot (vectorOf e) (vectorOf y) = 1 ↔ e ⬝ᵥ y = 1 := by
    rw [dot_vectorOf, one_eq, number.injEq]
  have hranges : (∀ entry ∈ (unitProgram C e).ranges.zip (vectorOf y), entry.1.Holds entry.2) ↔
      ∀ i, 0 ≤ y i := by
    have hzip : (unitProgram C e).ranges.zip (vectorOf y) =
        (List.ofFn y).map fun x => (Range.nonnegative, number x) := by
      have h := replicate_zip_number Range.nonnegative (List.ofFn y)
      rwa [List.length_ofFn] at h
    rw [hzip]
    simp
  constructor
  · intro h
    exact ⟨hranges.mp h.ranges, hequation.mp (h.equations (vectorOf e, 1) (List.mem_singleton.mpr rfl))⟩
  · rintro ⟨hnonneg, hexcess⟩
    refine ⟨by simp [unitProgram], fun row hrow => absurd hrow List.not_mem_nil, ?_, hranges.mpr hnonneg⟩
    intro row hrow
    rw [List.mem_singleton.mp hrow]
    exact hequation.mpr hexcess

theorem exists_vectorOf_of_feasible {x : List ℝ} (h : (unitProgram C e).Feasible (x.map number)) :
    ∃ y : Fin n → ℝ, x = List.ofFn y := by
  have hlength : x.length = n := by simpa [unitProgram] using h.length
  subst hlength
  exact ⟨x.get, (List.ofFn_get x).symm⟩

theorem unitProgram_objective : (unitProgram C e).objective (vectorOf y) = number (y ⬝ᵥ C *ᵥ y) := by
  have hzeros : (Scalar.zeros n : List Exact) = vectorOf (0 : Fin n → ℝ) := by
    rw [Scalar.zeros, vectorOf, zero_eq, ← List.map_replicate, ← List.ofFn_const]
    rfl
  simp [QuadraticProgram.objective, unitProgram, hzeros]

/-- The minima of the program are the holdings of excess return one that have the least variance. -/
theorem unitProgram_isMinimum_iff :
    (unitProgram C e).IsMinimum (List.ofFn y) ↔
      y ∈ unitHoldings e ∧ ∀ z ∈ unitHoldings e, y ⬝ᵥ C *ᵥ y ≤ z ⬝ᵥ C *ᵥ z := by
  have hle (z : Fin n → ℝ) :
      (unitProgram C e).objective (vectorOf y) ≤ (unitProgram C e).objective (vectorOf z) ↔
        y ⬝ᵥ C *ᵥ y ≤ z ⬝ᵥ C *ᵥ z := by
    rw [unitProgram_objective, unitProgram_objective, number_le]
  constructor
  · rintro ⟨hfeasible, hleast⟩
    refine ⟨unitProgram_feasible_iff.mp hfeasible, fun z hz => (hle z).mp ?_⟩
    exact hleast (List.ofFn z) (unitProgram_feasible_iff.mpr hz)
  · rintro ⟨hy, hleast⟩
    refine ⟨unitProgram_feasible_iff.mpr hy, fun x hx => ?_⟩
    obtain ⟨z, rfl⟩ := exists_vectorOf_of_feasible hx
    exact (hle z).mpr (hleast z (unitProgram_feasible_iff.mp hx))

/-! ## The best portfolio -/

/-- Long-only weights of sum one with the largest excess return per deviation. -/
structure BestRatio (M : Matrix (Fin n) (Fin n) ℝ) (mean : Fin n → ℝ) (rate : ℝ)
    (w : Fin n → ℝ) : Prop where
  weights : w ∈ stdSimplex ℝ (Fin n)
  largest : IsMaxOn (excessPerDeviation M mean rate) (stdSimplex ℝ (Fin n)) w

/-- The units of covariance and excess returns do not matter. -/
theorem bestRatio_iff [NeZero n] (hM : M.PosDef) (h : ∃ i, rate < mean i) :
    BestRatio M mean rate w ↔ w ∈ stdSimplex ℝ (Fin n) ∧
      IsMaxOn (holdingRatio (relative M) (relativeExcess (excessOver mean rate))) (stdSimplex ℝ (Fin n)) w := by
  have hvariance := meanVariance_pos hM
  have hsize := largestSize_pos (h.imp fun i hi => sub_pos.mpr hi : ∃ i, 0 < excessOver mean rate i)
  have hcovariance : M = meanVariance M • relative M := by
    rw [relative, smul_smul, mul_inv_cancel₀ hvariance.ne', one_smul]
  have hexcess : excessOver mean rate =
      largestSize (excessOver mean rate) • relativeExcess (excessOver mean rate) := by
    rw [relativeExcess, smul_smul, mul_inv_cancel₀ hsize.ne', one_smul]
  have hunits : ∀ v ∈ stdSimplex ℝ (Fin n), excessPerDeviation M mean rate v =
      largestSize (excessOver mean rate) / √(meanVariance M) *
        holdingRatio (relative M) (relativeExcess (excessOver mean rate)) v := by
    intro v hv
    rw [← holdingRatio_units hvariance, ← hcovariance, ← hexcess]
    exact excessPerDeviation_eq_holdingRatio hv.2
  have hfactor : 0 < largestSize (excessOver mean rate) / √(meanVariance M) :=
    div_pos hsize (Real.sqrt_pos.mpr hvariance)
  constructor
  · rintro ⟨hw, hmax⟩
    refine ⟨hw, isMaxOn_iff.mpr fun v hv => ?_⟩
    have hle := isMaxOn_iff.mp hmax v hv
    rw [hunits v hv, hunits w hw] at hle
    exact le_of_mul_le_mul_left hle hfactor
  · rintro ⟨hw, hmax⟩
    refine ⟨hw, isMaxOn_iff.mpr fun v hv => ?_⟩
    rw [hunits v hv, hunits w hw]
    exact mul_le_mul_of_nonneg_left (isMaxOn_iff.mp hmax v hv) hfactor.le

theorem scaled_ofFn (y : Fin n → ℝ) :
    (List.ofFn y).map (· / (List.ofFn y).sum) = List.ofFn ((∑ i, y i)⁻¹ • y) := by
  rw [List.sum_ofFn, List.map_ofFn]
  exact congrArg List.ofFn (funext fun i => div_eq_inv_mul _ _)

/-- What is left of holdings without short positions after clipping and scaling. -/
theorem cleanWeights_of_unitHoldings (hy : y ∈ unitHoldings e) {tolerance : ℝ} (htolerance : 0 < tolerance) :
    cleanWeights (.ok (number tolerance)) (some (vectorOf y)) = .ok (some (vectorOf ((∑ i, y i)⁻¹ • y))) := by
  have hnonneg : ∀ x ∈ List.ofFn y, 0 ≤ x := List.forall_mem_ofFn_iff.mpr hy.1
  have hclipped := clipped_eq_self hnonneg
  have hscalable : Scalable (List.ofFn y) := by
    refine ⟨fun x hx => ?_, ?_⟩
    · linarith [hnonneg x hx]
    · rw [hclipped, List.sum_ofFn]
      exact sum_pos_of_unitHoldings hy
  have hscaled : scaledWeights (List.ofFn y) = List.ofFn ((∑ i, y i)⁻¹ • y) := by
    rw [scaledWeights, hclipped, scaled_ofFn]
  have hlimit : (0 : Exact) < number tolerance := htolerance
  rw [vectorOf, cleanWeights_of_scalable hlimit hscalable, hscaled, vectorOf]

/-- In exact arithmetic the portfolios of the largest excess return per deviation are the minima of the program,
scaled to sum one. The program has a feasible start and a minimum, and its minima pass the cleaning of weights. -/
theorem sharpe_program_finds_best_ratio (hM : M.PosDef) (h : ∃ i, rate < mean i) :
    ∃ q, sharpeProgram? ⟨matrixOf M, vectorOf mean⟩ (number rate) = some q ∧
      (∀ limits, sharpeAttempt (.ok limits) (number rate) ⟨matrixOf M, vectorOf mean⟩ =
        .ok (quadraticAttempt limits q)) ∧
      q.Feasible q.start ∧
      (∃ x, q.IsMinimum x) ∧
      (∀ x, q.IsMinimum x → 0 < x.sum ∧
        ∃ w, x.map (· / x.sum) = List.ofFn w ∧ BestRatio M mean rate w ∧
          ∀ tolerance : ℝ, 0 < tolerance →
            cleanWeights (.ok (number tolerance)) (some (x.map number)) = .ok (some (vectorOf w))) ∧
      ∀ w, BestRatio M mean rate w → ∃ x, q.IsMinimum x ∧ x.map (· / x.sum) = List.ofFn w := by
  obtain ⟨i, hi⟩ := h
  have : NeZero n := ⟨(i.pos).ne'⟩
  have hC := relative_posDef hM
  have hpositive : ∃ i, 0 < relativeExcess (excessOver mean rate) i :=
    relativeExcess_pos ⟨i, sub_pos.mpr hi⟩
  have hstart := equalHoldings_mem hpositive
  have hprogram := sharpeProgram_exact hM ⟨i, hi⟩
  have hbest {w : Fin n → ℝ} := bestRatio_iff (w := w) hM ⟨i, hi⟩
  -- what follows holds for any excess returns of which one is positive
  generalize relativeExcess (excessOver mean rate) = e at hpositive hstart hprogram hbest
  have hconverse : ∀ w, BestRatio M mean rate w →
      ∃ x, (unitProgram (relative M) e).IsMinimum x ∧ x.map (· / x.sum) = List.ofFn w := by
    intro w hw
    obtain ⟨hexcess, hleast⟩ := least_variance_of_isMaxOn hC ⟨_, hstart⟩ hw.weights (hbest.mp hw).2
    refine ⟨_, unitProgram_isMinimum_iff.mpr ⟨smul_mem_unitHoldings hw.weights.1 hexcess, hleast⟩, ?_⟩
    rw [scaled_ofFn, scaled_smul (inv_ne_zero hexcess.ne') hw.weights.2]
  refine ⟨_, hprogram, fun limits => ?_, unitProgram_feasible_iff.mpr hstart, ?_, fun x hx => ?_, hconverse⟩
  · rw [sharpeAttempt, hprogram]
    rfl
  · obtain ⟨w, hw, hmax⟩ := exists_isMaxOn_holdingRatio hC e
    exact (hconverse w (hbest.mpr ⟨hw, hmax⟩)).imp fun _ hx => hx.1
  · obtain ⟨y, rfl⟩ := exists_vectorOf_of_feasible hx.feasible
    obtain ⟨hy, hleast⟩ := unitProgram_isMinimum_iff.mp hx
    refine ⟨?_, _, scaled_ofFn y, ?_, fun tolerance htolerance => cleanWeights_of_unitHoldings hy htolerance⟩
    · rw [List.sum_ofFn]
      exact sum_pos_of_unitHoldings hy
    · exact hbest.mpr ⟨smul_mem_stdSimplex hy, isMaxOn_of_least_variance hC hy hleast⟩

/-- Of two uncorrelated symbols, one whose mean return is below the rate gets nothing. -/
theorem sharpe_program_finds_best_ratio_below_rate :
    let M : Matrix (Fin 2) (Fin 2) ℝ := diagonal ![4, 1]
    let mean : Fin 2 → ℝ := ![10, 1]
    M.PosDef ∧ (∃ i, 2 < mean i) ∧
      ∃ q x, sharpeProgram? ⟨matrixOf M, vectorOf mean⟩ (number 2) = some q ∧ q.IsMinimum x ∧
        cleanWeights (.ok (number 1e-6)) (some (x.map number)) = .ok (some (vectorOf ![1, 0])) := by
  intro M mean
  have hM : M.PosDef := PosDef.diagonal fun i => by fin_cases i <;> norm_num
  have habove : ∃ i, 2 < mean i := ⟨0, by norm_num [mean]⟩
  obtain ⟨q, hprogram, -, -, ⟨x, hx⟩, hminimum, -⟩ := sharpe_program_finds_best_ratio hM habove
  obtain ⟨-, w, -, hbest, hclean⟩ := hminimum x hx
  have hsum : w 0 + w 1 = 1 := by simpa using hbest.weights.2
  have hvariance : w ⬝ᵥ M *ᵥ w = 4 * w 0 ^ 2 + w 1 ^ 2 := by
    simp [M, dotProduct, mulVec_diagonal]
    ring
  -- the first symbol alone has the ratio four, and any share of the second one would bring it below
  have hfirst : 4 ≤ (8 * w 0 - w 1) / √(4 * w 0 ^ 2 + w 1 ^ 2) := by
    have hle := isMaxOn_iff.mp hbest.largest _ (single_mem_stdSimplex ℝ 0)
    have hsqrt : √(4 : ℝ) = 2 := by
      rw [show (4 : ℝ) = 2 ^ 2 by norm_num]
      exact Real.sqrt_sq two_pos.le
    have halone : excessPerDeviation M mean 2 (Pi.single 0 1) = 4 := by
      norm_num [excessPerDeviation, M, mean, hsqrt]
    have hexcess : w ⬝ᵥ mean - 2 = 8 * w 0 - w 1 := by
      simp [mean, dotProduct]
      linarith
    rwa [halone, excessPerDeviation, hvariance, hexcess] at hle
  have hnone : w 1 = 0 := by
    have hpositive : 0 < √(4 * w 0 ^ 2 + w 1 ^ 2) := by
      rw [Real.sqrt_pos, ← hvariance]
      refine variance_pos_of_ne hM ?_
      rintro rfl
      simp at hsum
    have hdeviation : 2 * w 0 ≤ √(4 * w 0 ^ 2 + w 1 ^ 2) :=
      Real.le_sqrt_of_sq_le (by linarith [sq_nonneg (w 1), mul_pow 2 (w 0) 2])
    have hle := (le_div_iff₀ hpositive).mp hfirst
    linarith [hbest.weights.1 1]
  have hall : w = ![1, 0] := by
    ext i
    fin_cases i
    · show w 0 = 1
      linarith
    · exact hnone
  refine ⟨hM, habove, q, x, hprogram, hx, ?_⟩
  rw [hclean 1e-6 (by norm_num), hall]

end PortfolioLab
