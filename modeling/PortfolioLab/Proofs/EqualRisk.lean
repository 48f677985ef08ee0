import Mathlib.Algebra.BigOperators.Field
import PortfolioLab.Allocation.RiskParity
import PortfolioLab.Proofs.ExactMatrices

/-!
# Descent to equal risk contributions

Each update of the sweeps moves one coordinate to the positive root of a quadratic equation. There the
contribution of the coordinate is its budget, which makes it the minimum of the potential along the
coordinate, whatever the signs of the covariances. So positions stay positive, the potential never rises,
and every number that the sweeps and the test of convergence compute is defined.
-/

namespace PortfolioLab.RiskParity

open Matrix Exact

variable {n : ℕ} {S : Matrix (Fin n) (Fin n) ℝ} {y : Fin n → ℝ} {i : Fin n} {t : ℝ}

/-! ## The potential along a coordinate -/

/-- Half the variance of a position, less the mean of the logarithms of its entries. -/
noncomputable def potential (S : Matrix (Fin n) (Fin n) ℝ) (y : Fin n → ℝ) : ℝ :=
  1 / 2 * (y ⬝ᵥ S *ᵥ y) - 1 / n * ∑ j, Real.log (y j)

theorem update_eq_add_single (y : Fin n → ℝ) (i : Fin n) (t : ℝ) :
    Function.update y i t = y + Pi.single i (t - y i) := by
  ext j
  by_cases h : j = i
  · subst h
    simp
  · simp [h]

theorem mulVec_update (S : Matrix (Fin n) (Fin n) ℝ) (y : Fin n → ℝ) (i : Fin n) (t : ℝ) (j : Fin n) :
    (S *ᵥ Function.update y i t) j = (S *ᵥ y) j + S j i * (t - y i) := by
  rw [update_eq_add_single, mulVec_add, Pi.add_apply, mulVec_single, Pi.smul_apply, col_apply,
    op_smul_eq_mul]

theorem variance_update (hS : S.IsSymm) (y : Fin n → ℝ) (i : Fin n) (t : ℝ) :
    Function.update y i t ⬝ᵥ S *ᵥ Function.update y i t =
      y ⬝ᵥ S *ᵥ y + 2 * (t - y i) * (S *ᵥ y) i + (t - y i) ^ 2 * S i i := by
  have hcross : y ⬝ᵥ S *ᵥ Pi.single i (t - y i) = (t - y i) * (S *ᵥ y) i := by
    rw [dotProduct_mulVec, ← mulVec_transpose, hS.eq, dotProduct_single, mul_comm]
  rw [update_eq_add_single, mulVec_add, dotProduct_add, add_dotProduct, add_dotProduct, hcross,
    single_dotProduct, single_dotProduct, mulVec_single, Pi.smul_apply, col_apply,
    op_smul_eq_mul]
  ring

theorem sum_log_update (y : Fin n → ℝ) (i : Fin n) (t : ℝ) :
    ∑ j, Real.log (Function.update y i t j) = ∑ j, Real.log (y j) + (Real.log t - Real.log (y i)) := by
  have hothers : ∑ j ∈ Finset.univ.erase i, Real.log (Function.update y i t j) =
      ∑ j ∈ Finset.univ.erase i, Real.log (y j) :=
    Finset.sum_congr rfl fun j hj => by rw [Function.update_of_ne (Finset.ne_of_mem_erase hj)]
  rw [← Finset.add_sum_erase _ _ (Finset.mem_univ i), hothers, Function.update_self,
    ← Finset.add_sum_erase _ (fun j => Real.log (y j)) (Finset.mem_univ i)]
  ring

/-- Where the contribution of a coordinate is its budget, no other value of the coordinate makes the
potential smaller. -/
theorem potential_le_update (hS : S.IsSymm) (hvariance : 0 ≤ S i i) (hy : 0 < y i)
    (hbudget : y i * (S *ᵥ y) i = 1 / n) (ht : 0 < t) :
    potential S y ≤ potential S (Function.update y i t) := by
  have hlog : Real.log t - Real.log (y i) ≤ t / y i - 1 := by
    rw [← Real.log_div ht.ne' hy.ne']
    exact Real.log_le_sub_one_of_pos (div_pos ht hy)
  have hmargin : (t - y i) * (S *ᵥ y) i = 1 / n * (t / y i - 1) := by
    rw [← hbudget]
    field_simp
  -- the logarithm rises by no more than its tangent, which the margin of the variance pays for
  have hshare : 1 / (n : ℝ) * (Real.log t - Real.log (y i)) ≤ 1 / n * (t / y i - 1) :=
    mul_le_mul_of_nonneg_left hlog (by positivity)
  have hsquare : 0 ≤ (t - y i) ^ 2 * S i i := mul_nonneg (sq_nonneg _) hvariance
  rw [potential, potential, variance_update hS, sum_log_update]
  linarith

/-! ## The root of a coordinate -/

noncomputable def partners (S : Matrix (Fin n) (Fin n) ℝ) (y : Fin n → ℝ) (i : Fin n) : ℝ :=
  (S *ᵥ y) i - S i i * y i

noncomputable def radicand (S : Matrix (Fin n) (Fin n) ℝ) (y : Fin n → ℝ) (i : Fin n) : ℝ :=
  partners S y i ^ 2 + 4 * S i i * (1 / n)

noncomputable def root (S : Matrix (Fin n) (Fin n) ℝ) (y : Fin n → ℝ) (i : Fin n) : ℝ :=
  (-partners S y i + √(radicand S y i)) / (2 * S i i)

theorem budget_exact [NeZero n] : (budget n : Exact) = number (1 / n) :=
  number_div (Nat.cast_ne_zero.mpr (NeZero.ne n))

section Root

variable [NeZero n]

theorem budget_pos : 0 < 1 / (n : ℝ) := one_div_pos.mpr (Nat.cast_pos.mpr (NeZero.pos n))

theorem sq_partners_lt_radicand (hvariance : 0 < S i i) : partners S y i ^ 2 < radicand S y i :=
  lt_add_of_pos_right _ (mul_pos (mul_pos four_pos hvariance) budget_pos)

theorem radicand_pos (hvariance : 0 < S i i) : 0 < radicand S y i :=
  (sq_nonneg _).trans_lt (sq_partners_lt_radicand hvariance)

/-- Also where the covariances are negative, the square root is larger than what it is added to. -/
theorem root_pos (hvariance : 0 < S i i) : 0 < root S y i := by
  have hsqrt : partners S y i < √(radicand S y i) :=
    Real.lt_sqrt_of_sq_lt (sq_partners_lt_radicand hvariance)
  exact div_pos (by linarith) (by linarith)

theorem root_equation (hvariance : 0 < S i i) :
    root S y i * (partners S y i + S i i * root S y i) = 1 / n := by
  have hsq : √(radicand S y i) ^ 2 = partners S y i ^ 2 + 4 * S i i * (1 / n) :=
    Real.sq_sqrt (radicand_pos hvariance).le
  have hroot : 2 * S i i * root S y i = -partners S y i + √(radicand S y i) :=
    mul_div_cancel₀ _ (by positivity)
  -- four times the variance times the equation completes its square
  have hscaled : 4 * S i i * (root S y i * (partners S y i + S i i * root S y i)) = 4 * S i i * (1 / n) := by
    linear_combination hsq + (2 * S i i * root S y i + partners S y i + √(radicand S y i)) * hroot
  exact mul_left_cancel₀ (by positivity) hscaled

/-- After its update the contribution of a coordinate is its budget. -/
theorem contribution_update (hvariance : 0 < S i i) :
    Function.update y i (root S y i) i * (S *ᵥ Function.update y i (root S y i)) i = 1 / n := by
  rw [mulVec_update, Function.update_self, ← root_equation hvariance, partners]
  ring

/-- The minimum along a coordinate is computed without an undefined step. -/
theorem coordinateMinimum_exact (hvariance : 0 < S i i) :
    coordinateMinimum (matrixOf S) (vectorOf y) i = number (root S y i) := by
  have hfour : (4.0 : Exact) = number 4 := by
    rw [ofScientific_eq]
    norm_num
  have htwo : (2.0 : Exact) = number 2 := by
    rw [ofScientific_eq]
    norm_num
  have hsqrt : Scalar.sqrt (number (radicand S y i)) = number √(radicand S y i) :=
    if_neg (radicand_pos hvariance).le.not_gt
  have hradicand : partners S y i * partners S y i + 4 * S i i * (1 / n) = radicand S y i := by
    rw [radicand, sq]
  have hrow : S.row i ⬝ᵥ y - S i i * y i = partners S y i := rfl
  simp only [coordinateMinimum, entry_matrixOf, getD_matrixOf, getD_vectorOf, dot_vectorOf, length_matrixOf,
    budget_exact, hfour, htwo, number_mul, number_sub, number_add, number_neg, hrow, hradicand, hsqrt]
  exact number_div (by positivity)

theorem update_exact (hvariance : 0 < S i i) :
    update (matrixOf S) (vectorOf y) i = vectorOf (Function.update y i (root S y i)) := by
  rw [update, coordinateMinimum_exact hvariance, set_vectorOf]

end Root

/-! ## Updates -/

/-- One update of coordinate `i`, from a positive position to a positive one. Its root is defined, and no
other value of the coordinate makes the potential smaller. -/
structure Update (S : Matrix (Fin n) (Fin n) ℝ) (i : Fin n) (y z : Fin n → ℝ) : Prop where
  divisor : 0 < 2 * S i i
  radicand : 0 < radicand S y i
  before : ∀ j, 0 < y j
  after : ∀ j, 0 < z j
  moved : z = Function.update y i (root S y i)
  contribution : z i * (S *ᵥ z) i = 1 / n
  least : ∀ t, 0 < t → potential S z ≤ potential S (Function.update y i t)
  descends : potential S z ≤ potential S y

theorem update_of_pos [NeZero n] (hS : S.PosDef) (hy : ∀ j, 0 < y j) (i : Fin n) :
    Update S i y (Function.update y i (root S y i)) := by
  have hvariance : 0 < S i i := hS.diag_pos
  have hafter (j : Fin n) : 0 < Function.update y i (root S y i) j := by
    by_cases h : j = i
    · rw [h, Function.update_self]
      exact root_pos hvariance
    · rw [Function.update_of_ne h]
      exact hy j
  have hleast (t : ℝ) (ht : 0 < t) :
      potential S (Function.update y i (root S y i)) ≤ potential S (Function.update y i t) := by
    have h := potential_le_update (isSymm_of_posDef hS) hvariance.le (hafter i)
      (contribution_update hvariance) ht
    rwa [Function.update_idem] at h
  refine ⟨by linarith, radicand_pos hvariance, hy, hafter, rfl, contribution_update hvariance, hleast, ?_⟩
  have hstay := hleast (y i) (hy i)
  rwa [Function.update_eq_self] at hstay

/-! ## Runs -/

section Runs

variable {α : Type} [Scalar α]

/-- The position after whole sweeps and some updates of the next one. -/
def reached (covariance : List (List α)) (sweeps updates : ℕ) : List α :=
  (List.range updates).foldl (update covariance) ((sweep covariance)^[sweeps] (start covariance))

theorem reached_succ (covariance : List (List α)) (sweeps updates : ℕ) :
    reached covariance sweeps (updates + 1) =
      update covariance (reached covariance sweeps updates) updates := by
  rw [reached, List.range_succ, List.foldl_append]
  rfl

/-- A sweep is complete after as many updates as there are rows. -/
theorem reached_sweep (covariance : List (List α)) (sweeps : ℕ) :
    reached covariance (sweeps + 1) 0 = reached covariance sweeps covariance.length := by
  rw [reached, Function.iterate_succ_apply']
  rfl

def weightsAfter (covariance : List (List α)) (sweeps : ℕ) : List α :=
  toUnitSum (reached covariance sweeps 0)

def Stops (covariance : List (List α)) (tolerance : α) (sweeps : ℕ) : Prop :=
  ∃ gap, imbalance? covariance (weightsAfter covariance sweeps) = some gap ∧ gap < tolerance

variable {covariance : List (List α)} {tolerance : α} {done : ℕ}

/-- A sweep that passes the test is the last one. -/
theorem descend_of_stops (left : ℕ) (h : Stops covariance tolerance (done + 1)) :
    descend covariance (.ok tolerance) (left + 1) done (reached covariance done 0) =
      .ok { weights := some (weightsAfter covariance (done + 1)), converged := true
            iterations := (done + 1 : ℕ) } := by
  obtain ⟨gap, hgap, hlt⟩ := h
  have hnext : sweep covariance (reached covariance done 0) = reached covariance (done + 1) 0 :=
    (reached_sweep covariance done).symm
  rw [weightsAfter] at hgap
  simp only [descend, hnext, hgap]
  exact if_pos hlt

/-- After a sweep that does not pass, be it for lack of any risk, the descent goes on. -/
theorem descend_of_not_stops (left : ℕ) (h : ¬ Stops covariance tolerance (done + 1)) :
    descend covariance (.ok tolerance) (left + 1) done (reached covariance done 0) =
      descend covariance (.ok tolerance) left (done + 1) (reached covariance (done + 1) 0) := by
  have hnext : sweep covariance (reached covariance done 0) = reached covariance (done + 1) 0 :=
    (reached_sweep covariance done).symm
  simp only [descend, hnext]
  cases hgap : imbalance? covariance (toUnitSum (reached covariance (done + 1) 0)) with
  | none => rfl
  | some gap => exact if_neg fun hlt => h ⟨gap, hgap, hlt⟩

/-- The descent ends at the first sweep that passes the test, or after its last one. -/
theorem descend_eq (covariance : List (List α)) (tolerance : α) (left done : ℕ) :
    (descend covariance (.ok tolerance) left done (reached covariance done 0) =
        .ok (.failed .sweepLimit (done + left : ℕ)) ∧
      ∀ k, done < k → k ≤ done + left → ¬ Stops covariance tolerance k) ∨
    ∃ k, done < k ∧ k ≤ done + left ∧ Stops covariance tolerance k ∧
      (∀ j, done < j → j < k → ¬ Stops covariance tolerance j) ∧
      descend covariance (.ok tolerance) left done (reached covariance done 0) =
        .ok { weights := some (weightsAfter covariance k), converged := true, iterations := k } := by
  induction left generalizing done with
  | zero => exact .inl ⟨rfl, fun k hlow hhigh => absurd hhigh (by omega)⟩
  | succ left ih =>
    by_cases hstops : Stops covariance tolerance (done + 1)
    · exact .inr ⟨done + 1, by omega, by omega, hstops, fun j hlow hhigh => by omega,
        descend_of_stops left hstops⟩
    · have hfirst {k : ℕ} (hlow : done < k) (hlater : done + 1 < k → ¬ Stops covariance tolerance k) :
          ¬ Stops covariance tolerance k := by
        rcases Nat.eq_or_lt_of_le (Nat.succ_le_of_lt hlow) with rfl | h
        · exact hstops
        · exact hlater h
      have hcount : done + (left + 1) = done + 1 + left := by omega
      rw [descend_of_not_stops left hstops, hcount]
      rcases ih (done + 1) with ⟨hfail, hnone⟩ | ⟨k, hlow, hhigh, hk, hnone, hok⟩
      · exact .inl ⟨hfail, fun k hlow hhigh => hfirst hlow fun h => hnone k h hhigh⟩
      · exact .inr ⟨k, by omega, hhigh, hk, fun j hj hlt => hfirst hj fun h => hnone j h hlt, hok⟩

end Runs

/-! ## Runs on real covariances -/

section Exact

noncomputable def inverseDeviations (S : Matrix (Fin n) (Fin n) ℝ) : Fin n → ℝ := fun i => 1 / √(S i i)

theorem inverseDeviations_pos (hS : S.PosDef) (i : Fin n) : 0 < inverseDeviations S i :=
  one_div_pos.mpr (Real.sqrt_pos.mpr hS.diag_pos)

noncomputable def unitSum (y : Fin n → ℝ) : Fin n → ℝ := fun i => y i / ∑ j, y j

variable [NeZero n]

theorem sum_pos_of_pos (hy : ∀ i, 0 < y i) : 0 < ∑ i, y i :=
  Finset.sum_pos (fun i _ => hy i) Finset.univ_nonempty

theorem toUnitSum_exact (hy : ∀ i, 0 < y i) : toUnitSum (vectorOf y) = vectorOf (unitSum y) := by
  simp only [toUnitSum, sum_vectorOf]
  exact map_vectorOf fun i => number_div (sum_pos_of_pos hy).ne'

theorem unitSum_pos (hy : ∀ i, 0 < y i) (i : Fin n) : 0 < unitSum y i := div_pos (hy i) (sum_pos_of_pos hy)

theorem sum_unitSum (hy : ∀ i, 0 < y i) : ∑ i, unitSum y i = 1 := by
  simp only [unitSum, ← Finset.sum_div]
  exact div_self (sum_pos_of_pos hy).ne'

theorem start_exact (hS : S.PosDef) : start (matrixOf S) = vectorOf (unitSum (inverseDeviations S)) := by
  have hinverse (i : Fin n) :
      (1 : Exact) / Scalar.sqrt (number (S i i)) = number (inverseDeviations S i) := by
    have hsqrt : Scalar.sqrt (number (S i i)) = number √(S i i) := if_neg hS.diag_pos.le.not_gt
    rw [hsqrt, one_eq, number_div (Real.sqrt_pos.mpr hS.diag_pos).ne', inverseDeviations]
  rw [start, diagonal_matrixOf, map_vectorOf hinverse, toUnitSum_exact (inverseDeviations_pos hS)]

def Positive (n : ℕ) (position : List Exact) : Prop :=
  ∃ y : Fin n → ℝ, (∀ i, 0 < y i) ∧ position = vectorOf y

theorem Positive.start (hS : S.PosDef) : Positive n (start (matrixOf S)) :=
  ⟨_, unitSum_pos (inverseDeviations_pos hS), start_exact hS⟩

theorem Positive.update {position : List Exact} (h : Positive n position) (hS : S.PosDef) (i : Fin n) :
    Positive n (update (matrixOf S) position i) := by
  obtain ⟨y, hy, rfl⟩ := h
  exact ⟨_, (update_of_pos hS hy i).after, update_exact hS.diag_pos⟩

/-- Positions stay positive in any number of sweeps. -/
theorem positive_reached (hS : S.PosDef) (sweeps : ℕ) {updates : ℕ} (h : updates ≤ n) :
    Positive n (reached (matrixOf S) sweeps updates) := by
  -- each sweep is an induction of its own on the updates, from where the last one ended
  have hsweep (k : ℕ) (hstart : Positive n (reached (matrixOf S) k 0)) {j : ℕ} (hj : j ≤ n) :
      Positive n (reached (matrixOf S) k j) := by
    induction j with
    | zero => exact hstart
    | succ j ih =>
      rw [reached_succ]
      exact (ih (Nat.le_of_succ_le hj)).update hS ⟨j, hj⟩
  induction sweeps generalizing updates with
  | zero => exact hsweep 0 (.start hS) h
  | succ sweeps ih =>
    refine hsweep (sweeps + 1) ?_ h
    rw [reached_sweep, length_matrixOf]
    exact ih le_rfl

/-! ## The test of convergence -/

/-- The share of a coordinate in the risk of weights. -/
noncomputable def riskShare (S : Matrix (Fin n) (Fin n) ℝ) (w : Fin n → ℝ) (i : Fin n) : ℝ :=
  w i * (S *ᵥ w) i / (w ⬝ᵥ S *ᵥ w)

/-- All shares of risk are closer to the budget than a tolerance. -/
def EqualRisk (S : Matrix (Fin n) (Fin n) ℝ) (tolerance : ℝ) (w : Fin n → ℝ) : Prop :=
  ∀ i, |riskShare S w i - 1 / n| < tolerance

theorem variance_pos (hS : S.PosDef) (hy : ∀ i, 0 < y i) : 0 < y ⬝ᵥ S *ᵥ y :=
  variance_pos_of_ne hS fun h => (hy 0).ne' (congrFun h 0)

/-- Weights with some risk pass the test if all shares of risk are close to the budget. -/
theorem imbalance_exact_lt_iff (hrisk : 0 < y ⬝ᵥ S *ᵥ y) {tolerance : ℝ} :
    (∃ gap, imbalance? (matrixOf S) (vectorOf y) = some gap ∧ gap < number tolerance) ↔
      EqualRisk S tolerance y := by
  have hparts : contributions (matrixOf S) (vectorOf y) = vectorOf fun i => y i * (S *ᵥ y) i := by
    rw [contributions, mulVec_matrixOf, zipWith_mul_vectorOf]
  have htotal : Scalar.sum (vectorOf fun i => y i * (S *ᵥ y) i) = number (y ⬝ᵥ S *ᵥ y) := sum_vectorOf _
  have hpositive : (0 : Exact) < number (y ⬝ᵥ S *ᵥ y) := hrisk
  have hshares : (vectorOf fun i => y i * (S *ᵥ y) i).map (fun p =>
        Scalar.magnitude (p / number (y ⬝ᵥ S *ᵥ y) - budget n)) =
      vectorOf fun i => |riskShare S y i - 1 / n| :=
    map_vectorOf fun i => by
      rw [number_div hrisk.ne', budget_exact, number_sub, magnitude_number, riskShare]
  simp only [imbalance?, hparts, htotal, if_pos hpositive, length_matrixOf, hshares, Option.some.injEq,
    exists_eq_left']
  rw [largest_vectorOf_lt_iff]
  exact and_iff_right_of_imp fun h => (abs_nonneg _).trans_lt (h 0)

/-- The weights after a sweep are positive numbers of sum one, and have some risk. The test passes if it is
shared equally. -/
theorem exists_weightsAfter (hS : S.PosDef) (sweeps : ℕ) :
    ∃ y : Fin n → ℝ, reached (matrixOf S) sweeps 0 = vectorOf y ∧ (∀ i, 0 < y i) ∧
      weightsAfter (matrixOf S) sweeps = vectorOf (unitSum y) ∧ 0 < unitSum y ⬝ᵥ S *ᵥ unitSum y ∧
      ∀ tolerance, Stops (matrixOf S) (number tolerance) sweeps ↔ EqualRisk S tolerance (unitSum y) := by
  obtain ⟨y, hy, hreached⟩ := positive_reached hS sweeps (Nat.zero_le n)
  have hweights : weightsAfter (matrixOf S) sweeps = vectorOf (unitSum y) := by
    rw [weightsAfter, hreached, toUnitSum_exact hy]
  have hrisk := variance_pos hS (unitSum_pos hy)
  refine ⟨y, hreached, hy, hweights, hrisk, fun tolerance => ?_⟩
  rw [Stops, hweights]
  exact imbalance_exact_lt_iff hrisk

/-- How an attempt with a limit on its sweeps ends. -/
inductive Ends (M : Matrix (Fin n) (Fin n) ℝ) (sweeps : ℤ) (tolerance : ℝ) :
    Except Failure (Attempt Exact) → Prop
  /-- No sweep passes the test of convergence. -/
  | exhausted (hnone : ∀ k : ℕ, 1 ≤ k → k ≤ sweeps →
        ¬ Stops (normalized (matrixOf M)) (number tolerance) k) :
      Ends M sweeps tolerance (.ok (.failed .sweepLimit sweeps.toNat))
  /-- Sweep `k` is the first to pass, and its weights share the risk equally. -/
  | converged (k : ℕ) (w : Fin n → ℝ) (hlow : 1 ≤ k) (hhigh : k ≤ sweeps)
      (hfirst : ∀ j, 1 ≤ j → j < k → ¬ Stops (normalized (matrixOf M)) (number tolerance) j)
      (hweights : weightsAfter (normalized (matrixOf M)) k = vectorOf w)
      (hpos : ∀ i, 0 < w i) (hsum : ∑ i, w i = 1) (hequal : EqualRisk (relative M) tolerance w) :
      Ends M sweeps tolerance (.ok { weights := some (vectorOf w), converged := true, iterations := k })

theorem attempt_ends {M : Matrix (Fin n) (Fin n) ℝ} (hM : M.PosDef) (sweeps : ℤ) (tolerance : ℝ)
    (mean : List Exact) :
    Ends M sweeps tolerance (attempt (.ok sweeps) (.ok (number tolerance)) ⟨matrixOf M, mean⟩) := by
  have hrun : attempt (.ok sweeps) (.ok (number tolerance)) ⟨matrixOf M, mean⟩ =
      descend (normalized (matrixOf M)) (.ok (number tolerance)) sweeps.toNat 0
        (reached (normalized (matrixOf M)) 0 0) := rfl
  rw [hrun]
  rcases descend_eq (normalized (matrixOf M)) (number tolerance) sweeps.toNat 0 with
    ⟨hfail, hnone⟩ | ⟨k, hlow, hhigh, hstops, hfirst, hok⟩
  · rw [hfail, Nat.zero_add]
    exact .exhausted fun k hlow hhigh => hnone k hlow (by omega)
  · obtain ⟨y, -, hy, hweights, -, hiff⟩ := exists_weightsAfter (relative_posDef hM) k
    rw [← normalized_matrixOf hM] at hweights hiff
    rw [hok, hweights]
    exact .converged k _ hlow (by omega) hfirst hweights (unitSum_pos hy) (sum_unitSum hy)
      ((hiff tolerance).mp hstops)

/-- The descent is sound for every positive definite covariance. All that it takes roots of and divides by is
positive, at every update of every sweep; an update leaves a positive position, gives its coordinate exactly
its budget of risk and never raises the potential. An attempt ends within its sweeps, and weights that it
reports are positive, of sum one and equal in their shares of risk up to the tolerance. -/
theorem equal_risk_descent {M : Matrix (Fin n) (Fin n) ℝ} (hM : M.PosDef) :
    (0 < meanVariance M ∧ normalized (matrixOf M) = matrixOf (relative M)) ∧
    ((∀ i, 0 < √(relative M i i)) ∧ 0 < ∑ i, inverseDeviations (relative M) i ∧
      reached (normalized (matrixOf M)) 0 0 = vectorOf (unitSum (inverseDeviations (relative M)))) ∧
    (∀ sweeps, (∀ i : Fin n, ∃ y z : Fin n → ℝ, reached (normalized (matrixOf M)) sweeps i = vectorOf y ∧
        reached (normalized (matrixOf M)) sweeps (i + 1) = vectorOf z ∧ Update (relative M) i y z) ∧
      reached (normalized (matrixOf M)) (sweeps + 1) 0 = reached (normalized (matrixOf M)) sweeps n) ∧
    (∀ sweeps, ∃ y : Fin n → ℝ, reached (normalized (matrixOf M)) sweeps 0 = vectorOf y ∧ (∀ i, 0 < y i) ∧
      0 < ∑ i, y i ∧ weightsAfter (normalized (matrixOf M)) sweeps = vectorOf (unitSum y) ∧
      0 < unitSum y ⬝ᵥ relative M *ᵥ unitSum y ∧
      ∀ tolerance, Stops (normalized (matrixOf M)) (number tolerance) sweeps ↔
        EqualRisk (relative M) tolerance (unitSum y)) ∧
    ∀ sweeps tolerance mean,
      Ends M sweeps tolerance (attempt (.ok sweeps) (.ok (number tolerance)) ⟨matrixOf M, mean⟩) := by
  have hS : (relative M).PosDef := relative_posDef hM
  rw [normalized_matrixOf hM]
  refine ⟨⟨meanVariance_pos hM, rfl⟩, ⟨fun i => Real.sqrt_pos.mpr hS.diag_pos,
    sum_pos_of_pos (inverseDeviations_pos hS), start_exact hS⟩, fun sweeps => ⟨fun i => ?_, ?_⟩,
    fun sweeps => ?_, attempt_ends hM⟩
  · obtain ⟨y, hy, hreached⟩ := positive_reached hS sweeps i.is_lt.le
    refine ⟨y, _, hreached, ?_, update_of_pos hS hy i⟩
    rw [reached_succ, hreached, update_exact hS.diag_pos]
  · rw [reached_sweep, length_matrixOf]
  · obtain ⟨y, hreached, hy, hrest⟩ := exists_weightsAfter hS sweeps
    exact ⟨y, hreached, hy, sum_pos_of_pos hy, hrest⟩

/-- A negative covariance: the first update moves the first coordinate from one half to three quarters. -/
theorem equal_risk_descent_negative_covariance :
    let M : Matrix (Fin 2) (Fin 2) ℝ := !![6, -1; -1, 6]
    M.PosDef ∧ reached (normalized (matrixOf M)) 0 0 = vectorOf ![1 / 2, 1 / 2] ∧
      reached (normalized (matrixOf M)) 0 1 = vectorOf ![3 / 4, 1 / 2] := by
  intro M
  have hparts : M = (5 : ℝ) • 1 + vecMulVec ![1, -1] (star ![1, -1]) := by
    ext i j
    fin_cases i <;> fin_cases j <;> norm_num [M, vecMulVec]
  have hM : M.PosDef := by
    rw [hparts]
    exact (PosDef.one.smul (by norm_num)).add_posSemidef (posSemidef_vecMulVec_self_star _)
  have hscale : meanVariance M = 6 := by norm_num [meanVariance, M, trace_fin_two]
  have hrelative : relative M = !![1, -1 / 6; -1 / 6, 1] := by
    rw [relative, hscale]
    ext i j
    fin_cases i <;> fin_cases j <;> norm_num [M]
  have hstart : unitSum (inverseDeviations (relative M)) = ![1 / 2, 1 / 2] := by
    rw [hrelative]
    ext i
    fin_cases i <;> norm_num [unitSum, inverseDeviations]
  obtain ⟨-, ⟨-, -, hfirst⟩, hupdates, -⟩ := equal_risk_descent hM
  rw [hstart] at hfirst
  obtain ⟨y, z, hy, hz, hupdate⟩ := (hupdates 0).1 0
  have hbefore : y = ![1 / 2, 1 / 2] := vectorOf_injective (hy.symm.trans hfirst)
  have hkept : z 1 = 1 / 2 := by
    rw [hupdate.moved, hbefore]
    simp
  have hbudget := hupdate.contribution
  rw [hrelative] at hbudget
  simp only [mulVec, dotProduct, Fin.sum_univ_two, hkept, of_apply, cons_val_zero, cons_val_one] at hbudget
  have hfactors : (z 0 - 3 / 4) * (z 0 + 2 / 3) = 0 := by
    push_cast at hbudget
    linear_combination hbudget
  have hvalue : z 0 = 3 / 4 := by
    rcases mul_eq_zero.mp hfactors with h | h
    · exact sub_eq_zero.mp h
    · linarith [hupdate.after 0]
  have hafter : z = ![3 / 4, 1 / 2] := by
    ext i
    fin_cases i
    · exact hvalue
    · exact hkept
  exact ⟨hM, hfirst, hafter ▸ hz⟩

end Exact

end PortfolioLab.RiskParity
