import PortfolioLab.Proofs.LinearPrograms
import PortfolioLab.Proofs.LongRun
import PortfolioLab.Proofs.UnitShocks

/-!
# Feasible parameters

The bounds of a fit keep the constant of an equation positive and its weights at least zero. With such parameters
no variance falls below the constant, neither over a series nor in its projection. So the likelihood exists wherever
a fit looks for it, and no forecast is given up because of its path. The parameters from which a fit starts are
feasible, with room to the margin of stationarity, whatever the numbers of weights are.
-/

namespace PortfolioLab

open Exact

namespace FitProblem

/-! ## The bounds of a fit -/

/-- The bounds on the parameters of a fit with `p` and `q` weights, and the margin by which the weights sum
below one. -/
structure WithinBounds (p q : ℕ) (constant : ℝ) (weights : List ℝ) : Prop where
  length : weights.length = p + q
  constant_mem : 1e-8 ≤ constant ∧ constant ≤ 10
  weights_mem : ∀ w ∈ weights, 0 ≤ w ∧ w ≤ 1
  margin : weights.sum ≤ 1 - 1e-6

variable {problem : FitProblem Exact} {constant : ℝ} {weights : List ℝ}

theorem constant_range_holds (x : ℝ) :
    (⟨some 1e-8, some 10.0⟩ : Range Exact).Holds (number x) ↔ 1e-8 ≤ x ∧ x ≤ 10 := by
  have hupper : ((10.0 : Exact)) = number 10 := by
    rw [ofScientific_eq]
    norm_num
  simp [Range.Holds, ofScientific_eq, hupper]

/-- The only row of the constraints adds up the weights. -/
theorem dot_weights (constant : ℝ) (weights : List ℝ) :
    Scalar.dot (0 :: Scalar.ones weights.length) ((constant :: weights).map number) = number weights.sum := by
  have hones : (0 :: Scalar.ones weights.length : List Exact) =
      (0 :: List.replicate weights.length 1).map number := by
    simp [Scalar.ones, zero_eq, one_eq]
  rw [hones, dot_number, realDot_cons, realDot_replicate, zero_mul, zero_add, one_mul]

/-- The feasible points of a fit are the parameters within the bounds. -/
theorem feasible_constraints_iff :
    problem.constraints.Feasible ((constant :: weights).map number) ↔
      WithinBounds problem.p problem.q constant weights := by
  have hmargin : (1 - stationarityMargin : Exact) = number (1 - 1e-6) := by
    rw [stationarityMargin, one_eq, ofScientific_eq, number_sub]
  constructor
  · intro h
    have hlength : weights.length = problem.p + problem.q := by
      simpa [constraints] using h.length
    have hlimit := h.limits _ (List.mem_singleton_self _)
    have hranges := h.ranges
    simp only [constraints, ← hlength, List.map_cons, List.zip_cons_cons, replicate_zip_number,
      List.forall_mem_cons, List.forall_mem_map, share_holds, constant_range_holds] at hranges
    rw [← hlength, dot_weights, hmargin, number_le] at hlimit
    exact ⟨hlength, hranges.1, hranges.2, hlimit⟩
  · intro h
    refine ⟨by simp [constraints, h.length], ?_, ?_, ?_⟩
    · intro row hrow
      obtain rfl := List.mem_singleton.mp hrow
      rw [← h.length, dot_weights, hmargin, number_le]
      exact h.margin
    · exact fun row hrow => absurd hrow List.not_mem_nil
    · simp only [constraints, ← h.length, List.map_cons, List.zip_cons_cons, replicate_zip_number,
        List.forall_mem_cons, List.forall_mem_map, share_holds, constant_range_holds]
      exact ⟨h.constant_mem, h.weights_mem⟩

end FitProblem

namespace VarianceEquation

/-! ## Starting parameters -/

section Start

variable {p q : ℕ}

theorem shares_number (total : ℝ) {n : ℕ} (hn : n ≠ 0) :
    shares (number total) n = .ok ((List.replicate n (total / n)).map number) := by
  have hcount : (Scalar.ofRatio n 1 : Exact) = number n := by
    have hratio : (Scalar.ofRatio n 1 : Exact) = number ((n : ℤ) : ℝ) / number ((1 : ℤ) : ℝ) := rfl
    rw [hratio, Int.cast_one, number_div one_ne_zero, div_one, Int.cast_natCast]
  rw [shares, if_neg (Int.natCast_ne_zero.mpr hn), hcount, number_div (Nat.cast_ne_zero.mpr hn),
    Int.toNat_natCast, List.map_replicate]

theorem sum_shares {total : ℝ} {n : ℕ} (h : n = 0 → total = 0) : (List.replicate n (total / n)).sum = total := by
  by_cases hn : n = 0
  · rw [h hn, hn]
    rfl
  · rw [List.sum_replicate, nsmul_eq_mul, mul_div_cancel₀ _ (Nat.cast_ne_zero.mpr hn)]

theorem share_bounds {total : ℝ} (htotal : 0 ≤ total) (hone : total ≤ 1) (n : ℕ) :
    ∀ w ∈ List.replicate n (total / n), 0 ≤ w ∧ w ≤ 1 := by
  intro w hw
  obtain ⟨hn, rfl⟩ := List.mem_replicate.mp hw
  have hcount : (1 : ℝ) ≤ n := by exact_mod_cast Nat.one_le_iff_ne_zero.mpr hn
  exact ⟨div_nonneg htotal n.cast_nonneg, (div_le_self htotal hcount).trans hone⟩

/-- The total of the shock weights from which a fit starts; with no variance weights they carry more. -/
noncomputable def startingShockTotal (q : ℕ) : ℝ := if q = 0 then 0.3 else 0.05

noncomputable def startingVarianceTotal (q : ℕ) : ℝ := if q = 0 then 0 else 0.9

noncomputable def startingWeights (p q : ℕ) : List ℝ :=
  List.replicate p (startingShockTotal q / p) ++ List.replicate q (startingVarianceTotal q / q)

theorem startingShocks_eq (q : ℕ) :
    (if (0 : ℤ) < q then 0.05 else 0.3 : Exact) = number (startingShockTotal q) := by
  by_cases hq : q = 0
  · rw [startingShockTotal, if_pos hq, if_neg (by omega), ofScientific_eq]
  · rw [startingShockTotal, if_neg hq, if_pos (by omega), ofScientific_eq]

theorem startingVariances_eq (q : ℕ) :
    (if (0 : ℤ) < q then shares 0.9 q else pure [] : Except Failure (List Exact)) =
      .ok ((List.replicate q (startingVarianceTotal q / q)).map number) := by
  by_cases hq : q = 0
  · subst hq
    rfl
  · rw [startingVarianceTotal, if_neg hq, if_pos (by omega), ofScientific_eq, shares_number _ hq]

/-- A fit starts from equal shares of the totals, and from a constant that makes the long-run variance one. -/
theorem startingParameters_number (hp : p ≠ 0) (q : ℕ) :
    startingParameters p q = .ok
      (((1 - (startingWeights p q).sum) :: startingWeights p q).map number) := by
  have hparts : (startingParameters p q : Except Failure (List Exact)) =
      shares (if (0 : ℤ) < q then 0.05 else 0.3) p >>= fun shockWeights =>
        (if (0 : ℤ) < q then shares 0.9 q else pure []) >>= fun varianceWeights =>
          pure ((1 - Scalar.runningSum 0 shockWeights - Scalar.runningSum 0 varianceWeights) ::
            (shockWeights ++ varianceWeights)) := by
    unfold startingParameters
    by_cases hq : (0 : ℤ) < q
    · simp only [if_pos hq]
    · simp only [if_neg hq]
  rw [hparts, startingShocks_eq, shares_number _ hp, ok_bind, startingVariances_eq, ok_bind,
    runningSum_number, runningSum_number, one_eq, number_sub, number_sub, startingWeights, List.sum_append,
    sub_sub, List.map_cons, List.map_append]
  rfl

theorem startingTotals_bounds (q : ℕ) :
    0 ≤ startingShockTotal q ∧ 0 ≤ startingVarianceTotal q ∧
      startingShockTotal q + startingVarianceTotal q ≤ 0.95 ∧ (q = 0 → startingVarianceTotal q = 0) := by
  by_cases hq : q = 0
  · norm_num [startingShockTotal, startingVarianceTotal, hq]
  · norm_num [startingShockTotal, startingVarianceTotal, hq]

theorem sum_startingWeights (hp : p ≠ 0) (q : ℕ) :
    (startingWeights p q).sum = startingShockTotal q + startingVarianceTotal q := by
  obtain ⟨-, -, -, hnone⟩ := startingTotals_bounds q
  rw [startingWeights, List.sum_append, sum_shares fun h => absurd h hp, sum_shares hnone]

/-- The starting parameters are within the bounds, with room to the margin of stationarity. -/
theorem withinBounds_startingWeights (hp : p ≠ 0) (q : ℕ) :
    FitProblem.WithinBounds p q (1 - (startingWeights p q).sum) (startingWeights p q) ∧
      (startingWeights p q).sum < 1 - 1e-6 := by
  obtain ⟨hshocks, hvariances, htotal, -⟩ := startingTotals_bounds q
  have hsum := sum_startingWeights hp q
  have hbelow : (startingWeights p q).sum < 1 - 1e-6 := by
    rw [hsum]
    exact htotal.trans_lt (by norm_num)
  refine ⟨⟨by simp [startingWeights], ⟨?_, ?_⟩, ?_, hbelow.le⟩, hbelow⟩
  · norm_num at htotal ⊢
    linarith
  · linarith
  · rw [startingWeights, List.forall_mem_append]
    norm_num at htotal
    exact ⟨share_bounds hshocks (by linarith) p, share_bounds hvariances (by linarith) q⟩

end Start

/-! ## Variances of real series -/

section Floor

variable {e : VarianceEquation Exact} {c backcast : ℝ} {shocks variances : List ℝ}

theorem Floored.exists_variances (h : e.Floored c) (hc : 0 ≤ c) (hbackcast : 0 ≤ backcast)
    (hshocks : ∀ x ∈ shocks, 0 ≤ x) :
    ∃ variances : List ℝ, e.variances (number backcast) (shocks.map number) = variances.map number ∧
      variances.length = shocks.length ∧ ∀ v ∈ variances, c ≤ v := by
  obtain ⟨variances, hvariances, hfloor⟩ :=
    exists_reals_of_atLeast (h.variances hc ⟨backcast, hbackcast, rfl⟩ (atLeast_of_reals hshocks))
  have hlength := e.length_variances (number backcast) (shocks.map number)
  rw [hvariances, List.length_map, List.length_map] at hlength
  exact ⟨variances, hvariances, hlength, hfloor⟩

theorem Floored.exists_path (h : e.Floored c) (hc : 0 ≤ c) (hshocks : ∀ x ∈ shocks, 0 ≤ x)
    (hvariances : ∀ v ∈ variances, 0 ≤ v) (horizon : ℕ) :
    ∃ path : List ℝ, e.project (shocks.map number) (variances.map number) horizon = path.map number ∧
      path.length = horizon ∧ ∀ v ∈ path, c ≤ v := by
  obtain ⟨path, hpath, hfloor⟩ :=
    exists_reals_of_atLeast (h.project hc horizon (atLeast_of_reals hshocks) (atLeast_of_reals hvariances))
  have hlength := e.length_project (shocks.map number) (variances.map number) horizon
  rw [hpath, List.length_map] at hlength
  exact ⟨path, hpath, hlength, hfloor⟩

end Floor

end VarianceEquation

namespace FitProblem

/-! ## Admissible parameters -/

open VarianceEquation VolatilityForecast

section Admissible

variable {problem : FitProblem Exact} {outcome : FitOutcome Exact} {p q : ℕ} {constant backcast scale : ℝ}
  {weights shocks : List ℝ}

/-- Parameters with a positive constant, and with `p` and `q` weights of which none is negative. -/
structure Admissible (p q : ℕ) (constant : ℝ) (weights : List ℝ) : Prop where
  length : weights.length = p + q
  constant_pos : 0 < constant
  weights_nonneg : ∀ w ∈ weights, 0 ≤ w

theorem WithinBounds.admissible (h : WithinBounds p q constant weights) : Admissible p q constant weights where
  length := h.length
  constant_pos := lt_of_lt_of_le (by norm_num) h.constant_mem.1
  weights_nonneg := fun w hw => (h.weights_mem w hw).1

theorem Admissible.count (h : Admissible p q constant weights) :
    ((constant :: weights).map number).length = 1 + p + q := by
  rw [List.length_map, List.length_cons, h.length]
  omega

theorem Admissible.floored (problem : FitProblem Exact) (h : Admissible problem.p problem.q constant weights) :
    (problem.equation ((constant :: weights).map number)).Floored constant := by
  have hequation : problem.equation ((constant :: weights).map number) =
      ofReals constant (weights.take problem.p) ((weights.drop problem.p).take problem.q) := by
    simp [equation, ofReals]
  rw [hequation]
  exact floored_number constant (fun w hw => h.weights_nonneg w (List.mem_of_mem_take hw))
    fun w hw => h.weights_nonneg w (List.mem_of_mem_drop (List.mem_of_mem_take hw))

theorem Admissible.isUsable (h : Admissible p q constant weights)
    (hparameters : outcome.parameters = (constant :: weights).map number) (hconverged : outcome.converged = true) :
    VolatilityForecast.isUsable outcome = true := by
  have hweights : (weights.map number).all (fun w => decide (0 ≤ w)) = true := by
    rw [List.all_eq_true]
    intro w hw
    obtain ⟨v, hv, rfl⟩ := List.mem_map.mp hw
    exact decide_eq_true (h.weights_nonneg v hv)
  have hconstant : decide ((0 : Exact) < number constant) = true := decide_eq_true h.constant_pos
  rw [VolatilityForecast.isUsable, hparameters, hconverged, all_isFinite_number, List.map_cons, List.headD_cons,
    List.tail_cons, hweights, hconstant]
  rfl

theorem isStationary_iff (hparameters : outcome.parameters = (constant :: weights).map number) :
    isStationary outcome = true ↔ weights.sum < 1 := by
  rw [isStationary, hparameters, List.map_cons, List.tail_cons, sum_number, one_eq, decide_eq_true_iff, number_lt]

theorem ready_plainProblem (hbackcast : 0 ≤ backcast) (hshocks : ∀ x ∈ shocks, 0 ≤ x) (hp : p ≤ shocks.length)
    (hq : q ≤ shocks.length) : (plainProblem p q shocks backcast).Ready :=
  ⟨atLeast_of_reals hshocks, ⟨backcast, hbackcast, rfl⟩, hp.trans_eq (List.length_map _).symm,
    hq.trans_eq (List.length_map _).symm⟩

/-- Admissible parameters give variances not below the constant, and have the likelihood of these. -/
theorem Admissible.exists_variances (h : Admissible p q constant weights) (hbackcast : 0 ≤ backcast)
    (hshocks : ∀ x ∈ shocks, 0 ≤ x) :
    ∃ variances : List ℝ,
      ((plainProblem p q shocks backcast).equation ((constant :: weights).map number)).variances
        (number backcast) (shocks.map number) = variances.map number ∧
      variances.length = shocks.length ∧ (∀ v ∈ variances, constant ≤ v) ∧
      (variances.map number).all isVariance = true ∧
      (plainProblem p q shocks backcast).deviance ((constant :: weights).map number) =
        number (1 / 2 * (List.zipWith surprise variances shocks).sum) := by
  have hfloored := h.floored (plainProblem p q shocks backcast)
  obtain ⟨variances, hvariances, hlength, hfloor⟩ :=
    hfloored.exists_variances h.constant_pos.le hbackcast hshocks
  have hpositive : ∀ v ∈ variances, 0 < v := fun v hv => h.constant_pos.trans_le (hfloor v hv)
  refine ⟨variances, hvariances, hlength, hfloor, all_isVariance_number hpositive, ?_⟩
  exact (congrArg (negativeLogLikelihood · (shocks.map number)) hvariances).trans
    (negativeLogLikelihood_number hpositive shocks)

/-- A converged fit of such parameters, with weights that sum below one, has a forecast, the path of which is the
projection, scaled back. -/
theorem Admissible.exists_forecast {variances path : List ℝ} {horizon : ℕ}
    (h : Admissible p q constant weights) (hready : (plainProblem p q shocks backcast).Ready)
    (hparameters : outcome.parameters = (constant :: weights).map number)
    (hvariances : ((plainProblem p q shocks backcast).equation ((constant :: weights).map number)).variances
      (number backcast) (shocks.map number) = variances.map number)
    (hpath : ((plainProblem p q shocks backcast).equation ((constant :: weights).map number)).project
      (shocks.map number) (variances.map number) horizon = path.map number)
    (hconverged : outcome.converged = true) (hsum : weights.sum < 1) (hscale : 0 < scale) (mean : Exact) :
    ∃ f, ofOutcome (plainProblem p q shocks backcast) (number scale) mean horizon outcome = .ok f ∧
      f.path = path.map fun v => number (v * scale) := by
  let fit : Fitter Exact := fun _ => .ok outcome
  have hfit : fit (plainProblem p q shocks backcast) = .ok outcome := rfl
  have hcount : outcome.parameters.length = 1 + p + q := hparameters ▸ h.count
  obtain ⟨f, hf, -⟩ := ofOutcome_byEquation hfit hcount (h.isUsable hparameters hconverged)
    ((isStationary_iff hparameters).mpr hsum) hready hscale mean horizon
  have hscaled : f.path = (path.map number).map (· * number scale) := by
    rw [← hpath, ← hvariances, ← hparameters]
    exact (reports_of_ofOutcome hf).path
  refine ⟨f, hf, ?_⟩
  rw [hscaled, List.map_map]
  rfl

end Admissible

/-- A variance equation stays positive on the feasible set of a fit. Feasible parameters are admissible. With these,
the variances of squared shocks, however many, are not below the constant, so that the negative log-likelihood is
never the penalty; where the series is as long as the lags reach, the projection to any horizon is not below the
constant either, and a converged fit of a stationary equation has the projection, scaled back, as its forecast.
Whatever the fit reports, no forecast is given up because of its path. The starting parameters are feasible. -/
theorem positive_on_feasible_set {p q : ℕ} (hp : 1 ≤ p) :
    (∀ {problem : FitProblem Exact} {constant : ℝ} {weights : List ℝ},
      problem.constraints.Feasible ((constant :: weights).map number) →
        Admissible problem.p problem.q constant weights) ∧
    (∀ {constant backcast : ℝ} {weights shocks : List ℝ}, Admissible p q constant weights → 0 ≤ backcast →
      (∀ x ∈ shocks, 0 ≤ x) →
      let parameters := (constant :: weights).map number
      let problem := plainProblem p q shocks backcast
      ∃ variances : List ℝ,
        conditionalVariances p q parameters (shocks.map number) (number backcast) = .ok (variances.map number) ∧
        variances.length = shocks.length ∧ (∀ v ∈ variances, constant ≤ v) ∧
        (variances.map number).all isVariance = true ∧
        problem.deviance parameters = number (1 / 2 * (List.zipWith surprise variances shocks).sum) ∧
        (max p q ≤ shocks.length → ∀ horizon, ∃ path : List ℝ,
          projectedVariances p q parameters (shocks.map number) (variances.map number) horizon =
            .ok (path.map number) ∧
          path.length = horizon ∧ (∀ v ∈ path, constant ≤ v) ∧
          ∀ {scale : ℝ} {mean : Exact} {outcome : FitOutcome Exact}, 0 < scale →
            outcome.parameters = parameters → outcome.converged = true → weights.sum < 1 →
            ∃ f, ofOutcome problem (number scale) mean horizon outcome = .ok f ∧
              f.path = path.map fun v => number (v * scale))) ∧
    (∀ {fit : Fitter Exact}, (∀ problem, FitterOutcome problem (fit problem)) →
      ∀ (minimum : ℝ) (centered : Bool) (horizon : ℕ) (returns : List ℝ),
      ∃ f, ofReturns fit (.ok (number minimum)) p q centered horizon (returns.map number) = .ok f ∧
        f.reason ≠ .invalidForecast) ∧
    ∃ (constant : ℝ) (weights : List ℝ), startingParameters p q = .ok ((constant :: weights).map number) ∧
      1e-8 ≤ constant ∧ constant ≤ 10 ∧ (∀ w ∈ weights, 0 ≤ w ∧ w ≤ 1) ∧ weights.sum < 1 - 1e-6 ∧
      ∀ shocks backcast, (FitProblem.mk p q shocks backcast).constraints.Feasible
        ((constant :: weights).map number) := by
  refine ⟨fun h => (feasible_constraints_iff.mp h).admissible, ?_, ?_, ?_⟩
  · intro constant backcast weights shocks h hbackcast hshocks parameters problem
    have hcount : parameters.length = 1 + problem.p + problem.q := h.count
    obtain ⟨variances, hvariances, hlength, hfloor, hall, hdeviance⟩ := h.exists_variances hbackcast hshocks
    have hconditional := conditionalVariances_equation hcount problem.shocks problem.backcast
    refine ⟨variances, hconditional.trans (congrArg _ hvariances), hlength, hfloor, hall, hdeviance, ?_⟩
    intro hlong horizon
    have hready := ready_plainProblem hbackcast hshocks (le_of_max_le_left hlong) (le_of_max_le_right hlong)
    have hlast : q ≤ (variances.map number).length := by
      rw [List.length_map, hlength]
      exact le_of_max_le_right hlong
    obtain ⟨path, hpath, hperiods, hprojected⟩ := (h.floored problem).exists_path h.constant_pos.le hshocks
      (fun v hv => h.constant_pos.le.trans (hfloor v hv)) horizon
    have hproject := projectedVariances_equation hcount hready.shockWeights hlast horizon
    refine ⟨path, hproject.trans (congrArg _ hpath), hperiods, hprojected, ?_⟩
    intro scale mean outcome hscale hparameters hconverged hsum
    exact h.exists_forecast hready hparameters hvariances hpath hconverged hsum hscale mean
  · intro fit hfit minimum centered horizon returns
    obtain ⟨f, hf, hreason, -⟩ := ofReturns_settled hfit minimum p q centered horizon returns
    exact ⟨f, hf, hreason⟩
  · have hp : p ≠ 0 := Nat.one_le_iff_ne_zero.mp hp
    obtain ⟨hbounds, hsum⟩ := withinBounds_startingWeights hp q
    exact ⟨_, _, startingParameters_number hp q, hbounds.constant_mem.1, hbounds.constant_mem.2,
      hbounds.weights_mem, hsum, fun _ _ => feasible_constraints_iff.mpr hbounds⟩

/-- Two shock weights and one variance weight over a series that starts without a shock, so that the first variance
is the constant. -/
theorem positive_on_feasible_set_no_first_shock :
    let parameters : List Exact := [1 / 2, 1 / 4, 0, 1 / 4].map number
    let problem := plainProblem 2 1 [0, 4, 0] 0
    let outcome : FitOutcome Exact := ⟨parameters, 0, true, "", 3⟩
    let fit : Fitter Exact := fun problem =>
      if problem.p = 2 ∧ problem.q = 1 then .ok outcome else .error .singularMatrix
    (conditionalVariances 2 1 parameters ([0, 4, 0].map number) (number 0) =
        .ok ([1 / 2, 5 / 8, 53 / 32].map number) ∧
      (∀ v ∈ ([1 / 2, 5 / 8, 53 / 32] : List ℝ), 1 / 2 ≤ v) ∧
      problem.deviance parameters =
        number (1 / 2 * (List.zipWith surprise [1 / 2, 5 / 8, 53 / 32] [0, 4, 0]).sum) ∧
      projectedVariances 2 1 parameters ([0, 4, 0].map number) ([1 / 2, 5 / 8, 53 / 32].map number) 2 =
        .ok ([117 / 128, 245 / 256].map number) ∧
      (∀ v ∈ ([117 / 128, 245 / 256] : List ℝ), 1 / 2 ≤ v) ∧
      ∃ f, ofOutcome problem (number 2) 0 2 outcome = .ok f ∧ f.path = [117 / 64, 245 / 128].map number) ∧
    (∃ f, ofReturns fit (.ok (number 5)) 2 1 false 2 ([1, -1, 1, -1, 1].map number) = .ok f ∧
      f.reason ≠ .invalidForecast) ∧
    startingParameters (2 : ℕ) (1 : ℕ) = .ok ([1 / 20, 1 / 40, 1 / 40, 9 / 10].map number) ∧
      problem.constraints.Feasible ([1 / 20, 1 / 40, 1 / 40, 9 / 10].map number) := by
  intro parameters problem outcome fit
  have hinjective := List.map_injective_iff.mpr fun (a b : ℝ) (h : number a = number b) => number.inj h
  have hconditional : conditionalVariances 2 1 parameters ([0, 4, 0].map number) (number 0) =
      .ok ([1 / 2, 5 / 8, 53 / 32].map number) := by
    norm_num [conditionalVariances, ofParameters, checkWeights, parameters, VarianceEquation.variances,
      variancesFrom, next, addProducts, slide, List.replicate, bind, Except.bind, pure, Except.pure]
  have hprojected : projectedVariances 2 1 parameters ([0, 4, 0].map number)
      ([1 / 2, 5 / 8, 53 / 32].map number) 2 = .ok ([117 / 128, 245 / 256].map number) := by
    norm_num [projectedVariances, ofParameters, checkWeights, parameters, project, projectFrom, latest, next,
      addProducts, slide, bind, Except.bind, pure, Except.pure]
  have hstart : startingParameters (2 : ℕ) (1 : ℕ) =
      .ok ([1 / 20, 1 / 40, 1 / 40, 9 / 10].map number) := by
    rw [startingParameters_number two_ne_zero]
    norm_num [startingWeights, startingShockTotal, startingVarianceTotal, List.replicate]
  have hadmissible : Admissible 2 1 (1 / 2) [1 / 4, 0, 1 / 4] := ⟨rfl, by norm_num, by norm_num⟩
  have hfit : ∀ problem, FitterOutcome problem (fit problem) := by
    intro problem
    by_cases h : problem.p = 2 ∧ problem.q = 1
    · simp [fit, outcome, parameters, FitterOutcome, h]
    · simp only [fit, if_neg h]
      rfl
  obtain ⟨-, hseries, hforecast, constant, weights, hbegin, -, -, -, -, hfeasible⟩ :=
    positive_on_feasible_set (by decide : 1 ≤ 2) (q := 1)
  obtain ⟨variances, hvariances, -, hfloor, -, hdeviance, hpath⟩ :=
    hseries hadmissible (le_refl (0 : ℝ)) (by norm_num : ∀ x ∈ ([0, 4, 0] : List ℝ), 0 ≤ x)
  obtain rfl := hinjective (Except.ok.inj (hconditional.symm.trans hvariances))
  obtain ⟨path, hprojection, -, hpathFloor, hmade⟩ := hpath (by decide) 2
  obtain rfl := hinjective (Except.ok.inj (hprojected.symm.trans hprojection))
  obtain ⟨f, hf, hscaled⟩ := hmade (by norm_num : (0 : ℝ) < 2) (rfl : outcome.parameters = _) rfl (by norm_num)
  have hsame := hinjective (Except.ok.inj (hbegin.symm.trans hstart))
  refine ⟨⟨hconditional, hfloor, hdeviance, hprojected, hpathFloor, f, hf, ?_⟩,
    hforecast hfit 5 false 2 [1, -1, 1, -1, 1], hstart, ?_⟩
  · rw [hscaled]
    norm_num
  · rw [← hsame]
    exact hfeasible _ _

end FitProblem
end PortfolioLab
