import PortfolioLab.Proofs.Forecasts

/-!
# Fits on shocks of unit mean square

A fit works on squared shocks over their mean, and its constant is multiplied by that mean afterwards. Where
squared shocks, backcast and constant of an equation are multiplied by one factor, so is every variance, over
the series and in the projection, and each period adds half the logarithm of the factor to the negative
log-likelihood. So a forecast reports the equation, the projection and the likelihood of the shocks as they
were.
-/

namespace PortfolioLab

/-! ## Multiplying by a positive number -/

namespace Exact

variable {s : ℝ}

theorem notANumber_mul (x : Exact) : notANumber * x = notANumber := by cases x <;> rfl

theorem infinite_mul_number (hs : 0 < s) (negative : Bool) :
    infinite negative * number s = infinite negative := by
  have hfactor : infinite negative * number s = infiniteBy s negative := rfl
  rw [hfactor, infiniteBy, if_neg hs.ne', decide_eq_false hs.le.not_gt, Bool.false_xor]

theorem infiniteBy_mul_number (hs : 0 < s) (x : ℝ) (negative : Bool) :
    infiniteBy x negative * number s = infiniteBy x negative := by
  unfold infiniteBy
  split
  · rfl
  · exact infinite_mul_number hs _

theorem infiniteBy_mul (hs : 0 < s) (x : ℝ) (negative : Bool) :
    infiniteBy (x * s) negative = infiniteBy x negative := by
  simp only [infiniteBy, mul_eq_zero, hs.ne', or_false, mul_neg_iff, hs, hs.le.not_gt, and_false, and_true,
    false_or]

theorem half_eq : (0.5 : Exact) = number (1 / 2) := by
  rw [ofScientific_eq]
  norm_num

/-- Infinities keep their sign under a positive factor, so it can be multiplied into a sum. -/
theorem add_mul_number (hs : 0 < s) (x y : Exact) : (x + y) * number s = x * number s + y * number s := by
  cases x with
  | number a =>
    cases y with
    | number b => simp only [number_add, number_mul, add_mul]
    | infinite u =>
      rw [infinite_mul_number hs]
      exact infinite_mul_number hs u
    | notANumber => rfl
  | infinite t =>
    cases y with
    | number b =>
      rw [infinite_mul_number hs]
      exact infinite_mul_number hs t
    | infinite u =>
      rw [infinite_mul_number hs, infinite_mul_number hs]
      by_cases h : t = u
      · have hsum : infinite t + infinite u = infinite t := if_pos h
        rw [hsum, infinite_mul_number hs]
      · have hsum : infinite t + infinite u = notANumber := if_neg h
        rw [hsum, notANumber_mul]
    | notANumber =>
      rw [infinite_mul_number hs]
      rfl
  | notANumber => cases y <;> rfl

theorem mul_mul_number (hs : 0 < s) (w x : Exact) : w * x * number s = w * (x * number s) := by
  cases w with
  | number a =>
    cases x with
    | number b => simp only [number_mul, mul_assoc]
    | infinite u =>
      rw [infinite_mul_number hs]
      exact infiniteBy_mul_number hs a u
    | notANumber => rfl
  | infinite t =>
    cases x with
    | number b => exact (infiniteBy_mul_number hs b t).trans (infiniteBy_mul hs b t).symm
    | infinite u =>
      rw [infinite_mul_number hs]
      exact infinite_mul_number hs _
    | notANumber => rfl
  | notANumber => rw [notANumber_mul, notANumber_mul, notANumber_mul]

end Exact

open Exact

/-! ## Rescaled equations -/

theorem slide_map {β γ : Type} (f : β → γ) (window : List β) (entry : β) :
    slide (window.map f) (f entry) = (slide window entry).map f := by
  rw [slide, slide, ← List.map_cons, List.map_dropLast]

namespace VarianceEquation

section Rescaled

variable {s : ℝ}

theorem addProducts_scaled (hs : 0 < s) (total : Exact) (weights entries : List Exact) :
    addProducts (total * number s) weights (entries.map (· * number s)) =
      addProducts total weights entries * number s := by
  induction weights generalizing total entries with
  | nil => rfl
  | cons w weights ih =>
    cases entries with
    | nil => rfl
    | cons x entries =>
      have hfirst : total * number s + w * (x * number s) = (total + w * x) * number s := by
        rw [add_mul_number hs, mul_mul_number hs]
      have hrest := ih (total + w * x) entries
      rw [← hfirst] at hrest
      exact hrest

variable (e : VarianceEquation Exact) (hs : 0 < s)
include hs

theorem next_rescaled (shocks variances : List Exact) :
    (e.rescaled (number s)).next (shocks.map (· * number s)) (variances.map (· * number s)) =
      e.next shocks variances * number s := by
  have hshare := addProducts_scaled hs e.constant e.shockWeights shocks
  rw [next, rescaled, hshare]
  exact addProducts_scaled hs _ _ _

theorem variancesFrom_rescaled (shocks variances series : List Exact) :
    (e.rescaled (number s)).variancesFrom (shocks.map (· * number s)) (variances.map (· * number s))
        (series.map (· * number s)) =
      (e.variancesFrom shocks variances series).map (· * number s) := by
  induction series generalizing shocks variances with
  | nil => rfl
  | cons x rest ih =>
    rw [List.map_cons, variancesFrom, next_rescaled e hs, slide_map (· * number s), slide_map (· * number s), ih,
      variancesFrom, List.map_cons]

/-- The variances of the rescaled series are the rescaled variances. -/
theorem variances_rescaled (backcast : Exact) (shocks : List Exact) :
    (e.rescaled (number s)).variances (backcast * number s) (shocks.map (· * number s)) =
      (e.variances backcast shocks).map (· * number s) := by
  rw [variances, variances, ← variancesFrom_rescaled e hs, List.map_replicate, List.map_replicate]
  rfl

theorem projectFrom_rescaled (horizon : ℕ) (shocks variances : List Exact) :
    (e.rescaled (number s)).projectFrom horizon (shocks.map (· * number s)) (variances.map (· * number s)) =
      (e.projectFrom horizon shocks variances).map (· * number s) := by
  induction horizon generalizing shocks variances with
  | zero => rfl
  | succ horizon ih =>
    rw [projectFrom, next_rescaled e hs, slide_map (· * number s), slide_map (· * number s), ih, projectFrom,
      List.map_cons]

/-- The projection of the rescaled series is the rescaled projection. -/
theorem project_rescaled (shocks variances : List Exact) (horizon : ℕ) :
    (e.rescaled (number s)).project (shocks.map (· * number s)) (variances.map (· * number s)) horizon =
      (e.project shocks variances horizon).map (· * number s) := by
  rw [project, project, ← projectFrom_rescaled e hs, latest, latest, latest, latest, ← List.map_reverse,
    ← List.map_reverse, ← List.map_take, ← List.map_take]
  rfl

end Rescaled

/-! ## The likelihood -/

section Likelihood

variable {s : ℝ} {vs xs : List ℝ}

/-- What a variance and a squared shock contribute to twice the negative log-likelihood. -/
noncomputable def surprise (v x : ℝ) : ℝ := Real.log (2.0 * Real.pi) + Real.log v + x / v

theorem surprise_scaled {v : ℝ} (hs : 0 < s) (hv : 0 < v) (x : ℝ) :
    surprise (v * s) (x * s) = surprise v x + Real.log s := by
  rw [surprise, surprise, Real.log_mul hv.ne' hs.ne', mul_div_mul_right _ _ hs.ne']
  ring

theorem sum_surprise_scaled (hs : 0 < s) (hvs : ∀ v ∈ vs, 0 < v) (hlength : vs.length = xs.length) :
    (List.zipWith surprise (vs.map (· * s)) (xs.map (· * s))).sum =
      (List.zipWith surprise vs xs).sum + xs.length * Real.log s := by
  induction vs generalizing xs with
  | nil =>
    rw [List.length_eq_zero_iff.mp hlength.symm]
    simp
  | cons v vs ih =>
    cases xs with
    | nil => exact absurd hlength (Nat.succ_ne_zero _)
    | cons x xs =>
      obtain ⟨hv, hvs⟩ := List.forall_mem_cons.mp hvs
      have hrest := ih hvs (Nat.succ_injective hlength)
      simp only [List.map_cons, List.zipWith_cons_cons, List.sum_cons, List.length_cons,
        surprise_scaled hs hv, hrest, Nat.cast_add, Nat.cast_one]
      ring

theorem all_isVariance_number (hvs : ∀ v ∈ vs, 0 < v) : (vs.map number).all isVariance = true := by
  rw [List.all_eq_true]
  intro v hv
  obtain ⟨u, hu, rfl⟩ := List.mem_map.mp hv
  rw [isVariance, isFinite_number, Bool.and_true]
  exact decide_eq_true (hvs u hu)

/-- Positive variances have a likelihood. -/
theorem negativeLogLikelihood_number (hvs : ∀ v ∈ vs, 0 < v) (xs : List ℝ) :
    negativeLogLikelihood (vs.map number) (xs.map number) =
      number (1 / 2 * (List.zipWith surprise vs xs).sum) := by
  have hconstant : Scalar.log ((2.0 : Exact) * Scalar.pi) = number (Real.log (2.0 * Real.pi)) := by
    have hnumber : (2.0 : Exact) * Scalar.pi = number (2.0 * Real.pi) := rfl
    rw [hnumber, log_number (by positivity)]
  have hterms : List.zipWith (fun v x => number (Real.log (2.0 * Real.pi)) + Scalar.log v + x / v)
      (vs.map number) (xs.map number) = (List.zipWith surprise vs xs).map number := by
    rw [List.zipWith_map, List.map_zipWith]
    refine List.ext_getElem (by simp) fun i hi _ => ?_
    have hinside : i < vs.length := by
      rw [List.length_zipWith] at hi
      omega
    have hv := hvs _ (List.getElem_mem hinside)
    rw [List.getElem_zipWith, List.getElem_zipWith, log_number hv, number_div hv.ne', number_add, number_add,
      surprise]
  rw [negativeLogLikelihood, if_pos (all_isVariance_number hvs)]
  simp only [hconstant, hterms, sum_number, half_eq, number_mul]

/-- Numbers that are not below a bound are real. -/
theorem exists_reals_of_atLeast {c : ℝ} {series : List Exact} (h : ∀ x ∈ series, AtLeast c x) :
    ∃ values : List ℝ, series = values.map number ∧ ∀ v ∈ values, c ≤ v := by
  obtain ⟨values, rfl⟩ := exists_number_of_forall_mem fun x hx => (h x hx).imp fun _ hy => hy.2
  refine ⟨values, rfl, fun v hv => ?_⟩
  obtain ⟨u, hu, heq⟩ := h _ (List.mem_map_of_mem hv)
  rwa [number.inj heq]

/-- The negative log-likelihood of the rescaled series is larger by half the logarithm of the factor for each
period. -/
theorem exists_deviance_rescaled {e : VarianceEquation Exact} {c : ℝ} {backcast : Exact} {shocks : List Exact}
    (hs : 0 < s) (hfloor : e.Floored c) (hc : 0 < c) (hbackcast : AtLeast 0 backcast)
    (hshocks : ∀ x ∈ shocks, AtLeast 0 x) :
    ∃ d : ℝ, e.deviance backcast shocks = number d ∧
      (e.rescaled (number s)).deviance (backcast * number s) (shocks.map (· * number s)) =
        number (d + 1 / 2 * (shocks.length * Real.log s)) := by
  obtain ⟨vs, hvs, hpositive⟩ := exists_reals_of_atLeast (hfloor.variances hc.le hbackcast hshocks)
  obtain ⟨xs, rfl, -⟩ := exists_reals_of_atLeast hshocks
  have hlength : vs.length = xs.length := by
    have h := e.length_variances backcast (xs.map number)
    rwa [hvs, List.length_map, List.length_map] at h
  have hvs_pos : ∀ v ∈ vs, 0 < v := fun v hv => hc.trans_le (hpositive v hv)
  have hscaled_pos : ∀ v ∈ vs.map (· * s), 0 < v := by
    intro v hv
    obtain ⟨u, hu, rfl⟩ := List.mem_map.mp hv
    exact mul_pos (hvs_pos u hu) hs
  have hfactor (ys : List ℝ) : (ys.map number).map (· * number s) = (ys.map (· * s)).map number := by
    simp
  refine ⟨1 / 2 * (List.zipWith surprise vs xs).sum, ?_, ?_⟩
  · rw [deviance, hvs]
    exact negativeLogLikelihood_number hvs_pos xs
  · rw [deviance, variances_rescaled e hs, hvs, hfactor, hfactor, negativeLogLikelihood_number hscaled_pos,
      sum_surprise_scaled hs hvs_pos hlength, mul_add, List.length_map]

end Likelihood

/-! ## Parameters of an equation -/

variable {e : VarianceEquation Exact} {p q : ℕ}

theorem ofParameters_parameters (hp : e.shockWeights.length = p) (hq : e.varianceWeights.length = q) :
    ofParameters p q e.parameters = .ok e := by
  subst hp hq
  simp [ofParameters, parameters]

theorem equation_parameters {problem : FitProblem Exact} (hp : e.shockWeights.length = problem.p)
    (hq : e.varianceWeights.length = problem.q) : problem.equation e.parameters = e := by
  simp [FitProblem.equation, parameters, ← hp, ← hq]

theorem weights_equation {problem : FitProblem Exact} {parameters : List Exact}
    (hlength : parameters.length = 1 + problem.p + problem.q) :
    (problem.equation parameters).shockWeights ++ (problem.equation parameters).varianceWeights =
      parameters.tail := by
  have hrest : (parameters.tail.drop problem.p).length ≤ problem.q := by
    rw [List.length_drop, List.length_tail]
    omega
  rw [FitProblem.equation, List.take_of_length_le hrest, List.take_append_drop]

end VarianceEquation

namespace VolatilityForecast

/-! ## Converged forecasts -/

section Inversion

variable {α : Type} [Scalar α] {fit : Fitter α} {problem : FitProblem α} {outcome : FitOutcome α}
  {minimum scale mean : α} {p q horizon : ℕ} {centered : Bool} {returns : List α} {f : VolatilityForecast α}

structure Reports (problem : FitProblem α) (scale mean : α) (horizon : ℕ) (outcome : FitOutcome α)
    (f : VolatilityForecast α) : Prop where
  usable : isUsable outcome = true
  stationary : isStationary outcome = true
  equation : f.equation = (problem.equation outcome.parameters).rescaled scale
  mean : f.mean = mean
  logLikelihood : f.logLikelihood =
    some (-outcome.deviance - 0.5 * (problem.shocks.length : α) * Scalar.log scale)
  path : f.path = ((problem.equation outcome.parameters).project problem.shocks
    ((problem.equation outcome.parameters).variances problem.backcast problem.shocks) horizon).map (· * scale)

theorem reports_of_ofOutcome (h : ofOutcome problem scale mean horizon outcome = .ok f) :
    Reports problem scale mean horizon outcome f := by
  unfold ofOutcome at h
  by_cases husable : isUsable outcome = true
  · by_cases hstationary : isStationary outcome = true
    · simp only [husable, hstationary, Bool.not_true, Bool.false_eq_true, if_false] at h
      split at h
      · cases h
        exact ⟨husable, hstationary, rfl, rfl, rfl, rfl⟩
      · cases h
    · simp [husable, hstationary] at h
  · simp [husable] at h

/-- A converged forecast reports an outcome of the fit. -/
theorem exists_outcome_of_ofFit (h : ofFit fit problem returns scale mean horizon = .ok f)
    (hconverged : f.converged = true) :
    ∃ outcome, fit problem = .ok outcome ∧ Reports problem scale mean horizon outcome f := by
  unfold ofFit at h
  split at h
  · split at h
    · cases h
      cases hconverged
    · cases h
  · next outcome houtcome =>
    split at h
    · next forecast hforecast =>
      cases h
      exact ⟨outcome, houtcome, reports_of_ofOutcome hforecast⟩
    · cases h
      cases hconverged

/-- A converged forecast is that of a fit to the squared shocks over their mean, of which there are enough. -/
theorem exists_fit_of_converged (h : ofReturns fit (.ok minimum) p q centered horizon returns = .ok f)
    (hconverged : f.converged = true) :
    let mean := if centered then Scalar.mean returns else 0
    let squares := returns.map fun r => (r - mean) * (r - mean)
    ¬ (returns.length : α) <
        (if minimum < ((p + q + 2 : ℕ) : α) then ((p + q + 2 : ℕ) : α) else minimum) ∧
      (∃ least, vanishingSquare returns = .ok least ∧ ¬ Scalar.mean squares ≤ least) ∧
      ofFit fit ⟨p, q, squares.map (· / Scalar.mean squares), 1⟩ returns (Scalar.mean squares) mean horizon =
        .ok f := by
  unfold ofReturns at h
  simp only [ok_bind] at h
  generalize (if centered = true then Scalar.mean returns else 0) = mean at h ⊢
  generalize (if minimum < ((p + q + 2 : ℕ) : α) then ((p + q + 2 : ℕ) : α) else minimum) = fewest at h ⊢
  split at h
  · cases h
    cases hconverged
  · split at h
    · cases h
      cases hconverged
    · next henough =>
      obtain ⟨least, hleast, h⟩ := bind_eq_ok.mp h
      split at h
      · cases h
        cases hconverged
      · next hlarge => exact ⟨henough, ⟨least, hleast, hlarge⟩, h⟩

end Inversion

/-! ## What a converged forecast reports -/

section Reported

open VarianceEquation

variable {fit : Fitter Exact} {problem : FitProblem Exact} {outcome : FitOutcome Exact}
  {f : VolatilityForecast Exact} {scale : ℝ}

noncomputable def timesScale (problem : FitProblem Exact) (scale : ℝ) : FitProblem Exact :=
  { problem with
    shocks := problem.shocks.map (· * number scale), backcast := problem.backcast * number scale }

section Problem

variable {mean : Exact} {horizon : ℕ} (h : Reports problem (number scale) mean horizon outcome f)
  (hscale : 0 < scale) (hlength : outcome.parameters.length = 1 + problem.p + problem.q) (hready : problem.Ready)
include h hscale hlength hready

/-- The reported parameters give the variances of the fit times the scale, and project the reported path from
them. -/
theorem Reports.rescaled :
    f.equation.parameters.tail = outcome.parameters.tail ∧ ∃ variances,
      conditionalVariances problem.p problem.q outcome.parameters problem.shocks problem.backcast =
        .ok variances ∧
      conditionalVariances problem.p problem.q f.equation.parameters (timesScale problem scale).shocks
          (timesScale problem scale).backcast = .ok (variances.map (· * number scale)) ∧
      projectedVariances problem.p problem.q f.equation.parameters (timesScale problem scale).shocks
          (variances.map (· * number scale)) horizon = .ok f.path := by
  have hparameters := FitProblem.ofParameters_eq_equation hlength
  have hp := FitProblem.length_shockWeights hlength
  have hq := FitProblem.length_varianceWeights hlength
  have hequation := h.equation
  have hpath := h.path
  have htail := weights_equation hlength
  generalize problem.equation outcome.parameters = e at *
  have hreported : ofParameters problem.p problem.q f.equation.parameters = .ok (e.rescaled (number scale)) := by
    rw [hequation]
    exact ofParameters_parameters hp hq
  refine ⟨by rw [hequation, ← htail]; rfl, _, e.conditionalVariances_eq_ok hparameters hp hq _ _, ?_, ?_⟩
  · rw [conditionalVariances_eq_ok _ hreported hp hq]
    exact congrArg _ (variances_rescaled e hscale _ _)
  · have hshocks : problem.p ≤ (timesScale problem scale).shocks.length :=
      hready.shockWeights.trans_eq (List.length_map _).symm
    have hvariances : problem.q ≤ ((e.variances problem.backcast problem.shocks).map (· * number scale)).length := by
      rw [List.length_map, length_variances]
      exact hready.varianceWeights
    rw [projectedVariances_eq_ok _ hreported hp hq hshocks hvariances, hpath]
    exact congrArg _ (project_rescaled e hscale _ _ _)

/-- If the fit reports its own likelihood, the reported parameters have the reported one. -/
theorem Reports.logLikelihood_eq (hfound : outcome.deviance = problem.deviance outcome.parameters) :
    f.logLikelihood = some (-(timesScale problem scale).deviance f.equation.parameters) := by
  obtain ⟨c, hc, hfloor⟩ := (stationary_of_isUsable hlength h.usable h.stationary).exists_floor
  obtain ⟨d, hd, hrescaled⟩ := exists_deviance_rescaled hscale hfloor hc hready.backcast hready.shocks
  have hequation : (timesScale problem scale).equation f.equation.parameters =
      (problem.equation outcome.parameters).rescaled (number scale) := by
    rw [h.equation]
    exact equation_parameters (FitProblem.length_shockWeights hlength)
      (FitProblem.length_varianceWeights hlength)
  have hreported : (timesScale problem scale).deviance f.equation.parameters =
      number (d + 1 / 2 * (problem.shocks.length * Real.log scale)) := by
    rw [← hrescaled, FitProblem.deviance, hequation]
    rfl
  have hown : problem.deviance outcome.parameters = number d := hd
  rw [h.logLikelihood, hreported, hfound, hown, log_number hscale, half_eq, natCast_eq]
  simp only [number_mul, number_neg, number_sub, Option.some.injEq, number.injEq]
  ring

end Problem

/-- The problem of fitting squared shocks over a scale. -/
noncomputable def unitProblem (p q : ℕ) (squares : List ℝ) (scale : ℝ) : FitProblem Exact :=
  ⟨p, q, (squares.map (· / scale)).map number, 1⟩

/-- The problem of fitting squared shocks as they are, from the scale as backcast. -/
def plainProblem (p q : ℕ) (squares : List ℝ) (scale : ℝ) : FitProblem Exact :=
  ⟨p, q, squares.map number, number scale⟩

variable {p q horizon : ℕ} {squares : List ℝ}

theorem timesScale_unitProblem (hscale : 0 < scale) :
    timesScale (unitProblem p q squares scale) scale = plainProblem p q squares scale := by
  have hshocks : ((squares.map (· / scale)).map number).map (· * number scale) = squares.map number := by
    simp [Function.comp_def, div_mul_cancel₀ _ hscale.ne']
  have hbackcast : (1 : Exact) * number scale = number scale := by
    rw [one_eq, number_mul, one_mul]
  simp only [timesScale, unitProblem, hshocks, hbackcast, plainProblem]

theorem ready_unitProblem (hscale : 0 < scale) (hsquares : ∀ x ∈ squares, 0 ≤ x) (hp : p ≤ squares.length)
    (hq : q ≤ squares.length) : (unitProblem p q squares scale).Ready := by
  refine ⟨atLeast_of_reals ?_, ⟨1, zero_le_one, rfl⟩, by simpa [unitProblem] using hp,
    by simpa [unitProblem] using hq⟩
  intro x hx
  obtain ⟨y, hy, rfl⟩ := List.mem_map.mp hx
  exact div_nonneg (hsquares y hy) hscale.le

/-- A converged forecast of real returns reports a fit of their squared shocks over the mean of these. -/
theorem exists_unitProblem_of_converged {minimum : ℝ} {centered : Bool} {returns : List ℝ}
    (hforecast : ofReturns fit (.ok (number minimum)) p q centered horizon (returns.map number) = .ok f)
    (hconverged : f.converged = true) :
    ∃ (center scale : ℝ) (squares : List ℝ) (outcome : FitOutcome Exact),
      squares = returns.map (fun r => (r - center) ^ 2) ∧ scale = squares.sum / squares.length ∧ 0 < scale ∧
      (unitProblem p q squares scale).Ready ∧ fit (unitProblem p q squares scale) = .ok outcome ∧
      Reports (unitProblem p q squares scale) (number scale) (number center) horizon outcome f := by
  obtain ⟨henough, ⟨least, hleast, hlarge⟩, hfitted⟩ := exists_fit_of_converged hforecast hconverged
  cases (vanishingSquare_number returns).symm.trans hleast
  rw [List.length_map] at henough
  have hcount := orders_le_of_not_lt henough ⟨minimum, rfl⟩
  have hne : returns ≠ [] := by
    rw [← List.length_pos_iff]
    omega
  obtain ⟨center, hcenter⟩ : ∃ center : ℝ,
      (if centered then Scalar.mean (returns.map number) else 0) = number center := by
    cases centered with
    | true => exact ⟨_, mean_number hne⟩
    | false => exact ⟨0, rfl⟩
  have hsquares : (returns.map number).map (fun r => (r - number center) * (r - number center)) =
      (returns.map fun r => (r - center) ^ 2).map number := by
    simp [sq]
  rw [hcenter, hsquares] at hlarge hfitted
  generalize hreturns : returns.map (fun r => (r - center) ^ 2) = squares at hlarge hfitted
  have hlength : squares.length = returns.length := by rw [← hreturns, List.length_map]
  have hscale : Scalar.mean (squares.map number) = number (squares.sum / squares.length) :=
    mean_number (List.length_pos_iff.mp (hlength ▸ List.length_pos_iff.mpr hne))
  rw [hscale] at hlarge hfitted
  rw [number_le, not_le] at hlarge
  generalize hs : squares.sum / squares.length = scale at hlarge hfitted
  have hpositive : 0 < scale := (mul_self_nonneg _).trans_lt hlarge
  have hunit : (squares.map number).map (· / number scale) = (squares.map (· / scale)).map number := by
    simp [number_div hpositive.ne']
  rw [hunit] at hfitted
  have hnonneg : ∀ x ∈ squares, 0 ≤ x := by
    intro x hx
    rw [← hreturns] at hx
    obtain ⟨r, _, rfl⟩ := List.mem_map.mp hx
    exact sq_nonneg _
  obtain ⟨outcome, houtcome, hreports⟩ := exists_outcome_of_ofFit hfitted hconverged
  exact ⟨center, scale, squares, outcome, hreturns.symm, hs.symm, hpositive,
    ready_unitProblem hpositive hnonneg (by omega) (by omega), houtcome, hreports⟩

/-- Fitting on shocks of unit mean square cannot be seen in a converged forecast. It is made from parameters that
fit the squared shocks over their mean. Yet over the squared shocks as they are, from their mean as backcast, the
reported parameters give that mean times the variances of the fit, project the reported path, and have the
reported log-likelihood, if the fit reports its own. -/
theorem forecast_reports_unscaled_fit (hfit : ∀ problem, FitterOutcome problem (fit problem)) {minimum : ℝ}
    {centered : Bool} {returns : List ℝ}
    (hforecast : ofReturns fit (.ok (number minimum)) p q centered horizon (returns.map number) = .ok f)
    (hconverged : f.converged = true) :
    ∃ (center scale : ℝ) (squares : List ℝ) (outcome : FitOutcome Exact) (variances : List Exact),
      f.mean = number center ∧ squares = returns.map (fun r => (r - center) ^ 2) ∧
      scale = squares.sum / squares.length ∧ 0 < scale ∧
      fit (unitProblem p q squares scale) = .ok outcome ∧
      f.equation.parameters.tail = outcome.parameters.tail ∧
      conditionalVariances p q outcome.parameters ((squares.map (· / scale)).map number) 1 = .ok variances ∧
      conditionalVariances p q f.equation.parameters (squares.map number) (number scale) =
        .ok (variances.map (· * number scale)) ∧
      projectedVariances p q f.equation.parameters (squares.map number) (variances.map (· * number scale))
        horizon = .ok f.path ∧
      (outcome.deviance = (unitProblem p q squares scale).deviance outcome.parameters →
        f.logLikelihood = some (-(plainProblem p q squares scale).deviance f.equation.parameters)) := by
  obtain ⟨center, scale, squares, outcome, hsquares, hmean, hscale, hready, houtcome, hreports⟩ :=
    exists_unitProblem_of_converged hforecast hconverged
  have hlength : outcome.parameters.length = 1 + p + q := by
    have h := hfit (unitProblem p q squares scale)
    rwa [houtcome] at h
  obtain ⟨htail, variances, hvariances, hreported, hpath⟩ := hreports.rescaled hscale hlength hready
  have hlikelihood := hreports.logLikelihood_eq hscale hlength hready
  rw [timesScale_unitProblem hscale] at hreported hpath hlikelihood
  exact ⟨center, scale, squares, outcome, variances, hreports.mean, hsquares, hmean, hscale, houtcome, htail,
    hvariances, hreported, hpath, hlikelihood⟩

/-- Squared returns of one and nine, in turn, with five as their mean. -/
theorem forecast_reports_unscaled_fit_four_returns :
    let parameters : List Exact := [1 / 2, 1 / 4, 1 / 4].map number
    let fit : Fitter Exact := fun problem =>
      if problem.p = 1 ∧ problem.q = 1 then
        .ok { parameters, deviance := problem.deviance parameters, converged := true, message := "", rounds := 3 }
      else .error .singularMatrix
    (∀ problem, FitterOutcome problem (fit problem)) ∧
      ∃ f, ofReturns fit (.ok (number 4)) 1 1 false 2 ([1, 3, 1, 3].map number) = .ok f ∧ f.converged = true ∧
        conditionalVariances 1 1 f.equation.parameters ([1, 9, 1, 9].map number) (number 5) =
          .ok ([5, 4, 23 / 4, 67 / 16].map number) ∧
        projectedVariances 1 1 f.equation.parameters ([1, 9, 1, 9].map number)
          ([5, 4, 23 / 4, 67 / 16].map number) 2 = .ok f.path ∧
        f.logLikelihood = some (-(plainProblem 1 1 [1, 9, 1, 9] 5).deviance f.equation.parameters) := by
  intro parameters fit
  have hfit : ∀ problem, FitterOutcome problem (fit problem) := by
    intro problem
    by_cases h : problem.p = 1 ∧ problem.q = 1
    · simp [fit, parameters, FitterOutcome, h]
    · simp only [fit, if_neg h]
      rfl
  let returns : List ℝ := [1, 3, 1, 3]
  have hsquares : (returns.map number).map (fun r => (r - 0) * (r - 0)) = [1, 9, 1, 9].map number := by
    simp only [returns, zero_eq, List.map_cons, List.map_nil, number_sub, number_mul]
    norm_num
  have hscale : Scalar.mean ([1, 9, 1, 9].map number) = number 5 := by
    rw [mean_number (by simp)]
    norm_num
  obtain ⟨least, hleast, hvanishing⟩ :
      ∃ least, vanishingSquare (returns.map number) = .ok least ∧ ¬ number 5 ≤ least := by
    refine ⟨_, vanishingSquare_number returns, ?_⟩
    rw [number_le]
    norm_num [returns]
  have henough : ¬ ((4 : ℕ) : Exact) < if number 4 < ((1 + 1 + 2 : ℕ) : Exact)
      then ((1 + 1 + 2 : ℕ) : Exact) else number 4 := by
    simp only [natCast_eq]
    norm_num
  let problem := unitProblem 1 1 [1, 9, 1, 9] 5
  let outcome : FitOutcome Exact :=
    { parameters, deviance := problem.deviance parameters, converged := true, message := "", rounds := 3 }
  have hunit : ([1, 9, 1, 9].map number).map (· / number 5) = problem.shocks := by
    simp [problem, unitProblem, number_div]
  have hanswer : fit problem = .ok outcome := rfl
  have hfitted : ofReturns fit (.ok (number 4)) 1 1 false 2 (returns.map number) =
      ofFit fit problem (returns.map number) (number 5) 0 2 := by
    unfold ofReturns
    simp only [Bool.false_eq_true, if_false, hsquares, hscale, hleast, ok_bind, if_neg hvanishing,
      hunit]
    exact if_neg henough
  have husable : isUsable outcome = true := by
    simp [isUsable, outcome, parameters, zero_eq]
  have hstationary : isStationary outcome = true := by
    have htail : outcome.parameters.tail = [1 / 4, 1 / 4].map number := rfl
    have hsum : ([1 / 4, 1 / 4] : List ℝ).sum < 1 := by norm_num
    rw [isStationary, htail, sum_number]
    exact decide_eq_true hsum
  have hready : problem.Ready := ready_unitProblem (by norm_num) (by norm_num) (by decide) (by decide)
  obtain ⟨f, hf, hconverged, -⟩ :=
    ofOutcome_byEquation hanswer rfl husable hstationary hready (by norm_num : (0 : ℝ) < 5) 0 2
  have hforecast : ofReturns fit (.ok (number 4)) 1 1 false 2 (returns.map number) = .ok f := by
    simp only [hfitted, ofFit, hanswer, hf]
  refine ⟨hfit, f, hforecast, hconverged, ?_⟩
  obtain ⟨center, scale, squares, outcome', variances, hcenter, rfl, hmean, -, houtcome, -, hvariances, hrest⟩ :=
    forecast_reports_unscaled_fit hfit hforecast hconverged
  obtain rfl : 0 = center := number.inj ((reports_of_ofOutcome hf).mean.symm.trans hcenter)
  have hplain : returns.map (fun r => (r - 0) ^ 2) = [1, 9, 1, 9] := by norm_num [returns]
  rw [hplain] at hmean houtcome hvariances hrest
  obtain rfl : 5 = scale := by
    rw [hmean]
    norm_num
  obtain rfl : outcome = outcome' := Except.ok.inj (hanswer.symm.trans houtcome)
  have hscaled : conditionalVariances 1 1 outcome.parameters (([1, 9, 1, 9].map (· / 5)).map number) 1 =
      .ok ([1, 4 / 5, 23 / 20, 67 / 80].map number) := by
    rw [one_eq]
    norm_num [conditionalVariances, ofParameters, checkWeights, outcome, parameters, VarianceEquation.variances,
      variancesFrom, next, addProducts, slide, bind, Except.bind, pure, Except.pure]
  obtain rfl := Except.ok.inj (hscaled.symm.trans hvariances)
  have hfactor : ([1, 4 / 5, 23 / 20, 67 / 80].map number).map (· * number 5) =
      [5, 4, 23 / 4, 67 / 16].map number := by
    norm_num
  rw [hfactor] at hrest
  exact ⟨hrest.1, hrest.2.1, hrest.2.2 rfl⟩

end Reported

end VolatilityForecast
end PortfolioLab
