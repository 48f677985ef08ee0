import PortfolioLab.Proofs.Outcome
import PortfolioLab.Proofs.VarianceFloors

/-!
# Volatility forecasts fail closed

Whatever a fit reports, a forecast ends with one variance for each period to come: those of a stationary
equation, all of them positive, where the fit can be used, and the sample variance of the returns
otherwise.
-/

namespace PortfolioLab

open Exact

/-- A fit reports a parameter for the constant and for each weight, or it fails numerically. What the
parameters are, and whether and why the fit ended as it did, is up to the solver. -/
def FitterOutcome (problem : FitProblem Exact) : Except Failure (FitOutcome Exact) → Prop
  | .ok outcome => outcome.parameters.length = 1 + problem.p + problem.q
  | .error failure => failure.solverFault?.isSome = true

/-- The sample variance of real numbers; zero for less than two of them. -/
noncomputable def dispersion (xs : List ℝ) : ℝ :=
  if xs.length < 2 then 0
  else (xs.map fun x => (x - xs.sum / xs.length) * (x - xs.sum / xs.length)).sum / (xs.length - 1)

theorem dispersion_nonneg (xs : List ℝ) : 0 ≤ dispersion xs := by
  unfold dispersion
  split
  · exact le_refl 0
  · next h =>
    have hcount : (2 : ℝ) ≤ xs.length := by exact_mod_cast not_lt.mp h
    refine div_nonneg (List.sum_nonneg fun y hy => ?_) (by linarith)
    obtain ⟨x, _, rfl⟩ := List.mem_map.mp hy
    exact mul_self_nonneg _

/-! ## Stationary equations -/

namespace VarianceEquation

/-- The constant is positive, no weight is negative, and the weights sum below one. -/
def Stationary (e : VarianceEquation Exact) : Prop :=
  ∃ (constant : ℝ) (shockWeights varianceWeights : List ℝ),
    e = ⟨number constant, shockWeights.map number, varianceWeights.map number⟩ ∧ 0 < constant ∧
      (∀ w ∈ shockWeights ++ varianceWeights, 0 ≤ w) ∧ (shockWeights ++ varianceWeights).sum < 1

theorem Stationary.exists_floor {e : VarianceEquation Exact} (h : e.Stationary) :
    ∃ c, 0 < c ∧ e.Floored c := by
  obtain ⟨c, shockWeights, varianceWeights, rfl, hc, hweights, _⟩ := h
  rw [List.forall_mem_append] at hweights
  exact ⟨c, hc, floored_number c hweights.1 hweights.2⟩

theorem Stationary.rescaled {e : VarianceEquation Exact} {s : ℝ} (h : e.Stationary) (hs : 0 < s) :
    (e.rescaled (number s)).Stationary := by
  obtain ⟨c, shockWeights, varianceWeights, rfl, hc, hweights, hsum⟩ := h
  exact ⟨c * s, shockWeights, varianceWeights, rfl, mul_pos hc hs, hweights, hsum⟩

end VarianceEquation

namespace FitProblem

/-- Squared shocks that are not negative, and not fewer of them than the weights of either kind reach back. -/
structure Ready (problem : FitProblem Exact) : Prop where
  shocks : ∀ x ∈ problem.shocks, AtLeast 0 x
  backcast : AtLeast 0 problem.backcast
  shockWeights : problem.p ≤ problem.shocks.length
  varianceWeights : problem.q ≤ problem.shocks.length

end FitProblem

/-! ## The two kinds of forecasts -/

namespace VolatilityForecast

/-- The path is projected from parameters of the fit, and no index runs out of its list. -/
def Projects (fit : Fitter Exact) (p q horizon : ℕ) (f : VolatilityForecast Exact) : Prop :=
  ∃ (problem : FitProblem Exact) (outcome : FitOutcome Exact) (variances unscaled : List Exact) (scale : ℝ),
    problem.p = p ∧ problem.q = q ∧ problem.shocks.length = f.observations ∧
      fit problem = .ok outcome ∧ 0 < scale ∧
      VarianceEquation.conditionalVariances p q outcome.parameters problem.shocks problem.backcast =
        .ok variances ∧
      VarianceEquation.projectedVariances p q outcome.parameters problem.shocks variances horizon =
        .ok unscaled ∧
      f.path = unscaled.map (· * number scale)

structure ByEquation (fit : Fitter Exact) (p q horizon : ℕ) (f : VolatilityForecast Exact) : Prop where
  stationary : f.equation.Stationary
  shockWeights : f.equation.shockWeights.length = p
  varianceWeights : f.equation.varianceWeights.length = q
  positive : ∀ v ∈ f.path, ∃ x : ℝ, 0 < x ∧ v = number x
  projects : Projects fit p q horizon f

structure BySampleVariance (returns : List ℝ) (horizon : ℕ) (f : VolatilityForecast Exact) : Prop where
  shockWeights : f.equation.shockWeights = []
  varianceWeights : f.equation.varianceWeights = []
  path : f.path = List.replicate horizon (number (dispersion returns))

variable {fit : Fitter Exact} {problem : FitProblem Exact} {outcome : FitOutcome Exact} {returns : List ℝ}
  {p q horizon : ℕ} {mean : Exact} {scale : ℝ}

theorem sampleVariance_number (returns : List ℝ) :
    sampleVariance (returns.map number) = number (dispersion returns) := by
  unfold sampleVariance dispersion
  rw [List.length_map]
  by_cases h : returns.length < 2
  · rw [if_pos h, if_pos h, zero_eq]
  · have hne : returns ≠ [] := by
      rintro rfl
      exact h (by simp)
    have hcount : ((returns.length - 1 : ℕ) : ℝ) = returns.length - 1 := by
      rw [Nat.cast_sub (by omega), Nat.cast_one]
    have hpositive : ((returns.length - 1 : ℕ) : ℝ) ≠ 0 := by
      rw [Nat.cast_ne_zero]
      omega
    have hsquares : ∀ m : ℝ, (returns.map number).map (fun x => (x - number m) * (x - number m)) =
        (returns.map fun x => (x - m) * (x - m)).map number := by
      simp
    rw [if_neg h, if_neg h, Scalar.sampleVariance, mean_number hne, List.length_map, hsquares, sum_number,
      natCast_eq, number_div hpositive, hcount]

theorem fallback_bySampleVariance (returns : List ℝ) (horizon : ℕ) (reason : ForecastReason)
    (mean : Exact) (rounds : ℕ) :
    BySampleVariance returns horizon (fallback (returns.map number) horizon reason mean rounds) where
  shockWeights := rfl
  varianceWeights := rfl
  path := by rw [fallback, sampleVariance_number]

/-- The parameters of a usable outcome whose weights sum below one are those of a stationary equation. -/
theorem stationary_of_isUsable (hlength : outcome.parameters.length = 1 + problem.p + problem.q)
    (husable : isUsable outcome = true) (hstationary : isStationary outcome = true) :
    (problem.equation outcome.parameters).Stationary := by
  simp only [isUsable, Bool.and_eq_true, decide_eq_true_eq] at husable
  obtain ⟨⟨⟨_, hfinite⟩, hconstant⟩, hweights⟩ := husable
  obtain ⟨parameters, hparameters⟩ := exists_number_of_all_isFinite hfinite
  cases parameters with
  | nil =>
    rw [hparameters] at hlength
    simp at hlength
    omega
  | cons constant weights =>
    have hcount : weights.length = problem.p + problem.q := by
      rw [hparameters, List.length_map, List.length_cons] at hlength
      omega
    have hrest : (weights.drop problem.p).length ≤ problem.q := by
      rw [List.length_drop]
      omega
    have hsplit : weights.take problem.p ++ (weights.drop problem.p).take problem.q = weights := by
      rw [List.take_of_length_le hrest, List.take_append_drop]
    rw [isStationary, hparameters, List.map_cons, List.tail_cons, sum_number] at hstationary
    rw [hparameters, List.map_cons, List.tail_cons, List.all_map, List.all_eq_true] at hweights
    rw [hparameters] at hconstant
    refine ⟨constant, weights.take problem.p, (weights.drop problem.p).take problem.q, ?_, hconstant,
      ?_, ?_⟩
    · rw [hparameters]
      simp [FitProblem.equation]
    · rw [hsplit]
      exact fun w hw => of_decide_eq_true (hweights w hw)
    · rw [hsplit]
      exact of_decide_eq_true hstationary

/-- A stationary equation projects positive variances, so that its forecast is never given up. -/
theorem ofOutcome_byEquation (hfit : fit problem = .ok outcome)
    (hlength : outcome.parameters.length = 1 + problem.p + problem.q) (husable : isUsable outcome = true)
    (hstationary : isStationary outcome = true) (hready : problem.Ready) (hscale : 0 < scale) (mean : Exact)
    (horizon : ℕ) :
    ∃ f, ofOutcome problem (number scale) mean horizon outcome = .ok f ∧ f.converged = true ∧
      f.reason = .normal ∧ f.path.length = horizon ∧ ByEquation fit problem.p problem.q horizon f := by
  have hequation := stationary_of_isUsable hlength husable hstationary
  have hshockWeights := FitProblem.length_shockWeights hlength
  have hvarianceWeights := FitProblem.length_varianceWeights hlength
  have hconditional := FitProblem.conditionalVariances_equation hlength problem.shocks problem.backcast
  have hlong : problem.q ≤ ((problem.equation outcome.parameters).variances problem.backcast
      problem.shocks).length := by
    rw [VarianceEquation.length_variances]
    exact hready.varianceWeights
  have hprojected := FitProblem.projectedVariances_equation hlength hready.shockWeights hlong horizon
  generalize he : problem.equation outcome.parameters = e at *
  obtain ⟨c, hc, hfloor⟩ := hequation.exists_floor
  have hvariances := hfloor.variances hc.le hready.backcast hready.shocks
  have hproject := hfloor.project hc.le horizon hready.shocks fun v hv => (hvariances v hv).mono hc.le
  have hpositive : ∀ v ∈ (e.project problem.shocks (e.variances problem.backcast problem.shocks) horizon).map
      (· * number scale), ∃ x : ℝ, 0 < x ∧ v = number x := by
    intro v hv
    obtain ⟨u, hu, rfl⟩ := List.mem_map.mp hv
    obtain ⟨x, hx, rfl⟩ := hproject u hu
    exact ⟨x * scale, mul_pos (hc.trans_le hx) hscale, rfl⟩
  have hall : ((e.project problem.shocks (e.variances problem.backcast problem.shocks) horizon).map
      (· * number scale)).all (fun v => Scalar.isFinite v && decide (0 < v)) = true := by
    rw [List.all_eq_true]
    intro v hv
    obtain ⟨x, hx, rfl⟩ := hpositive v hv
    rw [isFinite_number, Bool.true_and]
    exact decide_eq_true hx
  unfold ofOutcome
  simp only [husable, hstationary, Bool.not_true, Bool.false_eq_true, if_false, he]
  rw [if_pos hall]
  refine ⟨_, rfl, rfl, rfl, ?_, hequation.rescaled hscale, hshockWeights, hvarianceWeights, hpositive,
    ?_⟩
  · rw [List.length_map, e.length_project]
  · exact ⟨problem, outcome, _, _, scale, rfl, rfl, rfl, hfit, hscale, hconditional, hprojected, rfl⟩

def Settled (fit : Fitter Exact) (p q horizon : ℕ) (returns : List ℝ) (f : VolatilityForecast Exact) :
    Prop :=
  (f.converged = true ∧ f.path.length = horizon ∧ ByEquation fit p q horizon f) ∨
    (f.converged = false ∧ BySampleVariance returns horizon f)

theorem exists_settled_fallback {reason : ForecastReason} (h : reason ≠ .invalidForecast) (returns : List ℝ)
    (mean : Exact) (rounds : ℕ) :
    ∃ f, (Except.ok (fallback (returns.map number) horizon reason mean rounds) : Except Failure _) = .ok f ∧
      f.reason ≠ .invalidForecast ∧ Settled fit p q horizon returns f :=
  ⟨_, rfl, h, .inr ⟨rfl, fallback_bySampleVariance ..⟩⟩

/-! ## Every outcome of a fit -/

theorem ofFit_settled (hfit : FitterOutcome problem (fit problem)) (hready : problem.Ready)
    (hscale : 0 < scale) (returns : List ℝ) (mean : Exact) (horizon : ℕ) :
    ∃ f, ofFit fit problem (returns.map number) (number scale) mean horizon = .ok f ∧
      f.reason ≠ .invalidForecast ∧ Settled fit problem.p problem.q horizon returns f := by
  unfold ofFit
  cases hanswer : fit problem with
  | error failure =>
    rw [hanswer] at hfit
    obtain ⟨fault, hfault⟩ := Option.isSome_iff_exists.mp hfit
    simp only [hfault]
    exact exists_settled_fallback (by simp) _ _ _
  | ok outcome =>
    rw [hanswer] at hfit
    by_cases husable : isUsable outcome = true
    · by_cases hstationary : isStationary outcome = true
      · obtain ⟨f, hf, hconverged, hreason, hlength, hby⟩ := ofOutcome_byEquation hanswer hfit husable
          hstationary hready hscale mean horizon
        simp only [hf]
        exact ⟨f, rfl, by simp [hreason], .inl ⟨hconverged, hlength, hby⟩⟩
      · have hrefused : ofOutcome problem (number scale) mean horizon outcome = .error .notStationary := by
          simp [ofOutcome, husable, hstationary]
        simp only [hrefused]
        exact exists_settled_fallback (by simp) _ _ _
    · have hrefused : ofOutcome problem (number scale) mean horizon outcome =
          .error (.notConverged outcome.message) := by
        simp [ofOutcome, husable]
      simp only [hrefused]
      exact exists_settled_fallback (by simp) _ _ _

/-- The threshold for vanishing shocks is a square. -/
theorem vanishingSquare_number (returns : List ℝ) :
    vanishingSquare (returns.map number) =
      .ok (number (1e-12 * (returns.map (|·|)).foldl max 1 * (1e-12 * (returns.map (|·|)).foldl max 1))) := by
  have hmagnitudes : (returns.map number).map Scalar.magnitude = (returns.map (|·|)).map number := by
    simp [magnitude_number]
  simp only [vanishingSquare, hmagnitudes, one_eq, largest_number, ofScientific_eq, number_mul,
    isFinite_number, Bool.not_true, Bool.and_false, Bool.false_eq_true, if_false]

/-- As many returns as the settings and the orders ask for are at least as many as the orders ask for. -/
theorem orders_le_of_not_lt {n fewest : ℕ} {given : Exact}
    (h : ¬ (n : Exact) < if given < (fewest : Exact) then (fewest : Exact) else given)
    (hgiven : ∃ x : ℝ, given = number x) : fewest ≤ n := by
  obtain ⟨x, rfl⟩ := hgiven
  rw [natCast_eq, natCast_eq] at h
  by_cases hsmall : number x < number (fewest : ℝ)
  · rw [if_pos hsmall, number_lt, not_lt] at h
    exact_mod_cast h
  · rw [if_neg hsmall, number_lt, not_lt] at h
    rw [number_lt, not_lt] at hsmall
    exact_mod_cast hsmall.trans h

/-- Every way out of a forecast settles it. -/
theorem ofReturns_settled (hfit : ∀ problem, FitterOutcome problem (fit problem)) (minimum : ℝ) (p q : ℕ)
    (centered : Bool) (horizon : ℕ) (returns : List ℝ) :
    ∃ f, ofReturns fit (.ok (number minimum)) p q centered horizon (returns.map number) = .ok f ∧
      f.reason ≠ .invalidForecast ∧ Settled fit p q horizon returns f := by
  unfold ofReturns
  by_cases hshort : (returns.map number).length < 2
  · rw [if_pos hshort]
    exact exists_settled_fallback (by simp) _ _ _
  have hne : returns ≠ [] := by
    rintro rfl
    exact hshort (by simp)
  obtain ⟨center, hcenter⟩ : ∃ center : ℝ,
      (if centered then Scalar.mean (returns.map number) else 0) = number center := by
    cases centered with
    | true => exact ⟨_, mean_number hne⟩
    | false => exact ⟨0, rfl⟩
  let squares := returns.map fun r => (r - center) * (r - center)
  have hsquares : (returns.map number).map (fun r => (r - number center) * (r - number center)) =
      squares.map number := by
    simp [squares]
  have hsquaresNe : squares ≠ [] := by simpa [squares] using hne
  simp only [if_neg hshort, hcenter, ok_bind, hsquares, vanishingSquare_number]
  rw [mean_number hsquaresNe]
  generalize squares.sum / (squares.length : ℝ) = scale
  generalize hfewest : (if number minimum < ((p + q + 2 : ℕ) : Exact) then ((p + q + 2 : ℕ) : Exact)
    else number minimum) = fewest
  split
  · exact exists_settled_fallback (by simp) _ _ _
  · next henough =>
    rw [← hfewest, List.length_map] at henough
    have hcount := orders_le_of_not_lt henough ⟨minimum, rfl⟩
    have hlength : ((squares.map number).map (· / number scale)).length = returns.length := by simp [squares]
    have hp : p ≤ ((squares.map number).map (· / number scale)).length := by omega
    have hq : q ≤ ((squares.map number).map (· / number scale)).length := by omega
    split
    · exact exists_settled_fallback (by simp) _ _ _
    · next hlarge =>
      have hpositive : 0 < scale := (mul_self_nonneg _).trans_lt (not_le.mp hlarge)
      have hshocks : ∀ x ∈ (squares.map number).map (· / number scale), AtLeast 0 x := by
        intro x hx
        simp only [squares, List.map_map, List.mem_map, Function.comp_apply] at hx
        obtain ⟨r, _, rfl⟩ := hx
        exact ⟨_, div_nonneg (mul_self_nonneg _) hpositive.le, number_div hpositive.ne'⟩
      exact ofFit_settled (hfit _) ⟨hshocks, ⟨1, zero_le_one, rfl⟩, hp, hq⟩ hpositive returns _ horizon

/-- A request with valid orders, mode and horizon is not refused for a series of finite returns. -/
theorem forecastBy_eq_ofReturns {fit : Fitter Float} {settings : VolatilitySettings}
    {request : ForecastRequest} {series : Nested} {n : ℕ} {mode : String} (hshape : series.shape = .ok [n])
    (hfinite : ∀ x ∈ series.numbers, x.isFinite = true) (hshock : 1 ≤ request.shockLags)
    (hvariance : 0 ≤ request.varianceLags) (hmode : request.meanMode = .text mode) (hmem : mode ∈ meanModes)
    (hhorizon : 1 ≤ request.horizon) :
    forecastBy fit settings request series =
      ofReturns fit settings.minimumObservations.number request.shockLags.toNat request.varianceLags.toNat
        (mode == "constant") request.horizon.toNat series.numbers := by
  have hclean : series.numbers.any (fun x => !x.isFinite) = false := by
    rw [List.any_eq_false]
    intro x hx
    simp [hfinite x hx]
  have horders : (decide (request.shockLags < 1) || decide (request.varianceLags < 0)) = false := by
    simp [hshock, hvariance]
  have hfound : (meanModes.find? fun known => Value.same request.meanMode (.text known)) = some mode := by
    rw [hmode]
    simp only [meanModes, List.mem_cons, List.not_mem_nil, or_false] at hmem
    rcases hmem with rfl | rfl <;> decide
  unfold forecastBy
  simp [hshape, ok_bind, hclean, horders, hfound, not_lt.mpr hhorizon]

/-- Whatever the optimiser answers, a series of returns has a forecast with one variance for each of the
periods to come, the first of which is its variance and has a root. -/
theorem forecast_fails_closed (hfit : ∀ problem, FitterOutcome problem (fit problem)) (minimum : ℤ)
    (p q : ℕ) (centered : Bool) (hhorizon : 1 ≤ horizon) (returns : List ℝ) :
    ∃ f, ofReturns fit (.ok (number minimum)) p q centered horizon (returns.map number) = .ok f ∧
      f.path.length = horizon ∧ f.path.head? = some f.variance ∧
      (∃ v : ℝ, 0 ≤ v ∧ f.variance = number v ∧ f.volatility = number (Real.sqrt v)) ∧
      f.reason ≠ .invalidForecast ∧
      (f.converged = true → ByEquation fit p q horizon f) ∧
      (f.converged = false → BySampleVariance returns horizon f) := by
  obtain ⟨f, hf, hvalid, hsettled⟩ := ofReturns_settled hfit minimum p q centered horizon returns
  have hlength : f.path.length = horizon := by
    obtain ⟨_, hlength, _⟩ | ⟨_, hby⟩ := hsettled
    · exact hlength
    · rw [hby.path, List.length_replicate]
  have hne : f.path ≠ [] := by
    rw [← List.length_pos_iff]
    omega
  have hhead : f.path.head? = some f.variance := by
    cases hpath : f.path with
    | nil => exact absurd hpath hne
    | cons v rest => simp [variance, hpath]
  have hmem : f.variance ∈ f.path := List.mem_of_head? hhead
  have hvariance : ∃ v : ℝ, 0 ≤ v ∧ f.variance = number v := by
    obtain ⟨_, _, hby⟩ | ⟨_, hby⟩ := hsettled
    · obtain ⟨v, hv, heq⟩ := hby.positive _ hmem
      exact ⟨v, hv.le, heq⟩
    · rw [hby.path] at hmem
      exact ⟨_, dispersion_nonneg returns, List.eq_of_mem_replicate hmem⟩
  obtain ⟨v, hv, heq⟩ := hvariance
  have hroot : f.volatility = number (Real.sqrt v) := by
    rw [volatility, heq]
    exact if_neg (not_lt.mpr hv)
  refine ⟨f, hf, hlength, hhead, ⟨v, hv, heq, hroot⟩, hvalid, ?_, ?_⟩
  · intro hconverged
    obtain ⟨_, _, hby⟩ | ⟨hfallback, _⟩ := hsettled
    · exact hby
    · rw [hconverged] at hfallback
      cases hfallback
  · intro hfallback
    obtain ⟨hconverged, _⟩ | ⟨_, hby⟩ := hsettled
    · rw [hfallback] at hconverged
      cases hconverged
    · exact hby

/-- Alternating returns, for which the fit converges. -/
theorem forecast_fails_closed_alternating :
    let outcome : FitOutcome Exact :=
      { parameters := [1 / 2, 1 / 4, 1 / 4].map number, deviance := 0, converged := true, message := "",
        rounds := 3 }
    let fit : Fitter Exact := fun problem =>
      if problem.p = 1 ∧ problem.q = 1 then .ok outcome else .error .singularMatrix
    let returns : List ℝ := [1, -1, 1, -1, 1]
    (∀ problem, FitterOutcome problem (fit problem)) ∧
      ∃ f, ofReturns fit (.ok (number (4 : ℤ))) 1 1 false 2 (returns.map number) = .ok f ∧
        f.converged = true ∧ f.path.length = 2 ∧ ByEquation fit 1 1 2 f := by
  intro outcome fit returns
  have hfit : ∀ problem, FitterOutcome problem (fit problem) := by
    intro problem
    by_cases h : problem.p = 1 ∧ problem.q = 1
    · simp [fit, outcome, FitterOutcome, h]
    · simp only [fit, if_neg h]
      rfl
  have hsquares : (returns.map number).map (fun r => (r - 0) * (r - 0)) = [1, 1, 1, 1, 1].map number := by
    simp [returns, zero_eq]
  have hscale : Scalar.mean ([1, 1, 1, 1, 1].map number) = number 1 := by
    rw [mean_number (by simp)]
    norm_num
  obtain ⟨least, hleast, hvanishing⟩ :
      ∃ least, vanishingSquare (returns.map number) = .ok least ∧ ¬ number 1 ≤ least := by
    refine ⟨_, vanishingSquare_number returns, ?_⟩
    rw [number_le]
    norm_num [returns]
  have henough : ¬ ((5 : ℕ) : Exact) < if number (4 : ℤ) < ((1 + 1 + 2 : ℕ) : Exact)
      then ((1 + 1 + 2 : ℕ) : Exact) else number (4 : ℤ) := by
    simp only [natCast_eq]
    norm_num
  let problem : FitProblem Exact := ⟨1, 1, ([1, 1, 1, 1, 1].map number).map (· / number 1), 1⟩
  have hanswer : fit problem = .ok outcome := rfl
  have hfitted : ofReturns fit (.ok (number (4 : ℤ))) 1 1 false 2 (returns.map number) =
      ofFit fit problem (returns.map number) (number 1) 0 2 := by
    unfold ofReturns
    simp only [Bool.false_eq_true, if_false, hsquares, hscale, hleast, ok_bind, if_neg hvanishing]
    exact if_neg henough
  have husable : isUsable outcome = true := by
    simp [isUsable, outcome, zero_eq]
  have hstationary : isStationary outcome = true := by
    have htail : outcome.parameters.tail = [1 / 4, 1 / 4].map number := rfl
    have hsum : ([1 / 4, 1 / 4] : List ℝ).sum < 1 := by norm_num
    rw [isStationary, htail, sum_number]
    exact decide_eq_true hsum
  have hshocks : ∀ x ∈ problem.shocks, AtLeast 0 x := by
    intro x hx
    have hone : x = number 1 := by simpa [problem] using hx
    exact ⟨1, zero_le_one, hone⟩
  have hready : problem.Ready := ⟨hshocks, ⟨1, zero_le_one, rfl⟩, by decide, by decide⟩
  obtain ⟨g, hg, hconverged, -⟩ := ofOutcome_byEquation hanswer rfl husable hstationary hready one_pos 0 2
  obtain ⟨f, hf, hlength, -, -, -, hby, -⟩ :=
    forecast_fails_closed hfit 4 1 1 false (by decide : 1 ≤ 2) returns
  have hsame : f = g := by
    rw [hfitted, ofFit, hanswer] at hf
    simp only [hg, Except.ok.injEq] at hf
    exact hf.symm
  rw [← hsame] at hconverged
  exact ⟨hfit, f, hf, hconverged, hlength, hby hconverged⟩

end VolatilityForecast
end PortfolioLab
