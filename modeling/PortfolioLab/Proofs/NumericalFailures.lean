import PortfolioLab.Proofs.FallbackChain

/-!
# Numerical failures that leave an allocation

The chain turns what its solver does into a reason for falling back. The estimates of its guard lie outside:
when the covariance or the condition number of a panel fails, so does the allocation. Two steps after the
solver can fail as well, the cleaning of an empty list of weights, and a tolerance that is finer than the
rounding of equal weights. An allocation whose data and settings are in order fails in these ways only.
-/

namespace PortfolioLab

section Guard

variable {α : Type} [Scalar α] {estimator : Estimator α} {limits : Limits α} {minimum bound : α}
  {p : Panel α} {e : Failure}

/-- The returns of a panel are finite, and there are enough of them to estimate its moments. -/
structure Panel.Estimable (p : Panel α) (minimum : α) : Prop where
  finite : p.rows.all (fun row => row.all Scalar.isFinite) = true
  long : ¬ (p.rows.length : α) < minimum

inductive EstimateFails (estimator : Estimator α) (p : Panel α) (e : Failure) : Prop
  | covariance (fails : estimator.covariance p = .error e)
  | condition {rows : List (List α)} (estimated : estimator.covariance p = .ok rows)
    (fails : estimator.condition rows = .error e)

theorem guardPanel_of_not_estimable (estimator : Estimator α)
    (hminimum : limits.minimumPeriods = .ok minimum)
    (h : ¬ p.Estimable minimum) : ∃ rejection, guardPanel estimator limits p = .ok (.error rejection) := by
  by_cases hfinite : p.rows.all (fun row => row.all Scalar.isFinite) = true
  · have hshort : (p.rows.length : α) < minimum := by
      by_contra hlong
      exact h ⟨hfinite, hlong⟩
    refine ⟨.shortHistory, ?_⟩
    simp [guardPanel, hfinite, hminimum, hshort, pure, Except.pure]
  · refine ⟨.nonFiniteReturns, ?_⟩
    simp [guardPanel, hfinite, pure, Except.pure]

/-- A panel that can be estimated is judged by its condition number. -/
theorem guardPanel_of_estimable (estimator : Estimator α)
    (hminimum : limits.minimumPeriods = .ok minimum)
    (hbound : limits.maxCondition = .ok bound) (h : p.Estimable minimum) :
    ∃ judge : List (List α) → α → Except Rejection (Moments α),
      guardPanel estimator limits p = (do
        let rows ← estimator.covariance p
        let condition ← estimator.condition rows
        return judge rows condition) := by
  refine ⟨fun rows condition =>
    if !Scalar.isFinite condition then .error .illConditioned
    else if bound < condition then .error .illConditioned
    else .ok { covariance := rows, mean := p.means }, ?_⟩
  simp only [guardPanel, h.finite, hminimum, h.long, hbound, ok_bind, Bool.not_true, Bool.false_eq_true,
    if_false]
  refine bind_congr fun rows => bind_congr fun condition => ?_
  split
  · rfl
  · split <;> rfl

/-- The guard fails exactly when it comes to an estimate that does. -/
theorem guardPanel_eq_error_iff (hminimum : limits.minimumPeriods = .ok minimum)
    (hbound : limits.maxCondition = .ok bound) :
    guardPanel estimator limits p = .error e ↔ p.Estimable minimum ∧ EstimateFails estimator p e := by
  by_cases h : p.Estimable minimum
  · obtain ⟨judge, hguard⟩ := guardPanel_of_estimable estimator hminimum hbound h
    simp only [hguard, bind_eq_error, h, true_and]
    constructor
    · rintro (hfails | ⟨rows, hrows, hfails | ⟨condition, _, hjudge⟩⟩)
      · exact .covariance hfails
      · exact .condition hrows hfails
      · cases hjudge
    · rintro (hfails | ⟨hrows, hfails⟩)
      · exact .inl hfails
      · exact .inr ⟨_, hrows, .inl hfails⟩
  · obtain ⟨rejection, hguard⟩ := guardPanel_of_not_estimable estimator hminimum h
    rw [hguard]
    exact iff_of_false (fun heq => nomatch heq) fun hfails => h hfails.1

end Guard

section Chain

variable {α : Type} [Scalar α] {estimator : Estimator α} {limits : Limits α} {minimum bound tolerance : α}
  {p : Panel α} {moments : Moments α} {method : String}
  {primary : Moments α → Except Failure (Attempt α)} {e : Failure}

/-- Cleaning fails for an empty list of weights only. -/
theorem cleanWeights_eq_error_iff {weights : Option (List α)} :
    cleanWeights (.ok tolerance) weights = .error e ↔ weights = some [] ∧ e = .badValue := by
  cases weights with
  | none => simp [cleanWeights, pure, Except.pure]
  | some ws =>
    cases ws with
    | nil => simp [cleanWeights, throw, throwThe, MonadExceptOf.throw, eq_comm]
    | cons w rest =>
      refine iff_of_false (fun heq => ?_) (by simp)
      simp only [cleanWeights, List.isEmpty_cons, ok_bind] at heq
      split at heq
      · cases heq
      · split at heq
        · next hempty => cases hempty
        · split at heq
          · cases heq
          · split at heq
            · cases heq
            · split at heq <;> cases heq

theorem usableWeights_eq_error_iff (htolerance : limits.weightTolerance = .ok tolerance)
    {attempt : Attempt α} :
    usableWeights limits attempt = .error e ↔ attempt.weights = some [] ∧ e = .badValue := by
  rw [usableWeights, htolerance, bind_eq_error, cleanWeights_eq_error_iff]
  constructor
  · rintro (h | ⟨_, _, hpure⟩)
    · exact h
    · cases hpure
  · exact .inl

/-- Rounding leaves the sum of `n` equal weights off one by the tolerance or more, so that not even these
can be used. -/
def EqualWeightsFail (tolerance : α) (n : ℕ) : Prop :=
  cleanWeights (.ok tolerance) (some (equalWeights n)) = .ok none

/-- The chain comes to its fallback: the panel is rejected, or the solver's attempt gives no weights that
can be used. -/
inductive FallsBack (estimator : Estimator α) (limits : Limits α) (p : Panel α)
    (primary : Moments α → Except Failure (Attempt α)) : Prop
  | rejected {rejection : Rejection} (guarded : guardPanel estimator limits p = .ok (.error rejection))
  | unsolved {moments : Moments α} {attempt : Attempt α}
    (guarded : guardPanel estimator limits p = .ok (.ok moments))
    (attempted : absorb (primary moments) = .ok attempt)
    (unusable : usableWeights limits attempt = .ok none)

/-- The failures with which a chain ends. -/
inductive Escapes (estimator : Estimator α) (limits : Limits α) (minimum tolerance : α) (p : Panel α)
    (method : String) (primary : Moments α → Except Failure (Attempt α)) : Failure → Prop
  | estimate {e : Failure} (reached : p.Estimable minimum) (fails : EstimateFails estimator p e) :
    Escapes estimator limits minimum tolerance p method primary e
  | noWeights {moments : Moments α} {attempt : Attempt α}
    (guarded : guardPanel estimator limits p = .ok (.ok moments))
    (attempted : primary moments = .ok attempt) (empty : attempt.weights = some []) :
    Escapes estimator limits minimum tolerance p method primary .badValue
  | noFallback (reached : FallsBack estimator limits p primary)
    (fails : EqualWeightsFail tolerance p.symbols.length) :
    Escapes estimator limits minimum tolerance p method primary (.noStrategy method)

theorem fallBack_eq_error_iff (htolerance : limits.weightTolerance = .ok tolerance)
    (hn : 0 < p.symbols.length) (reason : Reason) : fallBack method limits p reason = .error e ↔
      EqualWeightsFail tolerance p.symbols.length ∧ e = .noStrategy method := by
  have hne : (equalAttempt p).weights ≠ some [] := by
    intro h
    have hlength := congrArg List.length (Option.some.inj h)
    rw [equalWeights, List.length_replicate] at hlength
    exact (Nat.pos_iff_ne_zero.mp hn) hlength
  have husable : usableWeights limits (equalAttempt p) =
      cleanWeights (.ok tolerance) (some (equalWeights p.symbols.length)) := by
    rw [usableWeights, htolerance]
    exact bind_pure _
  rw [fallBack, bind_eq_error, usableWeights_eq_error_iff htolerance]
  simp only [hne, false_and, false_or, husable, EqualWeightsFail]
  constructor
  · rintro ⟨weights, hweights, hresult⟩
    cases weights with
    | none =>
      cases hresult
      exact ⟨hweights, rfl⟩
    | some ws => cases hresult
  · rintro ⟨hfails, rfl⟩
    exact ⟨none, hfails, rfl⟩

omit [Scalar α] in
/-- What is left of a solver once its numerical failures are absorbed. -/
theorem exists_absorbed (hsolver : ∀ failure, primary moments = .error failure →
      failure.solverFault?.isSome = true) :
    ∃ attempt, absorb (primary moments) = .ok attempt ∧
      (attempt.weights = some [] ↔ ∃ own, primary moments = .ok own ∧ own.weights = some []) := by
  cases hprimary : primary moments with
  | ok own => exact ⟨own, rfl, by simp⟩
  | error failure =>
    obtain ⟨fault, hfault⟩ := Option.isSome_iff_exists.mp (hsolver failure hprimary)
    refine ⟨.failed (.solverError fault), by simp only [absorb, hfault], ?_⟩
    simp [Attempt.failed]

/-- A chain whose guard accepts the panel fails after its solver, if at all. -/
theorem chain_eq_error_iff_of_accepted (htolerance : limits.weightTolerance = .ok tolerance)
    (hn : 0 < p.symbols.length) (hguard : guardPanel estimator limits p = .ok (.ok moments))
    (hsolver : ∀ failure, primary moments = .error failure → failure.solverFault?.isSome = true) :
    chain method estimator limits p primary = .error e ↔
      (∃ own, primary moments = .ok own ∧ own.weights = some [] ∧ e = .badValue) ∨
      (∃ attempt, absorb (primary moments) = .ok attempt ∧ usableWeights limits attempt = .ok none ∧
        EqualWeightsFail tolerance p.symbols.length ∧ e = .noStrategy method) := by
  obtain ⟨attempt, habsorb, hempty⟩ := exists_absorbed hsolver
  have hchain : chain method estimator limits p primary = (do
      let weights ← usableWeights limits attempt
      weights.elim (fallBack method limits p attempt.complaint) fun weights => return {
        method, weights := p.symbols.zip weights, usedFallback := false, converged := true,
        reason := .normal, iterations := attempt.iterations }) := by
    rw [chain, hguard, ok_bind]
    change (absorb (primary moments) >>= _) = _
    rw [habsorb, ok_bind]
    refine bind_congr fun weights => ?_
    cases weights <;> rfl
  rw [hchain, bind_eq_error, usableWeights_eq_error_iff htolerance, hempty]
  refine or_congr ?_ ?_
  · constructor
    · rintro ⟨⟨own, hown, hweights⟩, he⟩
      exact ⟨own, hown, hweights, he⟩
    · rintro ⟨own, hown, hweights, he⟩
      exact ⟨⟨own, hown, hweights⟩, he⟩
  · simp only [habsorb, Except.ok.injEq, exists_eq_left']
    constructor
    · rintro ⟨weights, hweights, hresult⟩
      cases weights with
      | some ws => cases hresult
      | none => exact ⟨hweights, (fallBack_eq_error_iff htolerance hn _).mp hresult⟩
    · rintro ⟨hweights, hresult⟩
      exact ⟨none, hweights, (fallBack_eq_error_iff htolerance hn _).mpr hresult⟩

/-- A chain whose data and settings are in order, and whose solver fails numerically if at all. -/
theorem chain_eq_error_iff (hminimum : limits.minimumPeriods = .ok minimum)
    (hbound : limits.maxCondition = .ok bound) (htolerance : limits.weightTolerance = .ok tolerance)
    (hn : 0 < p.symbols.length)
    (hsolver : ∀ moments failure, primary moments = .error failure → failure.solverFault?.isSome = true) :
    chain method estimator limits p primary = .error e ↔
      Escapes estimator limits minimum tolerance p method primary e := by
  have hestimate : guardPanel estimator limits p = .error e ↔
      p.Estimable minimum ∧ EstimateFails estimator p e := guardPanel_eq_error_iff hminimum hbound
  cases hguard : guardPanel estimator limits p with
  | error failure =>
    rw [chain, hguard, error_bind]
    constructor
    · rintro ⟨⟩
      obtain ⟨hreached, hfails⟩ := hestimate.mp hguard
      exact .estimate hreached hfails
    · intro h
      cases h with
      | estimate reached fails =>
        cases hguard.symm.trans (hestimate.mpr ⟨reached, fails⟩)
        rfl
      | noWeights guarded _ _ => cases hguard.symm.trans guarded
      | noFallback reached _ =>
        cases reached with
        | rejected guarded => cases hguard.symm.trans guarded
        | unsolved guarded _ _ => cases hguard.symm.trans guarded
  | ok verdict =>
    cases verdict with
    | error rejection =>
      rw [chain, hguard, ok_bind, fallBack_eq_error_iff htolerance hn]
      constructor
      · rintro ⟨hfails, rfl⟩
        exact .noFallback (.rejected hguard) hfails
      · intro h
        cases h with
        | estimate reached fails => cases hguard.symm.trans (hestimate.mpr ⟨reached, fails⟩)
        | noWeights guarded _ _ => cases hguard.symm.trans guarded
        | noFallback _ fails => exact ⟨fails, rfl⟩
    | ok moments =>
      rw [chain_eq_error_iff_of_accepted htolerance hn hguard (hsolver moments)]
      constructor
      · rintro (⟨own, hown, hweights, rfl⟩ | ⟨attempt, habsorb, hunusable, hfails, rfl⟩)
        · exact .noWeights hguard hown hweights
        · exact .noFallback (.unsolved hguard habsorb hunusable) hfails
      · intro h
        cases h with
        | estimate reached fails => cases hguard.symm.trans (hestimate.mpr ⟨reached, fails⟩)
        | noWeights guarded attempted empty =>
          cases hguard.symm.trans guarded
          exact .inl ⟨_, attempted, empty, rfl⟩
        | noFallback reached fails =>
          cases reached with
          | rejected guarded => cases hguard.symm.trans guarded
          | unsolved guarded attempted unusable =>
            cases hguard.symm.trans guarded
            exact .inr ⟨_, attempted, unusable, fails, rfl⟩

end Chain

/-! ## The five methods -/

section Methods

variable {method : AllocationMethod} {returns : ReturnsInput} {symbols : Option (List String)}
  {p : Panel Float} {settings : AllocationSettings} {minimum bound tolerance : Float}

theorem symbols_pos_of_ofInput (h : Panel.ofInput returns symbols = .ok p) : 0 < p.symbols.length := by
  cases returns with
  | matrix n =>
    obtain ⟨shape, _, hpanel⟩ := bind_eq_ok.mp h
    split at hpanel
    · obtain ⟨rfl, hpos⟩ := symbols_of_ofRows hpanel
      exact hpos
    · cases hpanel
    · cases hpanel
  | table columns rows =>
    rw [Panel.ofInput, Panel.ofTable] at h
    split at h
    · cases h
    · obtain ⟨hsymbols, hpos⟩ := symbols_of_ofRows h
      rwa [hsymbols]

/-- Whatever the covariance, the condition number and the solver do, an allocation of a panel with a valid
parameter and numbers for limits fails exactly in the ways in which a chain does: in an estimate of the
guard, for an empty list of weights, or for equal weights that miss the tolerance. -/
theorem allocation_failures (estimator : Estimator Float) (solver : AllocationSolver)
    (settings : AllocationSettings) (hparameter : method.checkParameter = .ok ())
    (hpanel : Panel.ofInput returns symbols = .ok p)
    (hminimum : settings.minimumPeriods.number = .ok minimum)
    (hbound : settings.maxCondition.number = .ok bound)
    (htolerance : settings.weightTolerance.number = .ok tolerance)
    (hsolver : ∀ moments failure, solver settings p moments method = .error failure →
      failure.solverFault?.isSome = true) :
    (∀ e, allocateBy estimator solver method returns symbols settings = .error e ↔
      Escapes estimator settings.limits minimum tolerance p method.name
        (fun moments => solver settings p moments method) e) ∧
    ((∃ a, allocateBy estimator solver method returns symbols settings = .ok a) ↔
      ∀ e, ¬ Escapes estimator settings.limits minimum tolerance p method.name
        (fun moments => solver settings p moments method) e) := by
  have hfails : ∀ e, allocateBy estimator solver method returns symbols settings = .error e ↔
      Escapes estimator settings.limits minimum tolerance p method.name
        (fun moments => solver settings p moments method) e := by
    intro e
    rw [allocateBy, hparameter, ok_bind, hpanel, ok_bind]
    exact chain_eq_error_iff hminimum hbound htolerance (symbols_pos_of_ofInput hpanel) hsolver
  refine ⟨hfails, ?_⟩
  cases hresult : allocateBy estimator solver method returns symbols settings with
  | ok a => exact iff_of_true ⟨a, rfl⟩ fun e he => nomatch hresult.symm.trans ((hfails e).mpr he)
  | error e => exact iff_of_false (fun ⟨_, ha⟩ => nomatch ha) fun hnone => hnone e ((hfails e).mp hresult)

/-! ## A single period -/

/-- The returns of two symbols in a single period, of which there is no covariance. -/
def onePeriod : ReturnsInput := .matrix (.row [.row [.number 0.01, .number 0.02]])

def onePeriodPanel : Panel Float := { symbols := ["A", "B"], rows := [[0.01, 0.02]] }

def briefSettings : AllocationSettings := { minimumPeriods := .int 1 }

theorem ofInput_onePeriod : Panel.ofInput onePeriod (some ["A", "B"]) = .ok onePeriodPanel := rfl

/-- A matrix with entries that are not finite has no condition number. -/
theorem condition_of_not_finite {rows : List (List Float)}
    (h : ¬ rows.all (fun row => row.all Float.isFinite) = true) :
    sampleEstimator.condition rows = .error .singularMatrix := if_neg h

theorem onePeriod_estimate_fails : EstimateFails sampleEstimator onePeriodPanel .singularMatrix := by
  have hcovariance : ¬ onePeriodPanel.covariance.all (fun row => row.all Float.isFinite) = true := by
    decide +kernel
  have hestimated : sampleEstimator.covariance onePeriodPanel = .ok onePeriodPanel.covariance := rfl
  exact .condition hestimated (condition_of_not_finite hcovariance)

theorem onePeriod_estimable : onePeriodPanel.Estimable (Binary64.ofInt 1) :=
  ⟨by decide +kernel, by decide +kernel⟩

theorem onePeriod_not_estimable : ¬ onePeriodPanel.Estimable (Binary64.ofInt 20) := by
  have hshort : (onePeriodPanel.rows.length : Float) < Binary64.ofInt 20 := by decide +kernel
  exact fun h => h.long hshort

/-- Halves add up to one. -/
theorem not_equalWeightsFail_two : ¬ EqualWeightsFail (1e-6 : Float) 2 := by
  have hclean : (cleanWeights (.ok (1e-6 : Float)) (some (equalWeights 2))).toOption.any
      Option.isSome = true := by decide +kernel
  obtain ⟨weights, hweights, hsome⟩ := exists_of_check hclean
  intro hfails
  cases hweights.symm.trans hfails
  cases hsome

/-- Settings with a tolerance that is finer than the rounding of the weights. -/
def fineSettings : AllocationSettings := { weightTolerance := .real 1e-300 }

def sixSymbols : Panel Float :=
  { symbols := ["A", "B", "C", "D", "E", "F"], rows := [[0.01, 0.02, 0.03, 0.04, 0.05, 0.06]]
    byColumn := true }

/-- Sixths do not quite add up to one. -/
theorem equalWeightsFail_six : EqualWeightsFail (1e-300 : Float) 6 := by
  have hclean : (cleanWeights (.ok (1e-300 : Float)) (some (equalWeights 6))).toOption.any
      Option.isNone = true := by decide +kernel
  obtain ⟨weights, hweights, hnone⟩ := exists_of_check hclean
  rw [EqualWeightsFail, hweights, Option.isNone_iff_eq_none.mp hnone]

/-- The solver of least variance does not fail with the default rounds and tolerance. -/
theorem attempt_minVariance_ne_error {failure : Failure} {moments : Moments Float}
    (hrounds : settings.maxIterations = .int 500) (htolerance : settings.tolerance = .real 1e-10) :
    AllocationMethod.attempt settings p moments .minVariance ≠ .error failure := by
  have hlimits : SolverLimits.ofValues (.int 500) (.real 1e-10) =
      .ok { tolerance := (1e-10 : Float).abs, rounds := 500 } := rfl
  rw [AllocationMethod.attempt, hrounds, htolerance, hlimits]
  exact fun h => nomatch h

/-- One period is too short for the default settings, which fall back. It is long enough for settings that
allow for it, but its covariance is not finite. -/
theorem allocation_failures_one_period :
    AllocationMethod.minVariance.checkParameter = .ok () ∧
    Panel.ofInput onePeriod (some ["A", "B"]) = .ok onePeriodPanel ∧
    (∃ a, allocate .minVariance onePeriod (some ["A", "B"]) {} = .ok a) ∧
    allocate .minVariance onePeriod (some ["A", "B"]) briefSettings = .error .singularMatrix := by
  refine ⟨rfl, ofInput_onePeriod, ?_, ?_⟩
  · obtain ⟨_, hreturns⟩ := allocation_failures sampleEstimator AllocationMethod.attempt {} rfl
      ofInput_onePeriod rfl rfl rfl fun _ _ h => absurd h (attempt_minVariance_ne_error rfl rfl)
    refine hreturns.mpr fun e he => ?_
    have hrejected : ∃ rejection, guardPanel sampleEstimator ({} : AllocationSettings).limits
        onePeriodPanel = .ok (.error rejection) :=
      guardPanel_of_not_estimable sampleEstimator rfl onePeriod_not_estimable
    obtain ⟨rejection, hguard⟩ := hrejected
    cases he with
    | estimate reached _ => exact onePeriod_not_estimable reached
    | noWeights guarded _ _ => cases hguard.symm.trans guarded
    | noFallback _ fails => exact not_equalWeightsFail_two fails
  · obtain ⟨hfails, _⟩ := allocation_failures sampleEstimator AllocationMethod.attempt
      briefSettings rfl ofInput_onePeriod rfl rfl rfl
      fun _ _ h => absurd h (attempt_minVariance_ne_error rfl rfl)
    exact (hfails _).mpr (.estimate onePeriod_estimable onePeriod_estimate_fails)

/-- No method absorbs the failure of the guard on a single period; and with a tolerance that is too fine,
six symbols are left without any weights. -/
theorem one_period_escapes :
    (∀ method ∈ [AllocationMethod.minVariance, .maxSharpe 0, .riskParity, .leastTail 0.95,
        .leastDrawdown 0.95],
      allocate method onePeriod (some ["A", "B"]) briefSettings = .error .singularMatrix) ∧
    allocate .minVariance (.table sixSymbols.symbols sixSymbols.rows) none fineSettings =
      .error (.noStrategy "min_variance") := by
  constructor
  · intro method hmethod
    have hparameter : method.checkParameter = .ok () := by
      simp only [List.mem_cons, List.not_mem_nil, or_false] at hmethod
      rcases hmethod with rfl | rfl | rfl | rfl | rfl <;> rfl
    have hguard : guardPanel sampleEstimator briefSettings.limits onePeriodPanel =
        .error .singularMatrix :=
      (guardPanel_eq_error_iff rfl rfl).mpr ⟨onePeriod_estimable, onePeriod_estimate_fails⟩
    rw [allocate, allocateBy, hparameter, ok_bind, ofInput_onePeriod, ok_bind, chain, hguard]
    rfl
  · have hparameter : AllocationMethod.minVariance.checkParameter = .ok () := rfl
    have hpanel : Panel.ofInput (.table sixSymbols.symbols sixSymbols.rows) none = .ok sixSymbols := rfl
    have hshort : ¬ sixSymbols.Estimable (Binary64.ofInt 20) := fun h => h.long (by decide +kernel)
    have hrejected : ∃ rejection, guardPanel sampleEstimator fineSettings.limits sixSymbols =
        .ok (.error rejection) := guardPanel_of_not_estimable sampleEstimator rfl hshort
    obtain ⟨rejection, hguard⟩ := hrejected
    rw [allocate, allocateBy, hparameter, ok_bind, hpanel, ok_bind]
    exact (chain_eq_error_iff rfl rfl rfl (by decide) fun _ _ h =>
      absurd h (attempt_minVariance_ne_error rfl rfl)).mpr
        (.noFallback (.rejected hguard) equalWeightsFail_six)

end Methods
end PortfolioLab
