import PortfolioLab.Allocation.Method
import PortfolioLab.Proofs.ExactNumbers
import PortfolioLab.Proofs.Outcome

/-!
# The fallback chain fails closed

Whatever a solver does with a panel, the chain ends with long-only weights that sum to one: the weights
of the solver, clipped at zero and scaled, where they can be used, and the same weight for every symbol
otherwise.
-/

namespace PortfolioLab

/-! ## Clipping and scaling -/

noncomputable def clipped (xs : List ℝ) : List ℝ := xs.map (max 0)

noncomputable def scaledWeights (xs : List ℝ) : List ℝ := (clipped xs).map (· / (clipped xs).sum)

/-- No weight is clearly negative, and something is left of them after clipping. -/
structure Scalable (xs : List ℝ) : Prop where
  above : ∀ x ∈ xs, -1e-7 ≤ x
  positive : 0 < (clipped xs).sum

section Weights

variable {xs : List ℝ}

theorem clipped_nonneg : ∀ x ∈ clipped xs, 0 ≤ x := by
  intro x hx
  obtain ⟨y, _, rfl⟩ := List.mem_map.mp hx
  exact le_max_left 0 y

theorem clipped_eq_self (h : ∀ x ∈ xs, 0 ≤ x) : clipped xs = xs :=
  (List.map_congr_left fun x hx => max_eq_right (h x hx)).trans (List.map_id xs)

theorem scaledWeights_length : (scaledWeights xs).length = xs.length := by
  simp [scaledWeights, clipped]

theorem scaledWeights_nonneg : ∀ w ∈ scaledWeights xs, 0 ≤ w := by
  intro w hw
  obtain ⟨x, hx, rfl⟩ := List.mem_map.mp hw
  exact div_nonneg (clipped_nonneg x hx) (List.sum_nonneg clipped_nonneg)

theorem scaledWeights_sum (h : 0 < (clipped xs).sum) : (scaledWeights xs).sum = 1 := by
  have hscale : (scaledWeights xs).sum = (clipped xs).sum / (clipped xs).sum := by
    simp only [scaledWeights, div_eq_mul_inv, List.sum_map_mul_right, List.map_id']
  rw [hscale, div_self h.ne']

end Weights

/-! ## The weights of an attempt -/

section Cleaning

variable {xs : List ℝ} {tolerance : Exact}

private theorem clip_number (xs : List ℝ) :
    (xs.map Exact.number).map (fun x => if x < 0 then 0 else x) = (clipped xs).map .number := by
  rw [clipped, List.map_map, List.map_map]
  refine List.map_congr_left fun x _ => ?_
  simp only [Function.comp_apply, Exact.zero_eq, Exact.number_lt]
  by_cases h : x < 0
  · rw [if_pos h, max_eq_left h.le]
  · rw [if_neg h, max_eq_right (not_lt.mp h)]

private theorem scale_number (h : 0 < (clipped xs).sum) :
    ((clipped xs).map Exact.number).map (· / .number (clipped xs).sum) =
      (scaledWeights xs).map .number := by
  rw [scaledWeights, List.map_map, List.map_map]
  exact List.map_congr_left fun x _ => Exact.number_div h.ne'

/-- What exact weights miss of the sum one is below any tolerance. -/
private theorem not_tolerance_le (h : 0 < tolerance) (hpositive : 0 < (clipped xs).sum) :
    ¬ tolerance ≤ Scalar.magnitude (Exact.number (scaledWeights xs).sum - 1) := by
  have hmiss : Scalar.magnitude (Exact.number (scaledWeights xs).sum - 1) = 0 := by
    rw [scaledWeights_sum hpositive, Exact.one_eq, Exact.number_sub, sub_self]
    exact if_neg (lt_irrefl (0 : ℝ))
  rw [hmiss]
  exact Exact.not_le_of_lt h

private theorem not_isEmpty_number (h : xs ≠ []) : (xs.map Exact.number).isEmpty = false := by
  cases xs with
  | nil => exact absurd rfl h
  | cons x rest => rfl

theorem cleanWeights_none (limit : Except Failure Exact) : cleanWeights limit none = .ok none := rfl

theorem cleanWeights_of_not_finite {limit : Except Failure Exact} {ws : List Exact}
    (h : ¬ ws.all Scalar.isFinite = true) : cleanWeights limit (some ws) = .ok none := by
  simp [cleanWeights, h, pure, Except.pure]

theorem cleanWeights_of_scalable (htolerance : 0 < tolerance) (h : Scalable xs) :
    cleanWeights (.ok tolerance) (some (xs.map .number)) =
      .ok (some ((scaledWeights xs).map .number)) := by
  have hne : xs ≠ [] := by
    rintro rfl
    exact lt_irrefl 0 h.positive
  have habove : (xs.map Exact.number).any (fun x => x < -weightSlack) = false := by
    rw [List.any_eq_false]
    intro y hy
    obtain ⟨x, hx, rfl⟩ := List.mem_map.mp hy
    exact fun hlow => absurd (h.above x hx) (not_le.mpr (of_decide_eq_true hlow))
  have hpositive : ¬ Exact.number (clipped xs).sum ≤ 0 := by
    rw [Exact.zero_eq, Exact.number_le]
    exact not_le.mpr h.positive
  have hclose := not_tolerance_le htolerance h.positive
  simp only [cleanWeights, Exact.all_isFinite_number, not_isEmpty_number hne, habove, clip_number,
    Exact.sum_number (clipped xs), scale_number h.positive]
  simp [hpositive, hclose, pure, Except.pure]

theorem cleanWeights_of_not_scalable (hne : xs ≠ []) (h : ¬ Scalable xs) :
    cleanWeights (.ok tolerance) (some (xs.map .number)) = .ok none := by
  simp only [cleanWeights, Exact.all_isFinite_number, not_isEmpty_number hne, clip_number,
    Exact.sum_number (clipped xs)]
  by_cases habove : ∀ x ∈ xs, -1e-7 ≤ x
  · have hpositive : Exact.number (clipped xs).sum ≤ 0 := by
      rw [Exact.zero_eq, Exact.number_le]
      exact not_lt.mp fun hp => h ⟨habove, hp⟩
    simp [hpositive, pure, Except.pure]
  · push Not at habove
    obtain ⟨x, hx, hlow⟩ := habove
    have hany : (xs.map Exact.number).any (fun x => x < -weightSlack) = true :=
      List.any_eq_true.mpr ⟨_, List.mem_map_of_mem hx, decide_eq_true hlow⟩
    simp [hany, pure, Except.pure]

end Cleaning

/-! ## What a solver may do -/

/-- A solver attempts weights for `n` symbols, or it fails numerically. What the weights are, and whether
and why the attempt ended as it did, is up to the solver. -/
def SolverOutcome (n : ℕ) : Except Failure (Attempt Exact) → Prop
  | .ok attempt => ∀ ws, attempt.weights = some ws → ws.length = n
  | .error failure => failure.solverFault?.isSome = true

structure Attempt.Usable (attempt : Attempt Exact) (xs : List ℝ) : Prop where
  converged : attempt.converged = true
  weights : attempt.weights = some (xs.map .number)
  scalable : Scalable xs

section Attempts

variable {n : ℕ} {xs : List ℝ} {tolerance : Exact} {limits : Limits Exact} {attempt : Attempt Exact}

theorem usableWeights_of_usable (hlimit : limits.weightTolerance = .ok tolerance)
    (htolerance : 0 < tolerance) (h : attempt.Usable xs) :
    usableWeights limits attempt = .ok (some ((scaledWeights xs).map .number)) := by
  rw [usableWeights, hlimit, h.weights, cleanWeights_of_scalable htolerance h.scalable, ok_bind,
    h.converged]
  rfl

theorem usableWeights_of_not_usable (hlimit : limits.weightTolerance = .ok tolerance)
    (htolerance : 0 < tolerance) (hn : 0 < n) (hwidth : ∀ ws, attempt.weights = some ws → ws.length = n)
    (h : ∀ xs, ¬ attempt.Usable xs) : usableWeights limits attempt = .ok none := by
  rw [usableWeights, hlimit]
  cases hweights : attempt.weights with
  | none =>
    rw [cleanWeights_none, ok_bind, ite_self]
    rfl
  | some ws =>
    by_cases hfinite : ws.all Scalar.isFinite = true
    · obtain ⟨xs, rfl⟩ := Exact.exists_number_of_all_isFinite hfinite
      have hne : xs ≠ [] := by
        rintro rfl
        exact absurd (hwidth _ hweights) hn.ne
      by_cases hscalable : Scalable xs
      · have hconverged : attempt.converged = false := by
          rw [← Bool.not_eq_true]
          exact fun hc => h xs ⟨hc, hweights, hscalable⟩
        rw [cleanWeights_of_scalable htolerance hscalable, ok_bind, hconverged]
        rfl
      · rw [cleanWeights_of_not_scalable hne hscalable, ok_bind, ite_self]
        rfl
    · rw [cleanWeights_of_not_finite hfinite, ok_bind, ite_self]
      rfl

/-- What the chain sees of a solver: an attempt, which is the solver's own if its weights can be used. -/
theorem absorb_outcome {r : Except Failure (Attempt Exact)} (h : SolverOutcome n r) :
    ∃ attempt, absorb r = .ok attempt ∧ (∀ ws, attempt.weights = some ws → ws.length = n) ∧
      ∀ xs, attempt.Usable xs ↔ ∃ own, r = .ok own ∧ own.Usable xs := by
  cases r with
  | ok attempt =>
    refine ⟨attempt, rfl, h, fun xs => ⟨fun hu => ⟨attempt, rfl, hu⟩, ?_⟩⟩
    rintro ⟨own, heq, hu⟩
    cases heq
    exact hu
  | error failure =>
    obtain ⟨fault, hfault⟩ := Option.isSome_iff_exists.mp h
    refine ⟨.failed (.solverError fault), by simp only [absorb, hfault], ?_, fun xs => ⟨?_, ?_⟩⟩
    · intro ws hws
      cases hws
    · intro hu
      exact absurd hu.converged Bool.false_ne_true
    · rintro ⟨own, heq, _⟩
      cases heq

theorem complaint_tag_ne : attempt.complaint.tag ≠ Reason.normal.tag := by
  unfold Attempt.complaint
  split
  · decide
  · next h => exact h

end Attempts

/-! ## Equal weights -/

section EqualWeights

variable {tolerance : Exact} {limits : Limits Exact} {p : Panel Exact}

theorem scaledWeights_eq_self {xs : List ℝ} (hnonneg : ∀ x ∈ xs, 0 ≤ x) (hsum : xs.sum = 1) :
    scaledWeights xs = xs := by
  rw [scaledWeights, clipped_eq_self hnonneg, hsum]
  simp

noncomputable def equalShares (n : ℕ) : List ℝ := List.replicate n (1 / n)

theorem equalShares_nonneg (n : ℕ) : ∀ x ∈ equalShares n, 0 ≤ x := by
  intro x hx
  rw [List.eq_of_mem_replicate hx]
  positivity

theorem equalShares_sum {n : ℕ} (hn : 0 < n) : (equalShares n).sum = 1 := by
  rw [equalShares, List.sum_replicate, nsmul_eq_mul]
  field_simp

theorem equalWeights_eq {n : ℕ} (hn : 0 < n) :
    (equalWeights n : List Exact) = (equalShares n).map .number := by
  rw [equalWeights, equalShares, List.map_replicate, Exact.one_eq, Exact.natCast_eq, Exact.number_div]
  positivity

theorem equalAttempt_usable (hn : 0 < p.symbols.length) :
    (equalAttempt p).Usable (equalShares p.symbols.length) := by
  have hsum := equalShares_sum hn
  have hnonneg := equalShares_nonneg p.symbols.length
  refine ⟨rfl, congrArg some (equalWeights_eq hn), ?_, ?_⟩
  · intro x hx
    linarith [hnonneg x hx]
  · rw [clipped_eq_self hnonneg, hsum]
    exact one_pos

theorem fallBack_eq (hlimit : limits.weightTolerance = .ok tolerance) (htolerance : 0 < tolerance)
    (hn : 0 < p.symbols.length) (method : String) (reason : Reason) :
    fallBack method limits p reason = .ok {
      method, weights := p.symbols.zip ((equalShares p.symbols.length).map .number),
      usedFallback := true, converged := false, reason, iterations := 0 } := by
  have hshares := scaledWeights_eq_self (equalShares_nonneg p.symbols.length) (equalShares_sum hn)
  rw [fallBack, usableWeights_of_usable hlimit htolerance (equalAttempt_usable hn), hshares]
  rfl

end EqualWeights

/-! ## The chain -/

/-- Long-only weights that sum to one, keyed by the symbols in their order. -/
structure Allocation.LongOnly (a : Allocation Exact) (symbols : List String) (ws : List ℝ) : Prop where
  keyed : a.weights = symbols.zip (ws.map .number)
  length_eq : ws.length = symbols.length
  nonneg : ∀ w ∈ ws, 0 ≤ w
  sum_eq_one : ws.sum = 1

/-- The panel is accepted, and the solver converges to weights `xs` that can be used. -/
def Solved (verdict : Except Rejection (Moments Exact))
    (primary : Moments Exact → Except Failure (Attempt Exact)) (xs : List ℝ) : Prop :=
  ∃ moments attempt, verdict = .ok moments ∧ primary moments = .ok attempt ∧ attempt.Usable xs

section Chain

variable {symbols : List String} {rows : List (List Exact)} {width : ℕ} {byColumn : Bool}
  {estimator : Estimator Exact} {limits : Limits Exact} {p : Panel Exact} {tolerance : Exact}
  {verdict : Except Rejection (Moments Exact)} {primary : Moments Exact → Except Failure (Attempt Exact)}

theorem Solved.scalable {xs : List ℝ} (h : Solved verdict primary xs) : Scalable xs := by
  obtain ⟨_, _, _, _, husable⟩ := h
  exact husable.scalable

theorem Solved.length_eq {xs : List ℝ} {n : ℕ} (h : Solved verdict primary xs)
    (hsolver : ∀ moments, verdict = .ok moments → SolverOutcome n (primary moments)) : xs.length = n := by
  obtain ⟨moments, attempt, hverdict, hprimary, husable⟩ := h
  have hwidth := hsolver moments hverdict
  rw [hprimary] at hwidth
  rw [← hwidth _ husable.weights, List.length_map]

theorem Solved.eq {xs ys : List ℝ} (hx : Solved verdict primary xs) (hy : Solved verdict primary ys) :
    xs = ys := by
  obtain ⟨moments, attempt, rfl, hprimary, hx⟩ := hx
  obtain ⟨_, _, heq, hprimary', hy⟩ := hy
  cases heq
  rw [hprimary] at hprimary'
  cases hprimary'
  have hweights := hx.weights.symm.trans hy.weights
  exact List.map_injective_iff.mpr (fun _ _ => Exact.number.inj) (Option.some.inj hweights)

theorem symbols_of_ofRows {α : Type} {rows : List (List α)} {p : Panel α}
    (h : Panel.ofRows symbols rows width byColumn = .ok p) :
    p.symbols = symbols ∧ 0 < symbols.length := by
  unfold Panel.ofRows at h
  split at h
  · cases h
  · next hempty =>
    simp only [Bool.or_eq_true, List.isEmpty_iff, not_or] at hempty
    split at h
    · cases h
    · split at h <;> cases h
      exact ⟨rfl, List.length_pos_of_ne_nil hempty.1⟩

/-- A chain whose solver does not give weights that can be used falls back. -/
theorem chain_eq_fallBack (hlimit : limits.weightTolerance = .ok tolerance) (htolerance : 0 < tolerance)
    (hn : 0 < p.symbols.length) (hguard : guardPanel estimator limits p = .ok verdict)
    (hsolver : ∀ moments, verdict = .ok moments → SolverOutcome p.symbols.length (primary moments))
    (h : ¬ ∃ xs, Solved verdict primary xs) (method : String) :
    ∃ reason, reason.tag ≠ Reason.normal.tag ∧
      chain method estimator limits p primary = fallBack method limits p reason := by
  rw [chain, hguard, ok_bind]
  cases verdict with
  | error rejection => exact ⟨.rejected rejection, by cases rejection <;> decide, rfl⟩
  | ok moments =>
    obtain ⟨attempt, habsorb, hwidth, husable⟩ := absorb_outcome (hsolver moments rfl)
    have hnone : ∀ xs, ¬ attempt.Usable xs := by
      intro xs hu
      obtain ⟨own, hown, hu⟩ := (husable xs).mp hu
      exact h ⟨xs, moments, own, rfl, hown, hu⟩
    refine ⟨attempt.complaint, complaint_tag_ne, ?_⟩
    simp only [habsorb, ok_bind, usableWeights_of_not_usable hlimit htolerance hn hwidth hnone]

theorem chain_eq_of_solved (hlimit : limits.weightTolerance = .ok tolerance) (htolerance : 0 < tolerance)
    (hguard : guardPanel estimator limits p = .ok verdict) {xs : List ℝ}
    (h : Solved verdict primary xs) (method : String) :
    ∃ iterations, chain method estimator limits p primary = .ok {
      method, weights := p.symbols.zip ((scaledWeights xs).map .number), usedFallback := false,
      converged := true, reason := .normal, iterations } := by
  obtain ⟨moments, attempt, rfl, hprimary, husable⟩ := h
  refine ⟨attempt.iterations, ?_⟩
  rw [chain, hguard, ok_bind]
  simp only [hprimary, absorb, ok_bind, usableWeights_of_usable hlimit htolerance husable]
  rfl

/-- In exact arithmetic the chain never fails, and its weights are the clipped and scaled weights of the
solver exactly when these can be used. -/
theorem chain_fails_closed (method : AllocationMethod)
    (hpanel : Panel.ofRows symbols rows width byColumn = .ok p)
    (hlimit : limits.weightTolerance = .ok tolerance) (htolerance : 0 < tolerance)
    (hguard : guardPanel estimator limits p = .ok verdict)
    (hsolver : ∀ moments, verdict = .ok moments → SolverOutcome symbols.length (primary moments)) :
    ∃ a ws, chain method.name estimator limits p primary = .ok a ∧ a.LongOnly symbols ws ∧
      a.usedFallback = !a.converged ∧ (a.reason.tag = "normal" ↔ a.usedFallback = false) ∧
      (∀ xs, Solved verdict primary xs → a.usedFallback = false ∧ ws = scaledWeights xs) ∧
      ((¬ ∃ xs, Solved verdict primary xs) → a.usedFallback = true ∧ ws = equalShares symbols.length) := by
  obtain ⟨rfl, hn⟩ := symbols_of_ofRows hpanel
  by_cases h : ∃ xs, Solved verdict primary xs
  · obtain ⟨xs, hsolved⟩ := h
    obtain ⟨iterations, hchain⟩ := chain_eq_of_solved hlimit htolerance hguard hsolved method.name
    refine ⟨_, scaledWeights xs, hchain, ⟨rfl, ?_, scaledWeights_nonneg, ?_⟩, rfl, ?_, ?_, ?_⟩
    · exact scaledWeights_length.trans (hsolved.length_eq hsolver)
    · exact scaledWeights_sum hsolved.scalable.positive
    · exact iff_of_true rfl rfl
    · intro ys hsolved'
      rw [hsolved'.eq hsolved]
      exact ⟨rfl, rfl⟩
    · exact fun hnone => absurd ⟨xs, hsolved⟩ hnone
  · obtain ⟨reason, htag, hchain⟩ := chain_eq_fallBack hlimit htolerance hn hguard hsolver h method.name
    rw [fallBack_eq hlimit htolerance hn] at hchain
    refine ⟨_, equalShares _, hchain, ⟨rfl, ?_, equalShares_nonneg _, equalShares_sum hn⟩, rfl, ?_, ?_,
      ?_⟩
    · exact List.length_replicate
    · exact iff_of_false htag (fun hfalse => nomatch hfalse)
    · exact fun xs hsolved => absurd ⟨xs, hsolved⟩ h
    · exact fun _ => ⟨rfl, rfl⟩

/-- Two uncorrelated symbols. A weight just below zero is clipped, and the other one gets everything; a
solver that fails leaves half to each. -/
theorem chain_fails_closed_uncorrelated :
    let panel : Panel Exact := { symbols := ["A", "B"], rows := [[1, 1], [-1, 1], [1, -1], [-1, -1]] }
    let estimator : Estimator Exact :=
      { covariance := fun p => .ok p.covariance, condition := fun _ => .ok 1 }
    let limits : Limits Exact :=
      { minimumPeriods := .ok 4, maxCondition := .ok 10, weightTolerance := .ok 1e-6 }
    let converging : Moments Exact → Except Failure (Attempt Exact) := fun _ =>
      .ok { weights := some [3, -1e-8], converged := true, iterations := 5 }
    let failing : Moments Exact → Except Failure (Attempt Exact) := fun _ => .error .singularMatrix
    Panel.ofRows panel.symbols panel.rows 2 false = .ok panel ∧
    (0 : Exact) < 1e-6 ∧
    guardPanel estimator limits panel =
      .ok (.ok { covariance := panel.covariance, mean := panel.means }) ∧
    (∀ moments, SolverOutcome 2 (converging moments) ∧ SolverOutcome 2 (failing moments)) ∧
    (∃ a, chain "min_variance" estimator limits panel converging = .ok a ∧ a.usedFallback = false ∧
      a.weights = [("A", 1), ("B", 0)]) ∧
    ∃ a, chain "min_variance" estimator limits panel failing = .ok a ∧ a.usedFallback = true ∧
      a.weights = [("A", 0.5), ("B", 0.5)] := by
  intro panel estimator limits converging failing
  have hpanel : Panel.ofRows panel.symbols panel.rows 2 false = .ok panel := rfl
  have htolerance : (0 : Exact) < 1e-6 := by
    rw [Exact.zero_eq, Exact.ofScientific_eq, Exact.number_lt]
    norm_num
  have hguard : guardPanel estimator limits panel =
      .ok (.ok { covariance := panel.covariance, mean := panel.means }) := by
    have hfinite : panel.rows.all (fun row => row.all Scalar.isFinite) = true := rfl
    have hperiods : ¬ (panel.rows.length : Exact) < 4 := lt_irrefl ((4 : ℕ) : ℝ)
    have hone : Scalar.isFinite (1 : Exact) = true := rfl
    have hcondition : ¬ (10 : Exact) < 1 := by
      rw [Exact.ofNat_eq, Exact.one_eq, Exact.number_lt]
      norm_num
    simp [guardPanel, hfinite, estimator, limits, hperiods, hcondition, hone, pure, Except.pure]
  have hconverging : ∀ moments, SolverOutcome 2 (converging moments) := by
    intro moments ws hws
    cases hws
    rfl
  have hfailing : ∀ moments, SolverOutcome 2 (failing moments) := fun _ => rfl
  refine ⟨hpanel, htolerance, hguard, fun moments => ⟨hconverging moments, hfailing moments⟩, ?_, ?_⟩
  · obtain ⟨a, ws, hchain, hlong, _, _, hsolved, _⟩ :=
      chain_fails_closed .minVariance hpanel rfl htolerance hguard fun moments _ => hconverging moments
    have husable : Solved (.ok { covariance := panel.covariance, mean := panel.means }) converging
        [3, -1e-8] := by
      refine ⟨_, _, rfl, rfl, rfl, ?_, ?_, ?_⟩
      · simp [Exact.ofNat_eq, Exact.ofScientific_eq]
      · simp
        norm_num
      · norm_num [clipped]
    obtain ⟨hfallback, rfl⟩ := hsolved _ husable
    refine ⟨a, hchain, hfallback, ?_⟩
    have hclipped : clipped [3, -1e-8] = [3, 0] := by norm_num [clipped]
    rw [hlong.keyed]
    simp [panel, scaledWeights, hclipped, Exact.one_eq, Exact.zero_eq]
  · obtain ⟨a, ws, hchain, hlong, _, _, _, hunsolved⟩ :=
      chain_fails_closed .minVariance hpanel rfl htolerance hguard fun moments _ => hfailing moments
    have hnone : ¬ ∃ xs, Solved (.ok { covariance := panel.covariance, mean := panel.means })
        failing xs := by
      rintro ⟨_, _, _, _, hattempt, _⟩
      cases hattempt
    obtain ⟨hfallback, rfl⟩ := hunsolved hnone
    refine ⟨a, hchain, hfallback, ?_⟩
    rw [hlong.keyed]
    norm_num [panel, equalShares, Exact.ofScientific_eq]
    rfl

end Chain
end PortfolioLab
