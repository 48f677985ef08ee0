import PortfolioLab.Proofs.VarianceFloors

/-!
# The projection continues the equation

The windows of an equation hold the latest entries of the series that it has been run over. So a run over a
series is a run over its beginning, and then over the rest from the windows that the beginning leaves. A
projection is the run over its own values, from the windows of the series: where it is appended to the
squared shocks, the equation gives it once more.
-/

namespace PortfolioLab

/-! ## Windows -/

section Windows

variable {β : Type}

@[simp] theorem length_slide (window : List β) (entry : β) : (slide window entry).length = window.length := by
  simp [slide]

/-- A window keeps as many of the latest entries as it is long. -/
theorem foldl_slide (window series : List β) :
    series.foldl slide window = (series.reverse ++ window).take window.length := by
  induction series generalizing window with
  | nil => simp
  | cons x rest ih =>
    have hslide : slide window x = (x :: window).take window.length := by
      rw [slide, List.dropLast_eq_take, List.length_cons, Nat.add_sub_cancel]
    rw [List.foldl_cons, ih, length_slide, hslide, List.reverse_cons, List.append_assoc,
      List.singleton_append, List.take_append, List.take_append, List.take_take,
      min_eq_left (Nat.sub_le _ _)]

/-- A series that is at least as long as the window drives out what the window held before. -/
theorem foldl_slide_of_le {window series : List β} (h : window.length ≤ series.length) :
    series.foldl slide window = series.reverse.take window.length := by
  rw [foldl_slide, List.take_append_of_le_length (by rwa [List.length_reverse])]

end Windows

namespace VarianceEquation

variable {α : Type} [Scalar α] (e : VarianceEquation α)

/-! ## Runs in two parts -/

/-- A run over two series is a run over the first, and then over the second from the windows that the first
leaves. -/
theorem variancesFrom_append (shocks variances first second : List α) :
    e.variancesFrom shocks variances (first ++ second) =
      e.variancesFrom shocks variances first ++
        e.variancesFrom (first.foldl slide shocks)
          ((e.variancesFrom shocks variances first).foldl slide variances) second := by
  induction first generalizing shocks variances with
  | nil => rfl
  | cons x rest ih => simp only [List.cons_append, variancesFrom, ih, List.foldl_cons]

/-- A projection over two spans is the one over the first, and then over the second from the windows that the
first leaves. -/
theorem projectFrom_add (first second : ℕ) (shocks variances : List α) :
    e.projectFrom (first + second) shocks variances =
      e.projectFrom first shocks variances ++
        e.projectFrom second ((e.projectFrom first shocks variances).foldl slide shocks)
          ((e.projectFrom first shocks variances).foldl slide variances) := by
  induction first generalizing shocks variances with
  | zero => simp [projectFrom]
  | succ first ih => rw [Nat.add_right_comm, projectFrom, projectFrom, ih, List.cons_append, List.foldl_cons,
      List.foldl_cons]

/-- The first periods of a projection do not depend on how far it goes. -/
theorem take_projectFrom {k horizon : ℕ} (h : k ≤ horizon) (shocks variances : List α) :
    (e.projectFrom horizon shocks variances).take k = e.projectFrom k shocks variances := by
  obtain ⟨further, rfl⟩ := Nat.exists_eq_add_of_le h
  rw [projectFrom_add, List.take_left' (e.length_projectFrom _ _ _)]

/-- A projection is the run over the projection of one period less, whatever the last squared shock is. -/
theorem variancesFrom_projectFrom (horizon : ℕ) (shocks variances : List α) (x : α) :
    e.variancesFrom shocks variances (e.projectFrom horizon shocks variances ++ [x]) =
      e.projectFrom (horizon + 1) shocks variances := by
  induction horizon generalizing shocks variances with
  | zero => rfl
  | succ horizon ih =>
    rw [projectFrom, List.cons_append, variancesFrom, ih]
    rfl

/-! ## From the backcast to the latest entries -/

/-- Behind a series that is as long as the lags reach, no backcast is left in the windows. -/
theorem variances_append {shocks : List α} (hshocks : e.shockWeights.length ≤ shocks.length)
    (hvariances : e.varianceWeights.length ≤ shocks.length) (backcast : α) (further : List α) :
    e.variances backcast (shocks ++ further) =
      e.variances backcast shocks ++
        e.variancesFrom (latest e.shockWeights.length shocks)
          (latest e.varianceWeights.length (e.variances backcast shocks)) further := by
  have hshockWindow : shocks.foldl slide (List.replicate e.shockWeights.length backcast) =
      latest e.shockWeights.length shocks := by
    rw [foldl_slide_of_le (by simpa using hshocks), List.length_replicate, latest]
  have hvarianceWindow : (e.variances backcast shocks).foldl slide
        (List.replicate e.varianceWeights.length backcast) =
      latest e.varianceWeights.length (e.variances backcast shocks) := by
    rw [foldl_slide_of_le (by simpa [e.length_variances] using hvariances), List.length_replicate, latest]
  rw [variances, variancesFrom_append, hshockWindow]
  exact congrArg _ (congrArg (fun window => e.variancesFrom _ window further) hvarianceWindow)

/-- The projection continues the equation. Appended to the squared shocks, with any number in the place of
its last period, a projection is what the equation gives for the periods after them, and what it gives for the
periods before is not changed. -/
theorem projection_continues_equation {p q : ℕ} {parameters shocks : List α}
    (hparameters : parameters.length = 1 + p + q) (hseries : max p q ≤ shocks.length) {horizon : ℕ}
    (hhorizon : 1 ≤ horizon) (backcast x : α) :
    ∃ variances path, conditionalVariances p q parameters shocks backcast = .ok variances ∧
      variances.length = shocks.length ∧
      projectedVariances p q parameters shocks variances horizon = .ok path ∧ path.length = horizon ∧
      conditionalVariances p q parameters (shocks ++ path.take (horizon - 1) ++ [x]) backcast =
        .ok (variances ++ path) := by
  let problem : FitProblem α := ⟨p, q, shocks, backcast⟩
  have hcount : parameters.length = 1 + problem.p + problem.q := hparameters
  have he : ofParameters p q parameters = .ok (problem.equation parameters) :=
    FitProblem.ofParameters_eq_equation hcount
  have hp : (problem.equation parameters).shockWeights.length = p := FitProblem.length_shockWeights hcount
  have hq : (problem.equation parameters).varianceWeights.length = q :=
    FitProblem.length_varianceWeights hcount
  generalize problem.equation parameters = e at he hp hq
  have hshocks : p ≤ shocks.length := (le_max_left p q).trans hseries
  have hvariances : q ≤ shocks.length := (le_max_right p q).trans hseries
  have hlength := e.length_variances backcast shocks
  refine ⟨_, _, e.conditionalVariances_eq_ok he hp hq shocks backcast, hlength,
    e.projectedVariances_eq_ok he hp hq hshocks (by rwa [hlength]) horizon, e.length_project _ _ _, ?_⟩
  obtain ⟨before, rfl⟩ := Nat.exists_eq_add_of_le' hhorizon
  rw [e.conditionalVariances_eq_ok he hp hq, List.append_assoc,
    e.variances_append (hp.trans_le hshocks) (hq.trans_le hvariances), Nat.add_sub_cancel, project,
    e.take_projectFrom (Nat.le_succ before), e.variancesFrom_projectFrom]

/-- Two shock weights and one variance weight: three periods, and two to come. -/
theorem projection_continues_equation_two_lags :
    let parameters : List Exact := [1, 1 / 4, 1 / 4, 1 / 2].map .number
    let shocks : List Exact := [4, 8, 0].map .number
    parameters.length = 1 + 2 + 1 ∧ max 2 1 ≤ shocks.length ∧
      conditionalVariances 2 1 parameters shocks (.number 4) = .ok ([5, 11 / 2, 27 / 4].map .number) ∧
      projectedVariances 2 1 parameters shocks ([5, 11 / 2, 27 / 4].map .number) 2 =
        .ok ([51 / 8, 185 / 32].map .number) ∧
      conditionalVariances 2 1 parameters (shocks ++ [.number (51 / 8)] ++ [.number 7]) (.number 4) =
        .ok ([5, 11 / 2, 27 / 4, 51 / 8, 185 / 32].map .number) := by
  intro parameters shocks
  have hparameters : parameters.length = 1 + 2 + 1 := rfl
  have hseries : max 2 1 ≤ shocks.length := by decide
  obtain ⟨variances, path, hvariances, -, hpath, -, hcontinued⟩ :=
    projection_continues_equation hparameters hseries (by decide : 1 ≤ 2) (.number 4) (.number 7)
  have hfirst : conditionalVariances 2 1 parameters shocks (.number 4) =
      .ok ([5, 11 / 2, 27 / 4].map .number) := by
    norm_num [conditionalVariances, ofParameters, checkWeights, parameters, shocks, VarianceEquation.variances,
      variancesFrom, next, addProducts, slide, List.replicate_succ, bind, Except.bind, pure, Except.pure]
  have hsecond : projectedVariances 2 1 parameters shocks ([5, 11 / 2, 27 / 4].map .number) 2 =
      .ok ([51 / 8, 185 / 32].map .number) := by
    norm_num [projectedVariances, ofParameters, checkWeights, parameters, shocks, project, projectFrom, latest,
      next, addProducts, slide, bind, Except.bind, pure, Except.pure]
  rw [hfirst, Except.ok.injEq] at hvariances
  subst hvariances
  rw [hsecond, Except.ok.injEq] at hpath
  subst hpath
  exact ⟨hparameters, hseries, hfirst, hsecond, hcontinued⟩

end VarianceEquation
end PortfolioLab
