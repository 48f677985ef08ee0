import PortfolioLab.Proofs.ExactNumbers
import PortfolioLab.Volatility.Forecast

/-!
# The floor of a variance equation

An equation whose weights are not negative gives every period at least its constant as variance, in the
series that it is run over and in the projection. In exact arithmetic no variance is then infinite or no
number, and none falls to zero.
-/

namespace PortfolioLab

namespace Exact

def AtLeast (c : ℝ) (x : Exact) : Prop := ∃ v, c ≤ v ∧ x = number v

variable {c : ℝ} {x y : Exact}

theorem AtLeast.add (hx : AtLeast c x) (hy : AtLeast 0 y) : AtLeast c (x + y) := by
  obtain ⟨v, hv, rfl⟩ := hx
  obtain ⟨w, hw, rfl⟩ := hy
  exact ⟨v + w, by linarith, rfl⟩

theorem AtLeast.mul (hx : AtLeast 0 x) (hy : AtLeast 0 y) : AtLeast 0 (x * y) := by
  obtain ⟨v, hv, rfl⟩ := hx
  obtain ⟨w, hw, rfl⟩ := hy
  exact ⟨v * w, mul_nonneg hv hw, rfl⟩

theorem AtLeast.mono {d : ℝ} (hd : d ≤ c) (hx : AtLeast c x) : AtLeast d x := by
  obtain ⟨v, hv, rfl⟩ := hx
  exact ⟨v, hd.trans hv, rfl⟩

theorem atLeast_of_reals {xs : List ℝ} (h : ∀ x ∈ xs, c ≤ x) : ∀ x ∈ xs.map number, AtLeast c x := by
  intro x hx
  obtain ⟨v, hv, rfl⟩ := List.mem_map.mp hx
  exact ⟨v, h v hv, rfl⟩

end Exact

open Exact

/-- A window holds the new entry and what it held before. -/
theorem forall_mem_slide {β : Type} {P : β → Prop} {window : List β} {entry : β}
    (hwindow : ∀ x ∈ window, P x) (hentry : P entry) : ∀ x ∈ slide window entry, P x := by
  intro x hx
  cases List.mem_of_mem_dropLast hx with
  | head => exact hentry
  | tail _ hx => exact hwindow x hx

namespace VarianceEquation

/-- The constant of an equation is not below `c`, and no weight is negative. -/
structure Floored (e : VarianceEquation Exact) (c : ℝ) : Prop where
  constant : AtLeast c e.constant
  shockWeights : ∀ w ∈ e.shockWeights, AtLeast 0 w
  varianceWeights : ∀ w ∈ e.varianceWeights, AtLeast 0 w

variable {e : VarianceEquation Exact} {c : ℝ} {shocks window : List Exact}

/-- Real weights that are not negative. -/
theorem floored_number (c : ℝ) {shockWeights varianceWeights : List ℝ}
    (hshockWeights : ∀ w ∈ shockWeights, 0 ≤ w) (hvarianceWeights : ∀ w ∈ varianceWeights, 0 ≤ w) :
    Floored ⟨number c, shockWeights.map number, varianceWeights.map number⟩ c :=
  ⟨⟨c, le_refl c, rfl⟩, atLeast_of_reals hshockWeights, atLeast_of_reals hvarianceWeights⟩

theorem addProducts_atLeast {total : Exact} {weights entries : List Exact} (htotal : AtLeast c total)
    (hweights : ∀ w ∈ weights, AtLeast 0 w) (hentries : ∀ x ∈ entries, AtLeast 0 x) :
    AtLeast c (addProducts total weights entries) := by
  induction weights generalizing total entries with
  | nil => exact htotal
  | cons w weights ih =>
    cases entries with
    | nil => exact htotal
    | cons x entries =>
      obtain ⟨hw, hweights⟩ := List.forall_mem_cons.mp hweights
      obtain ⟨hx, hentries⟩ := List.forall_mem_cons.mp hentries
      exact ih (htotal.add (hw.mul hx)) hweights hentries

theorem Floored.next (h : e.Floored c) (hshocks : ∀ x ∈ shocks, AtLeast 0 x)
    (hwindow : ∀ v ∈ window, AtLeast 0 v) : AtLeast c (e.next shocks window) := by
  have hshare := addProducts_atLeast h.constant h.shockWeights hshocks
  exact addProducts_atLeast hshare h.varianceWeights hwindow

/-- The window of variances keeps to the floor, so each further variance does. -/
theorem Floored.variancesFrom (h : e.Floored c) (hc : 0 ≤ c) {series : List Exact}
    (hshocks : ∀ x ∈ shocks, AtLeast 0 x) (hwindow : ∀ v ∈ window, AtLeast 0 v)
    (hseries : ∀ x ∈ series, AtLeast 0 x) :
    ∀ v ∈ e.variancesFrom shocks window series, AtLeast c v := by
  induction series generalizing shocks window with
  | nil => exact fun v hv => absurd hv List.not_mem_nil
  | cons x rest ih =>
    obtain ⟨hx, hrest⟩ := List.forall_mem_cons.mp hseries
    have hnext := h.next hshocks hwindow
    refine List.forall_mem_cons.mpr ⟨hnext, ?_⟩
    exact ih (forall_mem_slide hshocks hx) (forall_mem_slide hwindow (hnext.mono hc)) hrest

theorem Floored.variances (h : e.Floored c) (hc : 0 ≤ c) {backcast : Exact} (hbackcast : AtLeast 0 backcast)
    (hshocks : ∀ x ∈ shocks, AtLeast 0 x) : ∀ v ∈ e.variances backcast shocks, AtLeast c v := by
  have hbefore : ∀ n : ℕ, ∀ x ∈ List.replicate n backcast, AtLeast 0 x := by
    intro n x hx
    rw [List.eq_of_mem_replicate hx]
    exact hbackcast
  exact h.variancesFrom hc (hbefore _) (hbefore _) hshocks

theorem Floored.projectFrom (h : e.Floored c) (hc : 0 ≤ c) (horizon : ℕ)
    (hshocks : ∀ x ∈ shocks, AtLeast 0 x) (hwindow : ∀ v ∈ window, AtLeast 0 v) :
    ∀ v ∈ e.projectFrom horizon shocks window, AtLeast c v := by
  induction horizon generalizing shocks window with
  | zero => exact fun v hv => absurd hv List.not_mem_nil
  | succ horizon ih =>
    have hnext := h.next hshocks hwindow
    have hexpected := hnext.mono hc
    refine List.forall_mem_cons.mpr ⟨hnext, ?_⟩
    exact ih (forall_mem_slide hshocks hexpected) (forall_mem_slide hwindow hexpected)

theorem Floored.project (h : e.Floored c) (hc : 0 ≤ c) (horizon : ℕ)
    (hshocks : ∀ x ∈ shocks, AtLeast 0 x) (hwindow : ∀ v ∈ window, AtLeast 0 v) :
    ∀ v ∈ e.project shocks window horizon, AtLeast c v := by
  have hlatest : ∀ {series : List Exact} (n : ℕ), (∀ x ∈ series, AtLeast 0 x) →
      ∀ x ∈ latest n series, AtLeast 0 x := fun n hseries x hx =>
    hseries x (List.mem_reverse.mp (List.mem_of_mem_take hx))
  exact h.projectFrom hc horizon (hlatest _ hshocks) (hlatest _ hwindow)

section Lengths

variable {α : Type} [Scalar α] (e : VarianceEquation α)

theorem length_variancesFrom (shocks variances series : List α) :
    (e.variancesFrom shocks variances series).length = series.length := by
  induction series generalizing shocks variances with
  | nil => rfl
  | cons x rest ih => rw [variancesFrom, List.length_cons, List.length_cons, ih]

theorem length_variances (backcast : α) (shocks : List α) :
    (e.variances backcast shocks).length = shocks.length := e.length_variancesFrom _ _ _

theorem length_projectFrom (horizon : ℕ) (shocks variances : List α) :
    (e.projectFrom horizon shocks variances).length = horizon := by
  induction horizon generalizing shocks variances with
  | zero => rfl
  | succ horizon ih => rw [projectFrom, List.length_cons, ih]

theorem length_project (shocks variances : List α) (horizon : ℕ) :
    (e.project shocks variances horizon).length = horizon := e.length_projectFrom _ _ _

/-- Parameters and series that are long enough are read at valid indices only. -/
theorem conditionalVariances_eq_ok {p q : ℕ} {parameters : List α}
    (hparameters : ofParameters p q parameters = .ok e) (hp : e.shockWeights.length = p)
    (hq : e.varianceWeights.length = q) (shocks : List α) (backcast : α) :
    conditionalVariances p q parameters shocks backcast = .ok (e.variances backcast shocks) := by
  simp [conditionalVariances, hparameters, checkWeights, hp, hq, bind, Except.bind, pure, Except.pure]

theorem projectedVariances_eq_ok {p q : ℕ} {parameters shocks variances : List α}
    (hparameters : ofParameters p q parameters = .ok e) (hp : e.shockWeights.length = p)
    (hq : e.varianceWeights.length = q) (hshocks : p ≤ shocks.length) (hvariances : q ≤ variances.length)
    (horizon : ℕ) :
    projectedVariances p q parameters shocks variances horizon = .ok (e.project shocks variances horizon) := by
  have hchecked : e.checkWeights p q = .ok () := by simp [checkWeights, hp, hq]
  have hlong : (decide (shocks.length < p) || decide (variances.length < q)) = false := by
    simp [hshocks, hvariances]
  simp [projectedVariances, hparameters, hchecked, hlong, bind, Except.bind, pure, Except.pure]

end Lengths

end VarianceEquation

namespace FitProblem

variable {α : Type} [Scalar α] {problem : FitProblem α} {parameters : List α}

theorem ofParameters_eq_equation (hlength : parameters.length = 1 + problem.p + problem.q) :
    VarianceEquation.ofParameters problem.p problem.q parameters = .ok (problem.equation parameters) := by
  cases parameters with
  | nil =>
    rw [List.length_nil] at hlength
    omega
  | cons constant weights => rfl

theorem length_shockWeights (hlength : parameters.length = 1 + problem.p + problem.q) :
    (problem.equation parameters).shockWeights.length = problem.p := by
  rw [equation, List.length_take, List.length_tail]
  omega

theorem length_varianceWeights (hlength : parameters.length = 1 + problem.p + problem.q) :
    (problem.equation parameters).varianceWeights.length = problem.q := by
  rw [equation, List.length_take, List.length_drop, List.length_tail]
  omega

theorem conditionalVariances_equation (hlength : parameters.length = 1 + problem.p + problem.q)
    (shocks : List α) (backcast : α) :
    VarianceEquation.conditionalVariances problem.p problem.q parameters shocks backcast =
      .ok ((problem.equation parameters).variances backcast shocks) :=
  VarianceEquation.conditionalVariances_eq_ok _ (ofParameters_eq_equation hlength) (length_shockWeights hlength)
    (length_varianceWeights hlength) shocks backcast

theorem projectedVariances_equation (hlength : parameters.length = 1 + problem.p + problem.q)
    {shocks variances : List α} (hshocks : problem.p ≤ shocks.length) (hvariances : problem.q ≤ variances.length)
    (horizon : ℕ) :
    VarianceEquation.projectedVariances problem.p problem.q parameters shocks variances horizon =
      .ok ((problem.equation parameters).project shocks variances horizon) :=
  VarianceEquation.projectedVariances_eq_ok _ (ofParameters_eq_equation hlength) (length_shockWeights hlength)
    (length_varianceWeights hlength) hshocks hvariances horizon

end FitProblem
end PortfolioLab
