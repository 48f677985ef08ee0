import PortfolioLab.Proofs.Bookkeeping
import PortfolioLab.Proofs.Bystanders
import PortfolioLab.Proofs.ExactNumbers

/-!
# Compounded returns and money

Every period of a run has a return, and the statistics of the run compound them. In exact arithmetic the
compounded return is what the equity has grown by, from the initial cash to the last record. The returns
start from the initial cash, so the costs of the first period count like all others.
-/

namespace PortfolioLab

open Exact

section Growth

variable {previous equity : Cents} {rest : List Cents}

/-- The growth factor of a period that starts with positive equity. -/
theorem one_add_periodReturn (h : 0 < previous) :
    1 + periodReturn previous equity = number (equity / previous : ℝ) := by
  have hne : (previous : ℝ) ≠ 0 := by exact_mod_cast h.ne'
  have hratio : (Scalar.ofRatio equity previous : Exact) = number (equity / previous) := if_neg hne
  rw [periodReturn, if_pos h, hratio, one_eq, number_sub, number_add, add_sub_cancel]

/-- A product of growth factors telescopes, as long as every equity but the last is positive. -/
private theorem foldl_growth (start : ℝ) (h : ∀ e ∈ previous :: (equity :: rest).dropLast, 0 < e) :
    ((periodReturns previous (equity :: rest)).map (1 + ·)).foldl (· * ·) (number start) =
      number (start * ((rest.getLastD equity : Cents) / previous)) := by
  induction rest generalizing previous equity start with
  | nil =>
    have hpositive : 0 < previous := h previous List.mem_cons_self
    simp [periodReturns, one_add_periodReturn hpositive]
  | cons next rest ih =>
    have hpositive : 0 < previous := h previous List.mem_cons_self
    have hrest : ∀ e ∈ equity :: (next :: rest).dropLast, 0 < e := fun e he =>
      h e (List.mem_cons_of_mem _ he)
    have hequity : (equity : ℝ) ≠ 0 := by exact_mod_cast (hrest equity List.mem_cons_self).ne'
    rw [periodReturns, List.map_cons, List.foldl_cons, one_add_periodReturn hpositive, number_mul,
      ih _ hrest, List.getLastD_cons]
    congr 1
    field_simp

/-- The growth factor of an equity curve is its last equity over the one that it starts from. -/
theorem growthFactor_periodReturns (h : ∀ e ∈ previous :: (equity :: rest).dropLast, 0 < e) :
    growthFactor (periodReturns previous (equity :: rest)) =
      number ((rest.getLastD equity : Cents) / previous : ℝ) := by
  have hfold := foldl_growth 1 h
  rwa [one_mul] at hfold

end Growth

namespace Backtest

/-- The statistics that a performance consists of. -/
theorem eq_metricsOf_of_performance {returns : Nested} {periodsPerYear riskFreeRate : Value} {alpha : Float}
    {metrics : Metrics Float} (h : performance returns periodsPerYear riskFreeRate alpha = .ok metrics) :
    ∃ perYear riskFree, metrics = metricsOf returns.numbers perYear riskFree alpha := by
  obtain ⟨series, hseries, h⟩ := bind_eq_ok.mp h
  have hnumbers : series = returns.numbers := by
    obtain ⟨shape, _, hchecked⟩ := bind_eq_ok.mp hseries
    split at hchecked
    · cases hchecked
    · split at hchecked
      · cases hchecked
      · split at hchecked <;> cases hchecked
        rfl
  obtain ⟨perYear, _, h⟩ := bind_eq_ok.mp h
  split at h
  · cases h
  · obtain ⟨riskFree, _, h⟩ := bind_eq_ok.mp h
    split at h
    · cases h
    · obtain ⟨_, _, h⟩ := bind_eq_ok.mp h
      cases h
      exact ⟨perYear, riskFree, by rw [hnumbers]⟩

variable {settings : RunSettings} {model : CostModel} {weights : WeightInput} {prices : PriceInput}
  {initialCash : Option Value} {stops : StopAssignment} {report : Report}

/-- The statistics of a report are those of its period returns, and in exact arithmetic the total return of
these is the growth of the equity: one and the total return are the last equity over the initial cash. -/
theorem total_return_is_growth
    (h : simulate settings model weights prices initialCash stops = .ok report)
    (hcash : 0 < report.initialCash) (hsolvent : ∀ e ∈ report.run.curve.dropLast, 0 < e.equity) :
    (∃ perYear riskFree, report.metrics =
      metricsOf (periodReturns report.initialCash (report.run.curve.map (·.equity))) perYear riskFree
        defaultTailLevel) ∧
    ∃ last, report.run.curve.getLast? = some last ∧ ∀ perYear riskFree alpha : Exact,
      1 + (metricsOf (periodReturns report.initialCash (report.run.curve.map (·.equity))) perYear riskFree
          alpha).totalReturn =
        number (last.equity / report.initialCash : ℝ) := by
  constructor
  · obtain ⟨perYear, riskFree, hmetrics⟩ := eq_metricsOf_of_performance (metrics_of_simulate h)
    rw [numbers_of_returns] at hmetrics
    exact ⟨perYear, riskFree, hmetrics⟩
  · obtain ⟨_, _, _, _, _, hne⟩ := exists_setup h
    obtain ⟨first, rest, hcurve⟩ := List.exists_cons_of_ne_nil hne
    rw [hcurve] at hsolvent ⊢
    have hpositive : ∀ e ∈ report.initialCash :: (first.equity :: rest.map (·.equity)).dropLast,
        0 < e := by
      rw [← List.map_cons, ← List.map_dropLast]
      refine List.forall_mem_cons.mpr ⟨hcash, ?_⟩
      rw [List.forall_mem_map]
      exact hsolvent
    have hgrowth := growthFactor_periodReturns hpositive
    rw [List.getLastD_map] at hgrowth
    have hlast : (first :: rest).getLast? = some (rest.getLastD first) := by
      rw [List.getLast?_cons, List.getLastD_eq_getLast?]
    refine ⟨rest.getLastD first, hlast, fun perYear riskFree alpha => ?_⟩
    rw [List.map_cons, metricsOf, hgrowth, one_eq, number_sub, number_add, add_sub_cancel]

/-- A simulation with costs, that spends them in its first period and loses a position to a stop. -/
theorem sample_solvent : (sample ⟨10, 5, 25⟩ laterPrices laterWeights).toOption.any (fun r =>
    decide (r.initialCash = 10000) && r.run.curve.map (·.equity) == [9950, 6225, 4975]) = true := by
  unfold sample simulate PriceSchedule.ofInput PriceSchedule.ofRows WeightSchedule.ofInput
    WeightSchedule.ofMapping allSymbols Run.ofPeriods Run.step Run.record Run.takeStock
    Account.rebalance Account.orders Account.concerned Account.runStops StopBook.evaluate
    SymbolReturns.ofSchedule sampleWeights samplePrices
  simp only [ascending_eq_insertionSort, stopOrder_eq_insertionSort,
    WeightSchedule.sortByTime_eq_insertionSort,
    mergeSort_eq_insertionSort PriceSchedule.rowLe_trans PriceSchedule.rowLe_total]
  decide +kernel

theorem total_return_is_growth_sample : ∃ report,
    sample ⟨10, 5, 25⟩ laterPrices laterWeights = .ok report ∧ 0 < report.initialCash ∧
    (∀ e ∈ report.run.curve.dropLast, 0 < e.equity) ∧ ∀ perYear riskFree alpha : Exact,
      1 + (metricsOf (periodReturns report.initialCash (report.run.curve.map (·.equity))) perYear riskFree
          alpha).totalReturn = number 0.4975 := by
  obtain ⟨report, h, hchecks⟩ := exists_of_check sample_solvent
  obtain ⟨hinitial, hequities⟩ := Bool.and_eq_true_iff.mp hchecks
  have hinitial := of_decide_eq_true hinitial
  have hequities := eq_of_beq hequities
  have hcash : 0 < report.initialCash := by
    rw [hinitial]
    decide
  have hsolvent : ∀ e ∈ report.run.curve.dropLast, 0 < e.equity := by
    have hall : ∀ n ∈ (report.run.curve.map (·.equity)).dropLast, 0 < n := by
      rw [hequities]
      decide
    rw [← List.map_dropLast, List.forall_mem_map] at hall
    exact hall
  obtain ⟨_, last, hlast, hgrowth⟩ := total_return_is_growth h hcash hsolvent
  have hequity : last.equity = 4975 := by
    have hmap := congrArg (Option.map (·.equity)) hlast
    rw [← List.getLast?_map, hequities] at hmap
    exact (Option.some.inj hmap).symm
  refine ⟨report, h, hcash, hsolvent, fun perYear riskFree alpha => ?_⟩
  rw [hgrowth, hequity, hinitial]
  norm_num

end Backtest
end PortfolioLab
