import PortfolioLab.Proofs.PriceTables
import PortfolioLab.Proofs.SideBySide
import PortfolioLab.Proofs.TradingDays

/-!
# Symbols without weights

A symbol that the weight schedule never names is never held. Its prices enter the bars, the histories,
the last closes and the rules for stops, but nothing that is done to another symbol reads them. So its
rows may come and go, as long as the periods stay the same, without a trace in the trades or the money.
-/

namespace PortfolioLab

structure Report.SameOutcome (r₁ r₂ : Report) : Prop where
  balances : r₁.balances = r₂.balances
  trades : r₁.run.account.trades = r₂.run.account.trades
  events : r₁.run.account.events = r₂.run.account.events
  metrics : r₁.metrics = r₂.metrics

theorem Report.SameOutcome.symm {r₁ r₂ : Report} (h : r₁.SameOutcome r₂) : r₂.SameOutcome r₁ :=
  ⟨h.balances.symm, h.trades.symm, h.events.symm, h.metrics.symm⟩

namespace Backtest

open PriceSchedule (SameBut tableOf tableRows)

variable {settings : RunSettings} {model : CostModel} {weights : WeightInput}
  {prices prices₁ prices₂ : PriceInput} {initialCash : Option Value} {stops : StopAssignment}
  {setup₁ setup₂ : Setup} {report report₁ report₂ : Report} {z : String}

theorem metrics_of_simulate
    (h : simulate settings model weights prices initialCash stops = .ok report) :
    performance (.row (report.returns.map .number)) settings.periodsPerYear settings.riskFreeRate
      defaultTailLevel = .ok report.metrics := by
  unfold simulate at h
  obtain ⟨rows, _, h⟩ := bind_eq_ok.mp h
  obtain ⟨schedule, _, h⟩ := bind_eq_ok.mp h
  obtain ⟨bars, _, h⟩ := bind_eq_ok.mp h
  split at h
  · cases h
  · obtain ⟨cash, _, h⟩ := bind_eq_ok.mp h
    split at h
    · cases h
    · obtain ⟨rules, _, h⟩ := bind_eq_ok.mp h
      obtain ⟨book, _, h⟩ := bind_eq_ok.mp h
      obtain ⟨run, _, h⟩ := bind_eq_ok.mp h
      obtain ⟨metrics, hmetrics, h⟩ := bind_eq_ok.mp h
      obtain ⟨returns, _, h⟩ := bind_eq_ok.mp h
      cases h
      exact hmetrics

/-- Simulations whose prices differ in the rows of a symbol without weights: the same weights, and the
same bars of every other symbol. -/
theorem Accepted.parallel_periods (h₁ : Accepted settings weights prices₁ initialCash stops setup₁)
    (h₂ : Accepted settings weights prices₂ initialCash stops setup₂)
    (hz : ∀ entry ∈ setup₁.targets, z ∉ entry.2.symbols) (hsame : SameBut z setup₁.prices setup₂.prices) :
    List.Forall₂ (Period.Parallel (· ≠ z)) setup₁.periods setup₂.periods := by
  have htargets : setup₁.targets = setup₂.targets := Except.ok.inj (h₁.targets.symm.trans h₂.targets)
  have hsorted₁ := (PriceSchedule.ofInput_keyed prices₁).of_ok h₁.prices
  have hsorted₂ := (PriceSchedule.ofInput_keyed prices₂).of_ok h₂.prices
  have hbars := hsame.forall₂_periods hsorted₁ hsorted₂ h₁.bars h₂.bars
  rw [Setup.periods, Setup.periods, periodsOf, periodsOf, ← htargets, List.forall₂_map_left_iff,
    List.forall₂_map_right_iff]
  refine hbars.imp fun p q hpq => ?_
  obtain ⟨htime, hquotes⟩ := hpq
  refine ⟨htime, ?_, fun t ht symbol hs => ?_, hquotes⟩
  · exact congrArg setup₁.targets.targetsAt? htime
  · obtain ⟨entry, hentry, rfl⟩ := Option.map_eq_some_iff.mp ht
    rintro rfl
    exact hz entry (List.mem_of_find?_eq_some hentry) hs

/-- A run does the same with the rules of a schedule that has more symbols. -/
theorem Accepted.run_withRules (h₁ : Accepted settings weights prices₁ initialCash stops setup₁)
    (h₂ : Accepted settings weights prices₂ initialCash stops setup₂)
    (hsub : ∀ symbol ∈ allSymbols setup₁.prices setup₁.targets,
      symbol ∈ allSymbols setup₂.prices setup₂.targets)
    (hrun : Run.ofPeriods model setup₁.cash setup₁.book setup₁.periods = .ok report₁.run)
    (hne : report₁.run.curve ≠ []) :
    ∃ run : Run, report₁.run = run.withRules setup₁.rules ∧
      Run.ofPeriods model setup₁.cash setup₂.book setup₁.periods = .ok (run.withRules setup₂.rules) := by
  obtain ⟨symbol, hm⟩ := h₁.exists_symbol hrun hne
  obtain ⟨hempty, hrules⟩ := h₁.rules_agree h₂ ⟨symbol, hm⟩ ⟨symbol, hsub symbol hm⟩
  have hbooks := bookOf_twins hempty settings
  rw [h₁.book, h₂.book] at hbooks
  obtain ⟨book, hbook₁, hbook₂⟩ := hbooks.of_ok
  have hagree : ∀ p ∈ setup₁.periods, ∀ symbol ∈ p.bars.symbols,
      setup₁.rules.find? symbol = setup₂.rules.find? symbol := by
    intro p hp symbol hs
    obtain ⟨q, hq, rfl⟩ := List.mem_map.mp hp
    obtain ⟨row, hr, hsymbol⟩ := (PriceSchedule.from_periods h₁.bars q hq).2 symbol hs
    have hknown : symbol ∈ allSymbols setup₁.prices setup₁.targets := mem_allSymbols_of_row hr hsymbol
    exact hrules symbol hknown (hsub symbol hknown)
  have htwins := Run.ofPeriods_twins h₁.valid.periods hagree model setup₁.cash book
  rw [← hbook₁, ← hbook₂, hrun] at htwins
  exact htwins.of_ok_left

theorem mem_allSymbols {rows : PriceSchedule} {targets : WeightSchedule} {symbol : String} :
    symbol ∈ allSymbols rows targets ↔
      (∃ row ∈ rows, row.symbol = symbol) ∨ ∃ entry ∈ targets, symbol ∈ entry.2.symbols := by
  rw [allSymbols, mem_ascending, List.mem_eraseDups, List.mem_append, PriceSchedule.mem_symbols,
    List.mem_flatMap]

/-- Runs side by side with the same priorities, the first but for its rules. -/
private theorem sameOutcome_of_parallel {P : String → Prop} {priority : List String} {run : Run}
    {rules₁ rules₂ : Register StopRule}
    (h₁ : simulate settings model weights prices₁ initialCash stops = .ok report₁)
    (h₂ : simulate settings model weights prices₂ initialCash stops = .ok report₂)
    (hinitial : report₁.initialCash = report₂.initialCash) (hrun : report₁.run = run.withRules rules₁)
    (hruns : Run.Parallel P priority priority (run.withRules rules₂) report₂.run) :
    report₁.SameOutcome report₂ := by
  obtain ⟨hcash, hpositions, _, _, hlogs⟩ := hruns.account.outcome
  obtain ⟨htrades, hevents⟩ := hlogs rfl
  have hcurve : report₁.run.curve = report₂.run.curve := by
    rw [hrun]
    exact hruns.curve
  have hmetrics₁ := metrics_of_simulate h₁
  rw [Report.returns, hinitial, hcurve] at hmetrics₁
  refine ⟨Report.balances_congr hinitial hcurve ?_ ?_ ?_, ?_, ?_, ?_⟩
  · rw [hrun]
    exact hruns.holdings
  · rw [hrun]
    exact hpositions
  · rw [hrun]
    exact hcash
  · rw [hrun]
    exact htrades
  · rw [hrun]
    exact hevents
  · exact Except.ok.inj (hmetrics₁.symm.trans (metrics_of_simulate h₂))

private theorem sameOutcome_of_known {rows₁ rows₂ : PriceSchedule} {targets : WeightSchedule}
    (h₁ : simulate settings model weights prices₁ initialCash stops = .ok report₁)
    (h₂ : simulate settings model weights prices₂ initialCash stops = .ok report₂)
    (hrows₁ : PriceSchedule.ofInput prices₁ = .ok rows₁)
    (hrows₂ : PriceSchedule.ofInput prices₂ = .ok rows₂)
    (htargets : WeightSchedule.ofInput weights = .ok targets)
    (hz : ∀ entry ∈ targets, z ∉ entry.2.symbols) (hsame : SameBut z rows₁ rows₂)
    (hknown : (∃ row ∈ rows₁, row.symbol = z) → ∃ row ∈ rows₂, row.symbol = z) :
    report₁.SameOutcome report₂ := by
  obtain ⟨setup₁, ha₁, hrun₁, hcash₁, _, hne⟩ := exists_setup h₁
  obtain ⟨setup₂, ha₂, hrun₂, hcash₂, _⟩ := exists_setup h₂
  cases Except.ok.inj (hrows₁.symm.trans ha₁.prices)
  cases Except.ok.inj (hrows₂.symm.trans ha₂.prices)
  cases Except.ok.inj (htargets.symm.trans ha₁.targets)
  have hentries : setup₁.targets = setup₂.targets := Except.ok.inj (ha₁.targets.symm.trans ha₂.targets)
  have hcash : setup₁.cash = setup₂.cash := Except.ok.inj (ha₁.cash.symm.trans ha₂.cash)
  have hsub : ∀ symbol ∈ allSymbols setup₁.prices setup₁.targets,
      symbol ∈ allSymbols setup₂.prices setup₂.targets := by
    intro symbol hm
    rw [mem_allSymbols] at hm ⊢
    refine hm.imp (fun hrow => ?_) fun hentry => hentries ▸ hentry
    by_cases hs : symbol = z
    · rw [hs] at hrow ⊢
      exact hknown hrow
    · exact hsame.exists_row hs hrow
  -- with the rules of the second simulation, the first run starts from the same book
  obtain ⟨run, hshifted, hrun⟩ := ha₁.run_withRules ha₂ hsub hrun₁ hne
  have hbook : setup₂.book = setup₂.book.map (StopBook.withPriority (priorityOf setup₂.book)) := by
    cases setup₂.book <;> rfl
  rw [hbook, hcash] at hrun
  rw [hbook] at hrun₂
  have hruns := Run.parallel_of_periods ha₂.valid.unused (ha₁.parallel_periods ha₂ hz hsame)
    ha₁.valid.periods ha₂.valid.periods hrun hrun₂
  have hinitial : report₁.initialCash = report₂.initialCash := by rw [hcash₁, hcash₂, hcash]
  exact sameOutcome_of_parallel h₁ h₂ hinitial hshifted hruns

/-- Symbols without weights do not interfere: two simulations with the same settings, costs, cash, weights
and stops report the same if the rows of their price tables are the same but for those of a symbol that
has no weight, and have the same instants. Rows are the same if instant, symbol and prices in cents are:
a table holds its cells in the types of its columns. -/
theorem unweighted_symbol_inert {t₁ t₂ : Table} {targets : WeightSchedule}
    (h₁ : simulate settings model weights prices₁ initialCash stops = .ok report₁)
    (h₂ : simulate settings model weights prices₂ initialCash stops = .ok report₂)
    (htable₁ : tableOf prices₁ = .ok t₁) (htable₂ : tableOf prices₂ = .ok t₂)
    (htargets : WeightSchedule.ofInput weights = .ok targets)
    (hz : ∀ entry ∈ targets, z ∉ entry.2.symbols) (hsame : SameBut z (tableRows t₁) (tableRows t₂)) :
    report₁.SameOutcome report₂ := by
  obtain ⟨setup₁, ha₁, _⟩ := exists_setup h₁
  obtain ⟨setup₂, ha₂, _⟩ := exists_setup h₂
  have hrows := hsame.ofInput htable₁ htable₂ ha₁.prices ha₂.prices
  -- the rules of a run go by its symbols, so the run with fewer symbols takes over those of the other
  by_cases hknown : (∃ row ∈ setup₁.prices, row.symbol = z) → ∃ row ∈ setup₂.prices, row.symbol = z
  · exact sameOutcome_of_known h₁ h₂ ha₁.prices ha₂.prices htargets hz hrows hknown
  · have hnone : ¬ ∃ row ∈ setup₂.prices, row.symbol = z := fun h => hknown fun _ => h
    exact (sameOutcome_of_known h₂ h₁ ha₂.prices ha₁.prices htargets hz hrows.symm
      fun h => absurd h hnone).symm

/-- Prices of a symbol without weight on both days of the sample. -/
def bystanderPrices : List (List Value) :=
  [[.text "2024-01-01", .text "C", .real 7], [.text "2024-01-02", .text "C", .real 3]]

/-- The sample reports with these prices too, and has returns for their symbol. -/
theorem bystander_known : (sample .zero bystanderPrices []).toOption.any (fun r =>
    r.symbolReturns.any (·.returns.symbols.contains "C")) = true := by
  unfold sample simulate PriceSchedule.ofInput PriceSchedule.ofRows WeightSchedule.ofInput
    WeightSchedule.ofMapping allSymbols Run.ofPeriods Run.step Run.record Run.takeStock
    Account.rebalance Account.orders Account.concerned Account.runStops StopBook.evaluate
    SymbolReturns.ofSchedule sampleWeights samplePrices bystanderPrices
  simp only [ascending_eq_insertionSort, stopOrder_eq_insertionSort,
    WeightSchedule.sortByTime_eq_insertionSort,
    mergeSort_eq_insertionSort PriceSchedule.rowLe_trans PriceSchedule.rowLe_total]
  decide +kernel

def closeRow (time : Instant) (symbol : String) (close : Float) : PriceRow :=
  { time, symbol, opening := none, high := none, low := none, close := .real close }

def sampleRows (others : List PriceRow) : List PriceRow :=
  [closeRow firstDay "A" 10, closeRow firstDay "B" 10, closeRow secondDay "A" 1,
    closeRow secondDay "B" 12] ++ others

private theorem sample_tables :
    (∃ t, tableOf (samplePrices []) = .ok t ∧ tableRows t = sampleRows []) ∧
      ∃ t, tableOf (samplePrices bystanderPrices) = .ok t ∧
        tableRows t = sampleRows [closeRow firstDay "C" 7, closeRow secondDay "C" 3] :=
  ⟨⟨_, rfl, rfl⟩, ⟨_, rfl, rfl⟩⟩

private theorem sample_sameBut : SameBut "C" (sampleRows [])
    (sampleRows [closeRow firstDay "C" 7, closeRow secondDay "C" 3]) := by
  refine ⟨?_, fun time => ?_⟩
  · have hrows : (sampleRows []).filter (·.symbol ≠ "C") =
        (sampleRows [closeRow firstDay "C" 7, closeRow secondDay "C" 3]).filter (·.symbol ≠ "C") := by
      simp [sampleRows, closeRow]
    rw [hrows]
    exact List.forall₂_same.mpr fun _ _ => ⟨rfl, rfl, rfl⟩
  · simp only [sampleRows, closeRow, List.cons_append, List.nil_append, List.append_nil,
      List.exists_mem_cons_iff]
    grind

theorem unweighted_symbol_inert_sample : ∃ report₁ report₂, sample .zero [] [] = .ok report₁ ∧
    sample .zero bystanderPrices [] = .ok report₂ ∧ report₁.SameOutcome report₂ := by
  obtain ⟨report₁, h₁, _⟩ := exists_of_check sample_checks.1
  obtain ⟨report₂, h₂, _⟩ := exists_of_check bystander_known
  obtain ⟨⟨t₁, htable₁, hrows₁⟩, t₂, htable₂, hrows₂⟩ := sample_tables
  have hsame : SameBut "C" (tableRows t₁) (tableRows t₂) := by
    rw [hrows₁, hrows₂]
    exact sample_sameBut
  have htargets : WeightSchedule.ofInput (sampleWeights []) = .ok [(firstDay, [("A", 0.5), ("B", 0.5)])] := by
    unfold WeightSchedule.ofInput WeightSchedule.ofMapping sampleWeights
    simp only [WeightSchedule.sortByTime_eq_insertionSort]
    rfl
  exact ⟨report₁, report₂, h₁, h₂,
    unweighted_symbol_inert h₁ h₂ htable₁ htable₂ htargets (by simp) hsame⟩

end Backtest
end PortfolioLab
