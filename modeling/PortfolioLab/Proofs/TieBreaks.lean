import PortfolioLab.Proofs.Bookkeeping
import PortfolioLab.Proofs.SideBySide

/-!
# Priorities of stops

The priority list decides in which order the stops of one period are left. It is read nowhere else, and
exits in any order leave the same account, so two simulations that differ in their priorities report the
same money and the same trades, up to the order of the exits of one period.
-/

namespace PortfolioLab.Backtest

variable {settings : RunSettings} {model : CostModel} {weights : WeightInput} {prices : PriceInput}
  {initialCash : Option Value} {stops : StopAssignment} {report₁ report₂ : Report}

theorem bookOf_withPriority {rules : Register StopRule} {priority : List Value}
    {book₁ book₂ : Option StopBook} (h₁ : bookOf rules settings = .ok book₁)
    (h₂ : bookOf rules { settings with stopPriority := priority } = .ok book₂) :
    ∃ (book : Option StopBook) (priority₁ priority₂ : List String),
      (∀ b, book = some b → b.states = []) ∧ book₁ = book.map (StopBook.withPriority priority₁) ∧
        book₂ = book.map (StopBook.withPriority priority₂) := by
  unfold bookOf at h₁ h₂
  by_cases hrules : rules.isEmpty
  · rw [if_pos hrules] at h₁ h₂
    cases h₁
    cases h₂
    exact ⟨none, [], [], (fun _ h => nomatch h), rfl, rfl⟩
  · rw [if_neg hrules] at h₁ h₂
    obtain ⟨policy, hpolicy, h₁⟩ := bind_eq_ok.mp h₁
    obtain ⟨policy', hpolicy', h₂⟩ := bind_eq_ok.mp h₂
    cases hpolicy.symm.trans hpolicy'
    obtain ⟨priority₁, _, h₁⟩ := bind_eq_ok.mp h₁
    obtain ⟨priority₂, _, h₂⟩ := bind_eq_ok.mp h₂
    cases h₁
    cases h₂
    refine ⟨some { rules, policy }, priority₁, priority₂, fun b hb => ?_, rfl, rfl⟩
    cases hb
    rfl

/-- Settings that differ in the priority list come to the same periods, cash and rules. -/
private theorem Accepted.withPriority {priority : List Value} {setup₁ setup₂ : Setup}
    (h₁ : Accepted settings weights prices initialCash stops setup₁)
    (h₂ : Accepted { settings with stopPriority := priority } weights prices initialCash stops setup₂) :
    setup₁.periods = setup₂.periods ∧ setup₁.cash = setup₂.cash ∧ setup₁.rules = setup₂.rules := by
  have hprices : setup₁.prices = setup₂.prices := Except.ok.inj (h₁.prices.symm.trans h₂.prices)
  have htargets : setup₁.targets = setup₂.targets := Except.ok.inj (h₁.targets.symm.trans h₂.targets)
  have hbars := h₁.bars
  have hrules := h₁.rules
  rw [hprices] at hbars
  rw [hprices, htargets] at hrules
  refine ⟨?_, Except.ok.inj (h₁.cash.symm.trans h₂.cash), Except.ok.inj (hrules.symm.trans h₂.rules)⟩
  rw [Setup.periods, Setup.periods, htargets, Except.ok.inj (hbars.symm.trans h₂.bars)]

/-- Priorities never change money: two simulations that differ only in their priority lists report the
same records, holdings, final positions and final cash, and their trades and stop events are the same
but for exchanges of stop exits of one period. -/
theorem tie_breaks_keep_balances {priority : List Value}
    (h₁ : simulate settings model weights prices initialCash stops = .ok report₁)
    (h₂ : simulate { settings with stopPriority := priority } model weights prices initialCash stops =
      .ok report₂) :
    report₁.balances = report₂.balances ∧
      Reordered Trade.Ties report₁.run.account.trades report₂.run.account.trades ∧
      Reordered StopEvent.Ties report₁.run.account.events report₂.run.account.events := by
  obtain ⟨setup₁, ha₁, hrun₁, hcash₁, _⟩ := exists_setup h₁
  obtain ⟨setup₂, ha₂, hrun₂, hcash₂, _⟩ := exists_setup h₂
  obtain ⟨hperiods, hcash, hrules⟩ := ha₁.withPriority ha₂
  have hbook₁ := ha₁.book
  rw [hrules] at hbook₁
  obtain ⟨book, priority₁, priority₂, hunused, hsame₁, hsame₂⟩ := bookOf_withPriority hbook₁ ha₂.book
  rw [hperiods, hcash, hsame₁] at hrun₁
  rw [hsame₂] at hrun₂
  have hvalid := ha₂.valid.periods
  have hparallel : List.Forall₂ (Period.Parallel fun _ => True) setup₂.periods setup₂.periods :=
    List.forall₂_same.mpr fun p _ => ⟨rfl, rfl, fun _ _ _ _ => trivial, fun _ _ => rfl⟩
  have hruns := Run.parallel_of_periods hunused hparallel hvalid hvalid hrun₁ hrun₂
  obtain ⟨hfinal, hpositions, htrades, hevents, _⟩ := hruns.account.outcome
  have hinitial : report₁.initialCash = report₂.initialCash := by rw [hcash₁, hcash₂, hcash]
  exact ⟨Report.balances_congr hinitial hruns.curve hruns.holdings hpositions hfinal, htrades, hevents⟩

/-- Two symbols that fall through their stops on the same day. -/
def slump (priority : List Value) : Except Failure Report :=
  simulate { stopPriority := priority } .zero (sampleWeights [])
    (.table ⟨["event_time", "symbol", "close"],
      [[.text "2024-01-01", .text "A", .real 10], [.text "2024-01-01", .text "B", .real 10],
        [.text "2024-01-02", .text "A", .real 1], [.text "2024-01-02", .text "B", .real 2]]⟩)
    (some (.int 100)) (.shared ⟨.fixed 0.1, 14⟩)

theorem slump_exits :
    (slump []).toOption.any (·.run.account.events.map (·.symbol) = ["A", "B"]) = true ∧
      (slump [.text "B"]).toOption.any (·.run.account.events.map (·.symbol) = ["B", "A"]) = true := by
  unfold slump simulate PriceSchedule.ofInput PriceSchedule.ofRows WeightSchedule.ofInput
    WeightSchedule.ofMapping allSymbols Run.ofPeriods Run.step Run.record Run.takeStock
    Account.rebalance Account.orders Account.concerned Account.runStops StopBook.evaluate
    SymbolReturns.ofSchedule sampleWeights
  simp only [ascending_eq_insertionSort, stopOrder_eq_insertionSort,
    WeightSchedule.sortByTime_eq_insertionSort,
    mergeSort_eq_insertionSort PriceSchedule.rowLe_trans PriceSchedule.rowLe_total]
  decide +kernel

theorem tie_breaks_keep_balances_slump : ∃ report₁ report₂, slump [] = .ok report₁ ∧
    slump [.text "B"] = .ok report₂ ∧
    report₁.run.account.events.map (·.symbol) ≠ report₂.run.account.events.map (·.symbol) ∧
    report₁.balances = report₂.balances := by
  obtain ⟨report₁, h₁, hexits₁⟩ := exists_of_check slump_exits.1
  obtain ⟨report₂, h₂, hexits₂⟩ := exists_of_check slump_exits.2
  refine ⟨report₁, report₂, h₁, h₂, ?_, (tie_breaks_keep_balances h₁ h₂).1⟩
  rw [of_decide_eq_true hexits₁, of_decide_eq_true hexits₂]
  decide

end PortfolioLab.Backtest
