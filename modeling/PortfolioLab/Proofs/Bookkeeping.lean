import PortfolioLab.Proofs.Simulation

/-!
# The books of a simulation

Everything that a report says of its account follows from its log of trades: the cash and the
holdings of every period are those of a replay of the log up to it, cash goes below zero only through
a sale that costs more than it brings in, and the stops at the end of every period are those of the
positions.
-/

namespace PortfolioLab

open TradeLog

/-- The last close of a symbol at or before an instant. -/
def closeAt (periods : List Period) (symbol : String) (time : Instant) : Option Cents :=
  closeIn (periods.filter (·.time ≤ time)) symbol

namespace Report

def tradesUpTo (r : Report) (time : Instant) : List Trade :=
  r.run.account.trades.filter (·.time ≤ time)

def holdingsAt (r : Report) (time : Instant) : List Holding := r.run.holdings.filter (·.time = time)

/-- A record is what the trades up to it make of the initial cash: the cash is what they left, the
holdings are the symbols of which they left something, each at its last close, and the equity is cash
and holdings together. -/
structure Replays (r : Report) (periods : List Period) (e : EquityRecord) : Prop where
  cash : e.cash = r.initialCash - outlay (r.tradesUpTo e.time)
  held : ∀ symbol, (∃ h ∈ r.holdingsAt e.time, h.symbol = symbol) ↔
    net symbol (r.tradesUpTo e.time) ≠ 0
  quantity : ∀ h ∈ r.holdingsAt e.time,
    h.quantity = net h.symbol (r.tradesUpTo e.time) ∧ 0 < h.quantity
  price : ∀ h ∈ r.holdingsAt e.time, closeAt periods h.symbol e.time = some h.price
  marketValue : ∀ h ∈ r.holdingsAt e.time, h.marketValue = h.quantity * h.price
  equity : e.equity = e.cash + ((r.holdingsAt e.time).map (·.marketValue)).sum

end Report

/-- The periods up to one of them, in ascending order of time. -/
theorem filter_upTo {pre post : List Period} {p : Period}
    (h : (pre ++ p :: post).Pairwise (·.time < ·.time)) :
    (pre ++ p :: post).filter (·.time ≤ p.time) = pre ++ [p] := by
  obtain ⟨_, hp, hpre⟩ := List.pairwise_append.mp h
  have hbefore : pre.filter (·.time ≤ p.time) = pre :=
    List.filter_eq_self.mpr fun q hq => decide_eq_true (hpre q hq p List.mem_cons_self).le
  have hafter : post.filter (·.time ≤ p.time) = [] :=
    List.filter_eq_nil_iff.mpr fun q hq => by simpa using (List.pairwise_cons.mp hp).1 q hq
  simp [List.filter_append, hbefore, hafter]

namespace Account

variable {a : Account} {time : Instant} {holding : Holding}

theorem mem_stock : holding ∈ a.stock time ↔
    ∃ symbol ∈ a.positions.symbols, a.holding time symbol = holding := by
  simp [stock]

theorem exists_mem_stock {symbol : String} :
    (∃ h ∈ a.stock time, h.symbol = symbol) ↔ symbol ∈ a.positions.symbols := by
  constructor
  · rintro ⟨h, hm, rfl⟩
    obtain ⟨symbol, hs, rfl⟩ := mem_stock.mp hm
    exact hs
  · exact fun hs => ⟨a.holding time symbol, mem_stock.mpr ⟨symbol, hs, rfl⟩, rfl⟩

end Account

/-- The account at the end of a period is recorded as a replay of the log up to that period. -/
theorem Report.replays_of_last {r : Report} {rules : Option (Register StopRule)}
    {pre post : List Period} {p : Period} {last : Run}
    (hsorted : (pre ++ p :: post).Pairwise (·.time < ·.time))
    (hsound : Run.Sound r.initialCash rules (pre ++ [p]) last)
    (hj : r.run.journal.upTo p.time = last.journal)
    (hholdings : r.run.holdings.filter (·.time = p.time) = last.account.stock p.time) :
    r.Replays (pre ++ p :: post) (last.account.worth p.time) := by
  have ha := hsound.account.balanced
  have htrades : r.tradesUpTo p.time = last.account.trades := congrArg Journal.trades hj
  have hstock : r.holdingsAt p.time = last.account.stock p.time := hholdings
  refine ⟨?_, fun symbol => ?_, fun h hm => ?_, fun h hm => ?_, fun h hm => ?_, ?_⟩
  · show last.account.cash = _
    rw [Account.worth, htrades, ha.cash]
  · rw [Account.worth, htrades, hstock, Account.exists_mem_stock, ha.mem_iff]
  · rw [Account.worth, hstock] at hm
    obtain ⟨symbol, hs, rfl⟩ := Account.mem_stock.mp hm
    rw [Account.worth, htrades]
    exact ⟨ha.held symbol, ha.held_pos hs⟩
  · rw [Account.worth, hstock] at hm
    obtain ⟨symbol, hs, rfl⟩ := Account.mem_stock.mp hm
    obtain ⟨price, hprice⟩ := Register.exists_find?_iff.mpr (ha.priced symbol hs)
    rw [Account.worth, closeAt, filter_upTo hsorted, ← hsound.lastClose]
    simp [Account.holding, hprice]
  · rw [Account.worth, hstock] at hm
    obtain ⟨symbol, _, rfl⟩ := Account.mem_stock.mp hm
    rfl
  · rw [Account.worth, hstock]

namespace Backtest

variable {settings : RunSettings} {model : CostModel} {weights : WeightInput} {prices : PriceInput}
  {initialCash : Option Value} {stops : StopAssignment} {report : Report}

/-! ## A small simulation -/

/-- Two days of prices for two symbols, the first of which falls, and maybe later ones. -/
def samplePrices (later : List (List Value)) : PriceInput :=
  .table ⟨["event_time", "symbol", "close"],
    [.text "2024-01-01", .text "A", .real 10] :: [.text "2024-01-01", .text "B", .real 10] ::
    [.text "2024-01-02", .text "A", .real 1] :: [.text "2024-01-02", .text "B", .real 12] :: later⟩

/-- Half of the equity in each of two symbols, and maybe other weights later. -/
def sampleWeights (later : List (String × Targets)) : WeightInput :=
  .mapping (("2024-01-01", [("A", 0.5), ("B", 0.5)]) :: later)

/-- A third day, with a symbol that the first two do not have. -/
def laterPrices : List (List Value) :=
  [[.text "2024-01-03", .text "B", .real 9], [.text "2024-01-03", .text "C", .real 5]]

def laterWeights : List (String × Targets) := [("2024-01-03", [("C", 1)])]

/-- A simulation that spends a hundred dollars, with stops ten percent below the entry prices. -/
def sample (model : CostModel) (prices : List (List Value)) (weights : List (String × Targets)) :
    Except Failure Report :=
  simulate {} model (sampleWeights weights) (samplePrices prices) (some (.int 100))
    (.shared ⟨.fixed 0.1, 14⟩)

theorem sample_checks :
    (sample .zero [] []).toOption.any (·.stopsEnabled) = true ∧
      (sample ⟨0, 0, 3000⟩ [] []).toOption.any (·.run.curve.any (·.cash < 0)) = true ∧
      (sample .zero laterPrices laterWeights).toOption.any (·.run.curve.length = 3) = true := by
  unfold sample simulate PriceSchedule.ofInput PriceSchedule.ofRows WeightSchedule.ofInput
    WeightSchedule.ofMapping allSymbols Run.ofPeriods Run.step Run.record Run.takeStock
    Account.rebalance Account.orders Account.concerned Account.runStops StopBook.evaluate
    SymbolReturns.ofSchedule sampleWeights samplePrices
  simp only [ascending_eq_insertionSort, stopOrder_eq_insertionSort,
    WeightSchedule.sortByTime_eq_insertionSort,
    mergeSort_eq_insertionSort PriceSchedule.rowLe_trans PriceSchedule.rowLe_total]
  decide +kernel

/-! ## Replay -/

private theorem finalPositions_quantities (r : Report) (time : Instant) :
    r.finalPositions.map (fun entry => (entry.1, entry.2.quantity)) =
      (r.run.account.stock time).map (fun h => (h.symbol, h.quantity)) := by
  unfold Report.finalPositions Account.stock
  have hm : ∀ symbol ∈ ascending r.run.account.positions.symbols,
      symbol ∈ r.run.account.positions.symbols := fun symbol hs => mem_ascending.mp hs
  generalize ascending r.run.account.positions.symbols = symbols at hm ⊢
  induction symbols with
  | nil => rfl
  | cons symbol rest ih =>
    obtain ⟨position, hp⟩ := Register.exists_find?_iff.mpr (hm symbol List.mem_cons_self)
    rw [List.filterMap_cons_some (by rw [hp]; rfl), List.map_cons,
      ih fun s hs => hm s (List.mem_cons_of_mem _ hs)]
    simp [Account.holding, Account.held_of_find? hp]

/-- Every record of an accepted simulation is the account at the end of its period. -/
private theorem Accepted.record {setup : Setup}
    (h : Accepted settings weights prices initialCash stops setup)
    (hrun : Run.ofPeriods model setup.cash setup.book setup.periods = .ok report.run)
    (hcash : report.initialCash = setup.cash) {e : EquityRecord} (he : e ∈ report.run.curve) :
    ∃ last done, Run.Sound report.initialCash (setup.book.map (·.rules)) done last ∧
      report.tradesUpTo e.time = last.account.trades ∧ report.Replays setup.periods e := by
  have hvalid := h.valid
  obtain ⟨pre, p, post, last, hperiods, hsound, rfl, hj, hholdings⟩ :=
    Run.record_of_period hvalid.unused hvalid.periods hvalid.ascending hrun he
  have hsorted := hvalid.ascending
  rw [← hcash] at hsound
  rw [hperiods] at hsorted ⊢
  exact ⟨last, _, hsound, congrArg Journal.trades hj,
    Report.replays_of_last hsorted hsound hj hholdings⟩

/-- Accounting by replay: every period has one record, the record is what the trades up to it make of
the initial cash, and the final account is that of the last record. -/
theorem accounting_by_replay
    (h : simulate settings model weights prices initialCash stops = .ok report) :
    ∃ setup, Accepted settings weights prices initialCash stops setup ∧
      report.initialCash = setup.cash ∧
      report.run.curve.map (·.time) = setup.periods.map (·.time) ∧
      (∀ e ∈ report.run.curve, report.Replays setup.periods e) ∧
      ∃ last, report.run.curve.getLast? = some last ∧ report.run.account.cash = last.cash ∧
        report.finalPositions.map (fun entry => (entry.1, entry.2.quantity)) =
          report.lastHoldings.map (fun h => (h.symbol, h.quantity)) := by
  obtain ⟨setup, haccepted, hrun, hcash, _, hne⟩ := exists_setup h
  have hvalid := haccepted.valid
  obtain ⟨_, hcurve, _⟩ := (Run.ofPeriods_keyed hvalid.unused hvalid.periods).of_ok hrun
  refine ⟨setup, haccepted, hcash, hcurve, fun e he => ?_, ?_⟩
  · obtain ⟨_, _, _, _, hreplays⟩ := haccepted.record hrun hcash he
    exact hreplays
  · have hperiods : setup.periods ≠ [] := fun hnil => hne (by simpa [hnil] using hcurve)
    obtain ⟨pre, p, hpre⟩ := (List.eq_nil_or_concat' setup.periods).resolve_left hperiods
    have hascending := hvalid.ascending
    have hvalids := hvalid.periods
    rw [hpre] at hrun hascending hvalids
    obtain ⟨⟨curve, hc, _⟩, hholdings⟩ := Run.last_period hvalid.unused hvalids
      (fun q hq => (List.pairwise_append.mp hascending).2.2 q hq p (by simp)) hrun
    have hlast : report.run.curve.getLast? = some (report.run.account.worth p.time) := by
      rw [hc, List.getLast?_concat]
    refine ⟨_, hlast, rfl, ?_⟩
    have hstock : report.lastHoldings = report.run.account.stock p.time := by
      rw [Report.lastHoldings, hlast]
      exact hholdings
    rw [hstock]
    exact finalPositions_quantities report p.time

theorem accounting_by_replay_sample : ∃ report, sample .zero [] [] = .ok report ∧
    ∃ setup : Setup, report.initialCash = setup.cash ∧
      ∀ e ∈ report.run.curve, report.Replays setup.periods e := by
  obtain ⟨report, h, _⟩ := exists_of_check sample_checks.1
  obtain ⟨setup, _, hcash, _, hreplays, _⟩ := accounting_by_replay h
  exact ⟨report, h, setup, hcash, hreplays⟩

/-! ## Cash -/

/-- Cash safety: the cash right after a buy is not negative; while every sale brings in at least its
fee, neither is any recorded cash or the final one; and a record with negative cash comes no earlier
than a sale that cost more than it brought in. -/
theorem cash_safety (h : simulate settings model weights prices initialCash stops = .ok report) :
    (∀ time a order a', Account.buy model time a order = .ok a' → a' = a ∨ 0 ≤ a'.cash) ∧
    (∀ before buy after, report.run.account.trades = before ++ buy :: after → 0 < buy.quantity →
      0 ≤ report.initialCash - outlay (before ++ [buy])) ∧
    ((∀ t ∈ report.run.account.trades, t.quantity < 0 → t.fee ≤ t.proceeds) →
      (∀ e ∈ report.run.curve, 0 ≤ e.cash) ∧ 0 ≤ report.run.account.cash) ∧
    ∀ e ∈ report.run.curve, e.cash < 0 →
      ∃ t ∈ report.run.account.trades, t.time ≤ e.time ∧ t.quantity < 0 ∧ t.proceeds < t.fee := by
  obtain ⟨setup, haccepted, hrun, hcash, _⟩ := exists_setup h
  have hvalid := haccepted.valid
  obtain ⟨hsound, _⟩ := (Run.ofPeriods_keyed hvalid.unused hvalid.periods).of_ok hrun
  rw [← hcash] at hsound
  have hinitial : 0 ≤ report.initialCash := hcash ▸ hvalid.solvent
  have hbalanced := hsound.account.balanced
  -- a record is in debt only if a sale up to it costs more than it brings in
  have hrecord : ∀ e ∈ report.run.curve,
      (∀ t ∈ report.tradesUpTo e.time, t.quantity < 0 → t.fee ≤ t.proceeds) → 0 ≤ e.cash := by
    intro e he hpays
    obtain ⟨last, _, hlast, htrades, hreplays⟩ := haccepted.record hrun hcash he
    have hbooks := hlast.account.balanced
    rw [hreplays.cash]
    rw [htrades] at hpays ⊢
    exact hbooks.funded.remaining_nonneg hinitial hbooks.moved hpays
  refine ⟨fun time a order a' hbuy => (Account.buy_cash_keyed model time a order).of_ok hbuy,
    hbalanced.funded, fun hpays => ⟨fun e he => ?_, ?_⟩, fun e he hdebt => ?_⟩
  · exact hrecord e he fun t ht => hpays t (List.mem_filter.mp ht).1
  · rw [hbalanced.cash]
    exact hbalanced.funded.remaining_nonneg hinitial hbalanced.moved hpays
  · by_contra hnone
    refine absurd (hrecord e he fun t ht hq => ?_) (Int.not_le.mpr hdebt)
    obtain ⟨hm, htime⟩ := List.mem_filter.mp ht
    exact Int.not_lt.mp fun hcosts => hnone ⟨t, hm, of_decide_eq_true htime, hq, hcosts⟩

/-- With a fee of thirty dollars a trade, the sale of the first symbol leaves a debt. -/
theorem cash_safety_sample : ∃ report, sample ⟨0, 0, 3000⟩ [] [] = .ok report ∧
    ∃ e ∈ report.run.curve, e.cash < 0 ∧ ∃ t ∈ report.run.account.trades,
      t.time ≤ e.time ∧ t.quantity < 0 ∧ t.proceeds < t.fee := by
  obtain ⟨report, h, hdebt⟩ := exists_of_check sample_checks.2.1
  obtain ⟨e, he, hcash⟩ := List.any_eq_true.mp hdebt
  exact ⟨report, h, e, he, of_decide_eq_true hcash,
    (cash_safety h).2.2.2 e he (of_decide_eq_true hcash)⟩

/-! ## Stops -/

/-- Positions and stops stay in step: no look-up of a simulation fails, and at the end of every period
of a run with stops the positions are long, the stops are those of the held symbols that have a rule,
and each is active and carries the price of the trade that opened its position. -/
theorem stops_in_step (settings : RunSettings) (model : CostModel) (weights : WeightInput)
    (prices : PriceInput) (initialCash : Option Value) (stops : StopAssignment) :
    simulate settings model weights prices initialCash stops ≠ .error .unknownKey ∧
      ∀ setup book, Accepted settings weights prices initialCash stops setup →
        setup.book = some book → ∀ n run,
        Run.ofPeriods model setup.cash setup.book (setup.periods.take n) = .ok run →
        (∀ entry ∈ run.account.positions, 0 < entry.2.quantity) ∧
          ∃ after, run.account.book = some after ∧
            (∀ symbol, symbol ∈ after.states.symbols ↔
              symbol ∈ run.account.positions.symbols ∧ symbol ∈ setup.rules.symbols) ∧
            ∀ entry ∈ after.states, entry.2.status = .active ∧
              ∃ t, Opened entry.1 run.account.trades t ∧ entry.2.entry = t.price := by
  refine ⟨(simulate_keyed _ _ _ _ _ _).ne_unknownKey, fun setup book haccepted hbook n run hrun => ?_⟩
  have hvalid := haccepted.valid
  obtain ⟨hsound, _⟩ := (Run.ofPeriods_keyed hvalid.unused
    fun p hp => hvalid.periods p (List.mem_of_mem_take hp)).of_ok hrun
  have hbalanced := hsound.account.balanced
  have hrules := hsound.rules
  rw [hbook, Option.map_some, Option.map_eq_some_iff] at hrules
  obtain ⟨after, hafter, hsame⟩ := hrules
  rw [hvalid.rules book hbook] at hsame
  have hstep := hsound.account.inStep after hafter
  refine ⟨fun entry he => ?_, after, hafter, fun symbol => hsame ▸ hstep.covered symbol,
    fun entry he => ?_⟩
  · exact hbalanced.positive entry.1 entry.2 ((Register.find?_eq_some_iff hbalanced.distinct).mpr he)
  · have hfind := (Register.find?_eq_some_iff hstep.distinct).mpr he
    exact ⟨hstep.active entry.1 entry.2 hfind List.not_mem_nil, hstep.entry entry.1 entry.2 hfind⟩

theorem stops_in_step_sample : ∃ report, sample .zero [] [] = .ok report ∧
    (∀ entry ∈ report.run.account.positions, 0 < entry.2.quantity) ∧
      ∃ book, report.run.account.book = some book ∧
        ∀ entry ∈ book.states, entry.2.status = .active := by
  obtain ⟨report, h, hstops⟩ := exists_of_check sample_checks.1
  obtain ⟨setup, haccepted, hrun, _, henabled, _⟩ := exists_setup h
  obtain ⟨book, hbook⟩ := Option.isSome_iff_exists.mp (henabled.symm.trans hstops)
  rw [← setup.periods.take_length] at hrun
  obtain ⟨hlong, after, hafter, _, hactive⟩ :=
    (stops_in_step _ _ _ _ _ _).2 setup book haccepted hbook _ _ hrun
  exact ⟨report, h, hlong, after, hafter, fun entry he => (hactive entry he).1⟩

end Backtest
end PortfolioLab
