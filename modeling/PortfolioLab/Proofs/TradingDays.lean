import PortfolioLab.Proofs.Bookkeeping
import PortfolioLab.Proofs.Postings

/-!
# The log by days

The trades of a period are its exits, its sales and its purchases, in this order, and of every symbol
there is at most one: a stopped symbol gets no order, and an order is either filled once or not at all.
The log of a run is the log of its periods one after the other, and its stop events are its exits.
-/

namespace PortfolioLab

open TradeLog

def priorityOf (book : Option StopBook) : List String := (book.map (·.priority)).getD []

theorem priorityOf_congr {book book' : Option StopBook}
    (h : book'.map StopBook.bare = book.map StopBook.bare) : priorityOf book' = priorityOf book := by
  have hmap : ∀ book : Option StopBook,
      priorityOf book = ((book.map StopBook.bare).map (·.priority)).getD [] := by
    intro book
    cases book <;> rfl
  rw [hmap, hmap, h]

/-- The trades of a period, after those in `before`. -/
structure TradingDay (priority : List String) (p : Period) (before stops sells buys : List Trade) :
    Prop where
  times : ∀ t ∈ stops ++ sells ++ buys, t.time = p.time
  distinct : ((stops ++ sells ++ buys).map (·.symbol)).Nodup
  quoted : ∀ t ∈ stops ++ sells ++ buys, t.symbol ∈ p.bars.symbols
  stopped : ∀ t ∈ stops, t.reason = .stop ∧ t.quantity = -net t.symbol before ∧
    ∃ first, Opened t.symbol before first
  ordered : stopOrder (stops.map (·.symbol)) priority = stops.map (·.symbol)
  sold : ∀ t ∈ sells, t.reason = .rebalance ∧ t.quantity < 0
  bought : ∀ t ∈ buys, t.reason = .rebalance ∧ 0 < t.quantity
  sellsAscend : (sells.map (·.symbol)).Pairwise (· < ·)
  buysAscend : (buys.map (·.symbol)).Pairwise (· < ·)
  priced : ∀ t ∈ sells ++ buys, ∃ bar, p.bars.find? t.symbol = some bar ∧ t.price = bar.close ∧
    0 < t.price

/-- Of the trades of a period, the exits are those with the reason of stops. -/
theorem TradingDay.filter_stops {priority : List String} {p : Period}
    {before stops sells buys : List Trade} (h : TradingDay priority p before stops sells buys) :
    (stops ++ sells ++ buys).filter (·.reason = .stop) = stops := by
  have hstops : stops.filter (·.reason = .stop) = stops :=
    List.filter_eq_self.mpr fun t ht => decide_eq_true (h.stopped t ht).1
  have hsells : sells.filter (·.reason = .stop) = [] :=
    List.filter_eq_nil_iff.mpr fun t ht => by simp [(h.sold t ht).1]
  have hbuys : buys.filter (·.reason = .stop) = [] :=
    List.filter_eq_nil_iff.mpr fun t ht => by simp [(h.bought t ht).1]
  rw [List.filter_append, List.filter_append, hstops, hsells, hbuys, List.append_nil,
    List.append_nil]

namespace Account

variable {initial : Int} {a : Account} {p : Period} {stops sells buys : List Trade}

/-- Every exit of a sound account is of a position that was opened before. -/
private theorem Exits.stopped (h : Exits p.time p.bars a stops) (ha : a.Sound initial []) :
    ∀ t ∈ stops, t.reason = .stop ∧ t.quantity = -net t.symbol a.trades ∧
      ∃ first, Opened t.symbol a.trades first := by
  intro t ht
  obtain ⟨_, hreason, hquantity, _, b, hb, hm⟩ := h.each t ht
  obtain ⟨s, hfind⟩ := Register.exists_find?_iff.mpr hm
  obtain ⟨first, hopened, _⟩ := (ha.inStep b hb).entry _ s hfind
  rw [ha.balanced.held] at hquantity
  exact ⟨hreason, hquantity, first, hopened⟩

private theorem Exits.ordered_priority (h : Exits p.time p.bars a stops) :
    stopOrder (stops.map (·.symbol)) (priorityOf a.book) = stops.map (·.symbol) := by
  cases hb : a.book with
  | some b => exact h.ordered b hb
  | none =>
    have hempty : stops = [] := List.eq_nil_iff_forall_not_mem.mpr fun t ht => by
      obtain ⟨_, _, _, _, b, hb', _⟩ := h.each t ht
      exact nomatch hb.symm.trans hb'
    rw [hempty]
    exact List.mergeSort_nil

/-- The trades of the two phases of a period, the second of which spares the symbols of the first. -/
theorem tradingDay_of_phases (ha : a.Sound initial []) (hp : p.Valid)
    (hexits : Exits p.time p.bars a stops)
    (hrebalanced : Rebalanced p.time p.bars (stops.map (·.symbol)) sells buys) :
    TradingDay (priorityOf a.book) p a.trades stops sells buys := by
  refine ⟨?_, ?_, ?_, hexits.stopped ha, hexits.ordered_priority, ?_, ?_, hrebalanced.sellsAscend,
    hrebalanced.buysAscend, ?_⟩
  · intro t ht
    rw [List.append_assoc] at ht
    rcases List.mem_append.mp ht with ht | ht
    · exact (hexits.each t ht).1
    · exact (hrebalanced.each t ht).1
  · rw [List.append_assoc, List.map_append, List.nodup_append]
    refine ⟨hexits.distinct, hrebalanced.distinct, fun symbol hm other ho he => ?_⟩
    obtain ⟨t, ht, rfl⟩ := List.mem_map.mp ho
    exact (hrebalanced.each t ht).2.2.1 (he ▸ hm)
  · intro t ht
    rw [List.append_assoc] at ht
    rcases List.mem_append.mp ht with ht | ht
    · exact (hexits.each t ht).2.2.2.1
    · obtain ⟨_, _, _, bar, hbar, _⟩ := hrebalanced.each t ht
      exact Register.exists_find?_iff.mp ⟨bar, hbar⟩
  · intro t ht
    exact ⟨(hrebalanced.each t (List.mem_append_left _ ht)).2.1, hrebalanced.sold t ht⟩
  · intro t ht
    exact ⟨(hrebalanced.each t (List.mem_append_right _ ht)).2.1, hrebalanced.bought t ht⟩
  · intro t ht
    obtain ⟨_, _, _, bar, hbar, hclose, hprice⟩ := hrebalanced.each t ht
    refine ⟨bar, hbar, hprice, ?_⟩
    rw [hprice]
    exact lt_of_le_of_ne (hp.quoted _ bar hbar) hclose.symm

end Account

namespace Run

open Account

variable {model : CostModel} {initial : Int} {rules : Option (Register StopRule)} {run run' : Run}
  {done pre post periods : List Period} {p : Period} {book : Option StopBook}

theorem record_account {time : Instant} (h : record time run = .ok run') :
    run'.account = run.account := by
  obtain ⟨_, _, h⟩ := bind_eq_ok.mp h
  obtain ⟨_, _, h⟩ := bind_eq_ok.mp h
  cases h
  rfl

/-- What a period writes. -/
theorem step_writes (hs : Sound initial rules done run) (hp : p.Valid)
    (h : step model run p = .ok run') :
    ∃ stops sells buys events,
      Continues run.account run'.account (stops ++ sells ++ buys) events ∧
      List.Forall₂ StopEvent.TellsOf events stops ∧
      TradingDay (priorityOf run.account.book) p run.account.trades stops sells buys := by
  rw [step_eq] at h
  obtain ⟨⟨after, stopped⟩, hstops, hrest⟩ := bind_eq_ok.mp h
  obtain ⟨last, hretarget, hrecord⟩ := bind_eq_ok.mp hrest
  have hlearned := hs.account.learn hp.distinct
  obtain ⟨stops, events, hexiting, hexits, htells, hstopped⟩ :=
    runStops_writes (fun b hb => (hlearned.inStep b hb).distinct) hstops
  obtain ⟨sells, buys, htrading, hrebalanced⟩ := retarget_writes hretarget
  have hday := tradingDay_of_phases hlearned hp hexits (hstopped ▸ hrebalanced)
  have hall := hexiting.trans htrading
  have haccount : run'.account = last := record_account hrecord
  obtain ⟨histories, hlearn⟩ := learn_eq p.bars run.account
  rw [hlearn] at hall hday
  refine ⟨stops, sells, buys, events, ⟨?_, ?_, ?_⟩, htells, hday⟩
  · rw [haccount, hall.trades, List.append_assoc]
  · rw [haccount, hall.events, List.append_nil]
  · rw [haccount, hall.book]

/-- A run over periods and one more. -/
theorem ofPeriods_concat {cash : Cents} (h : ofPeriods model cash book (pre ++ [p]) = .ok run') :
    ∃ run, ofPeriods model cash book pre = .ok run ∧ step model run p = .ok run' := by
  obtain ⟨run, hrun, hlast⟩ := ofPeriods_append h
  exact ⟨run, hrun, by simpa using hlast⟩

/-- The log of a run is ascending, and its stop events tell of its exits. -/
structure Logged (book : Option StopBook) (run : Run) : Prop where
  book : run.account.book.map StopBook.bare = book.map StopBook.bare
  ascend : run.account.trades.Pairwise (·.time ≤ ·.time)
  told : List.Forall₂ StopEvent.TellsOf run.account.events
    (run.account.trades.filter (·.reason = .stop))

theorem logged_of_periods (hb : ∀ b, book = some b → b.states = [])
    (hv : ∀ p ∈ periods, p.Valid) (hsorted : periods.Pairwise (·.time < ·.time))
    (h : ofPeriods model initial book periods = .ok run) : Logged book run := by
  induction periods using List.reverseRecOn generalizing run with
  | nil =>
    cases h
    exact ⟨rfl, .nil, .nil⟩
  | append_singleton pre p ih =>
    obtain ⟨before, hbefore, hstep⟩ := ofPeriods_concat h
    have hvpre : ∀ q ∈ pre, q.Valid := fun q hq => hv q (List.mem_append_left _ hq)
    have hvlast : p.Valid := hv p (List.mem_append_right _ List.mem_cons_self)
    obtain ⟨hsortedPre, _, hearlier⟩ := List.pairwise_append.mp hsorted
    obtain ⟨hsound, _, hwithin⟩ := (ofPeriods_keyed hb hvpre).of_ok hbefore
    obtain ⟨hbook, hascend, htold⟩ := ih hvpre hsortedPre hbefore
    obtain ⟨stops, sells, buys, events, hcontinues, htells, hday⟩ :=
      step_writes hsound hvlast hstep
    refine ⟨hcontinues.book.trans hbook, ?_, ?_⟩
    · rw [hcontinues.trades, List.pairwise_append]
      refine ⟨hascend, ?_, fun t ht u hu => ?_⟩
      · exact List.pairwise_of_forall_mem_list fun t ht u hu =>
          ((hday.times t ht).trans (hday.times u hu).symm).le
      · obtain ⟨q, hq, htime⟩ := hwithin.trades t ht
        rw [htime, hday.times u hu]
        exact (hearlier q hq p List.mem_cons_self).le
    · rw [hcontinues.events, hcontinues.trades, List.filter_append, hday.filter_stops]
      exact List.rel_append htold htells

/-- The trades of a period of a run, and those before it. -/
theorem day_of_period (hb : ∀ b, book = some b → b.states = []) (hv : ∀ p ∈ periods, p.Valid)
    (hsorted : periods.Pairwise (·.time < ·.time))
    (h : ofPeriods model initial book periods = .ok run) (hp : p ∈ periods) :
    ∃ stops sells buys, run.account.trades.filter (·.time = p.time) = stops ++ sells ++ buys ∧
      TradingDay (priorityOf book) p (run.account.trades.filter (·.time < p.time))
        stops sells buys := by
  obtain ⟨pre, post, rfl, hbefore, hpre, hafter⟩ := exists_split_of_mem hsorted hp
  have hvpre : ∀ q ∈ pre, q.Valid := fun q hq => hv q (List.mem_append_left _ hq)
  rw [List.append_cons] at h hv
  obtain ⟨last, hlast, _⟩ := ofPeriods_append h
  obtain ⟨before, hrun, hstep⟩ := ofPeriods_concat hlast
  obtain ⟨hsound, _, hwithin⟩ := (ofPeriods_keyed hb hvpre).of_ok hrun
  have hlogged := logged_of_periods hb hvpre (List.pairwise_append.mp hsorted).1 hrun
  obtain ⟨stops, sells, buys, events, hcontinues, _, hday⟩ := step_writes hsound (hv p (by simp)) hstep
  rw [priorityOf_congr hlogged.book] at hday
  obtain ⟨_, k, hk, hlater⟩ := journal_split hb hv hlast h hpre hafter
  -- the log is that of earlier periods, then that of this one, then that of later ones
  have htrades : run.account.trades =
      before.account.trades ++ ((stops ++ sells ++ buys) ++ k.trades) := by
    have hsplit : run.account.trades = last.account.trades ++ k.trades := congrArg Journal.trades hk
    rw [hsplit, hcontinues.trades, List.append_assoc]
  have hearlier : ∀ t ∈ before.account.trades, t.time < p.time := fun t ht => by
    obtain ⟨q, hq, htime⟩ := hwithin.trades t ht
    exact htime ▸ hbefore q hq
  have hnow : run.account.trades.filter (·.time = p.time) = stops ++ sells ++ buys := by
    rw [htrades, List.filter_append, List.filter_append,
      List.filter_eq_nil_iff.mpr fun t ht => by simpa using (hearlier t ht).ne,
      List.filter_eq_self.mpr fun t ht => decide_eq_true (hday.times t ht),
      List.filter_eq_nil_iff.mpr fun t ht => by simpa using (hlater.trades t ht).ne',
      List.nil_append, List.append_nil]
  have hpast : run.account.trades.filter (·.time < p.time) = before.account.trades := by
    rw [htrades, List.filter_append, List.filter_append,
      List.filter_eq_self.mpr fun t ht => decide_eq_true (hearlier t ht),
      List.filter_eq_nil_iff.mpr fun t ht => by simp [hday.times t ht],
      List.filter_eq_nil_iff.mpr fun t ht => by simpa using (hlater.trades t ht).le,
      List.append_nil, List.append_nil]
  exact ⟨stops, sells, buys, hnow, hpast.symm ▸ hday⟩

end Run

namespace Backtest

variable {settings : RunSettings} {model : CostModel} {weights : WeightInput} {prices : PriceInput}
  {initialCash : Option Value} {stops : StopAssignment} {report : Report}

theorem prioritySymbols_of_book {rules : Register StopRule} {book : StopBook}
    (h : bookOf rules settings = .ok (some book)) :
    prioritySymbols settings.stopPriority = .ok book.priority := by
  unfold bookOf at h
  split at h
  · cases h
  · obtain ⟨policy, _, h⟩ := bind_eq_ok.mp h
    obtain ⟨priority, hpriority, h⟩ := bind_eq_ok.mp h
    cases h
    exact hpriority

/-- The log of a simulation by days: it is ascending, every trade belongs to a period, the trades of a
period are its exits in the order of stops, its sales and its purchases, and the stop events tell of
the exits, one by one. -/
theorem trade_log_by_day
    (h : simulate settings model weights prices initialCash stops = .ok report) :
    ∃ setup, Accepted settings weights prices initialCash stops setup ∧
      (∀ book, setup.book = some book → prioritySymbols settings.stopPriority = .ok book.priority) ∧
      report.run.account.trades.Pairwise (·.time ≤ ·.time) ∧
      (∀ t ∈ report.run.account.trades, ∃ p ∈ setup.periods, t.time = p.time) ∧
      (∀ p ∈ setup.periods, ∃ exits sells buys,
        report.run.account.trades.filter (·.time = p.time) = exits ++ sells ++ buys ∧
          TradingDay (priorityOf setup.book) p
            (report.run.account.trades.filter (·.time < p.time)) exits sells buys) ∧
      List.Forall₂ StopEvent.TellsOf report.run.account.events
        (report.run.account.trades.filter (·.reason = .stop)) := by
  obtain ⟨setup, haccepted, hrun, _⟩ := exists_setup h
  have hvalid := haccepted.valid
  obtain ⟨_, _, hwithin⟩ := (Run.ofPeriods_keyed hvalid.unused hvalid.periods).of_ok hrun
  have hlogged := Run.logged_of_periods hvalid.unused hvalid.periods hvalid.ascending hrun
  refine ⟨setup, haccepted, fun book hbook => ?_, hlogged.ascend, hwithin.trades, fun p hp => ?_,
    hlogged.told⟩
  · exact prioritySymbols_of_book (haccepted.book.trans (congrArg Except.ok hbook))
  · exact Run.day_of_period hvalid.unused hvalid.periods hvalid.ascending hrun hp

def firstDay : Instant := ⟨1704067200000000000⟩

/-- In the sample a stop fires, but not on the first day; without stops the sample reports as well. -/
theorem sample_exits : (sample .zero [] []).toOption.any (fun r =>
      !r.run.account.events.isEmpty && r.run.account.events.all (firstDay < ·.time)) = true ∧
    (simulate {} .zero (sampleWeights []) (samplePrices []) (some (.int 100)) .none).toOption.any
      (fun _ => true) = true := by
  unfold sample simulate PriceSchedule.ofInput PriceSchedule.ofRows WeightSchedule.ofInput
    WeightSchedule.ofMapping allSymbols Run.ofPeriods Run.step Run.record Run.takeStock
    Account.rebalance Account.orders Account.concerned Account.runStops StopBook.evaluate
    SymbolReturns.ofSchedule sampleWeights samplePrices
  simp only [ascending_eq_insertionSort, stopOrder_eq_insertionSort,
    WeightSchedule.sortByTime_eq_insertionSort,
    mergeSort_eq_insertionSort PriceSchedule.rowLe_trans PriceSchedule.rowLe_total]
  decide +kernel

theorem trade_log_by_day_sample : ∃ report, sample .zero [] [] = .ok report ∧
    ∃ (setup : Setup) (p : Period) (exits sells buys : List Trade), exits ≠ [] ∧
      report.run.account.trades.filter (·.time = p.time) = exits ++ sells ++ buys ∧
      TradingDay (priorityOf setup.book) p (report.run.account.trades.filter (·.time < p.time))
        exits sells buys := by
  obtain ⟨report, h, hexits⟩ := exists_of_check sample_exits.1
  obtain ⟨hevents, _⟩ := Bool.and_eq_true_iff.mp hexits
  obtain ⟨setup, _, _, _, hperiods, hdays, htold⟩ := trade_log_by_day h
  obtain ⟨e, he⟩ := List.exists_mem_of_ne_nil _ (by simpa using hevents)
  obtain ⟨t, ht, _⟩ := exists_of_forall₂ htold.flip e he
  obtain ⟨hmem, hreason⟩ := List.mem_filter.mp ht
  obtain ⟨p, hp, htime⟩ := hperiods t hmem
  obtain ⟨exits, sells, buys, htrades, hday⟩ := hdays p hp
  refine ⟨report, h, setup, p, exits, sells, buys, fun hnone => ?_, htrades, hday⟩
  have hnow : t ∈ (exits ++ sells ++ buys).filter (·.reason = .stop) := by
    rw [← htrades]
    simp [hmem, htime, of_decide_eq_true hreason]
  rw [hday.filter_stops, hnone] at hnow
  cases hnow

end Backtest
end PortfolioLab
