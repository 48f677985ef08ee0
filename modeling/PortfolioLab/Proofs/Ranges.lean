import PortfolioLab.Proofs.Bookkeeping
import PortfolioLab.Proofs.Postings
import PortfolioLab.Proofs.StopRanges

/-!
# No amount leaves the range

Every amount of an account and of what a run records is in the range of a signed 64-bit word: each phase
of a period keeps it so, and so do the stops that it enters, tests and leaves.
-/

namespace PortfolioLab

open Cents (InRange IsPrice)

/-! ## Accounts -/

structure StopEvent.InRange (e : StopEvent) : Prop where
  threshold : Cents.InRange e.threshold
  exitPrice : Cents.InRange e.exitPrice

namespace Account

structure InRange (a : Account) : Prop where
  cash : Cents.InRange a.cash
  positions : a.positions.All Position.InRange
  lastClose : a.lastClose.All IsPrice
  book : ∀ book ∈ a.book, book.Bounded
  trades : ∀ t ∈ a.trades, t.InRange
  events : ∀ e ∈ a.events, e.InRange

variable {a a' : Account} {model : CostModel} {time : Instant} {bars : Register Bar}

theorem InRange.learn (h : a.InRange) (hbars : bars.All Bar.Priced) : (a.learn bars).InRange := by
  unfold Account.learn
  induction bars generalizing a with
  | nil => exact h
  | cons entry rest ih =>
    obtain ⟨hbar, hrest⟩ := Register.all_cons.mp hbars
    exact ih { h with lastClose := h.lastClose.put hbar.close } hrest

private theorem forall_mem_concat {α : Type} {P : α → Prop} {xs : List α} {x : α}
    (h : ∀ y ∈ xs, P y) (hx : P x) : ∀ y ∈ xs ++ [x], P y :=
  List.forall_mem_append.mpr ⟨h, List.forall_mem_singleton.mpr hx⟩

theorem InRange.leave {trigger : StopTrigger} (h : a.InRange) (htrigger : trigger.breach.Priced)
    (hleave : leave model time a trigger = .ok a') : a'.InRange := by
  unfold Account.leave at hleave
  cases hp : a.positions.find? trigger.symbol with
  | none =>
    simp only [hp] at hleave
    cases hleave
  | some position =>
    cases hb : a.book with
    | none =>
      simp only [hp, hb] at hleave
      cases hleave
    | some book =>
      simp only [hp, hb] at hleave
      obtain ⟨⟨cash, filled, trade⟩, hsettle, hleave⟩ := bind_eq_ok.mp hleave
      obtain ⟨⟨closed, after⟩, hclose, hleave⟩ := bind_eq_ok.mp hleave
      cases hleave
      obtain ⟨hcash, _, htrade⟩ :=
        inRange_of_settle (h.positions.of_find? hp) htrigger.exitPrice.inRange hsettle
      rw [StopBook.eq_release_of_close hclose]
      refine ⟨hcash, h.positions.remove, h.lastClose, fun b hb' => ?_,
        forall_mem_concat h.trades htrade,
        forall_mem_concat h.events ⟨htrigger.threshold.inRange, htrigger.exitPrice.inRange⟩⟩
      rw [← Option.mem_some_iff.mp hb']
      exact (h.book book hb).release _

theorem InRange.runStops {r : Account × List String} (h : a.InRange) (hbars : bars.All Bar.Priced)
    (hrun : runStops model time bars a = .ok r) : r.1.InRange := by
  unfold Account.runStops at hrun
  cases hb : a.book with
  | none =>
    simp only [hb] at hrun
    cases hrun
    exact h
  | some book =>
    simp only [hb] at hrun
    obtain ⟨⟨triggers, after⟩, hevaluate, hrun⟩ := bind_eq_ok.mp hrun
    obtain ⟨last, hleave, hrun⟩ := bind_eq_ok.mp hrun
    cases hrun
    obtain ⟨hafter, hpriced⟩ := (h.book book hb).evaluate hbars hevaluate
    have hstart : InRange { a with book := some after } :=
      { h with book := fun b hb' => by rwa [← Option.mem_some_iff.mp hb'] }
    exact foldlM_keeps (I := InRange)
      (fun a trigger ht a' ha hleave => ha.leave (hpriced trigger ht) hleave) hstart hleave

theorem InRange.enterStop {symbol : String} {price : Cents} (h : a.InRange) (hprice : IsPrice price)
    (henter : enterStop symbol price a = .ok a') : a'.InRange := by
  unfold Account.enterStop at henter
  cases hb : a.book with
  | none =>
    simp only [hb] at henter
    cases henter
    exact h
  | some book =>
    simp only [hb] at henter
    obtain ⟨⟨entered, after⟩, hentered, henter⟩ := bind_eq_ok.mp henter
    cases henter
    refine { h with book := fun b hb' => ?_ }
    rw [← Option.mem_some_iff.mp hb']
    exact (h.book book hb).enter hprice hentered

theorem InRange.sell {order : Order} (h : a.InRange) (hprice : IsPrice order.price)
    (hsell : sell model time a order = .ok a') : a'.InRange := by
  obtain ⟨position, cash, rest, trade, hp, hsettle, hcases⟩ := sell_cases hsell
  obtain ⟨hcash, hrest, htrade⟩ := inRange_of_settle (h.positions.of_find? hp) hprice.inRange hsettle
  rcases hcases with ⟨_, rfl⟩ | ⟨_, rfl⟩
  · refine ⟨hcash, h.positions.remove, h.lastClose, fun b hb => ?_,
      forall_mem_concat h.trades htrade, h.events⟩
    obtain ⟨book, hbook, rfl⟩ := Option.map_eq_some_iff.mp hb
    exact (h.book book hbook).release _
  · exact ⟨hcash, h.positions.put hrest, h.lastClose, h.book, forall_mem_concat h.trades htrade,
      h.events⟩

theorem InRange.buy {order : Order} (h : a.InRange) (hprice : IsPrice order.price)
    (hbuy : buy model time a order = .ok a') : a'.InRange := by
  obtain ⟨quantity, _, ⟨_, rfl⟩ | ⟨_, cash, position, trade, next, hsettle, hnext, hbuy⟩⟩ := buy_cases hbuy
  · exact h
  have hheld : ((a.positions.find? order.symbol).getD {}).InRange := by
    cases hp : a.positions.find? order.symbol with
    | none => exact Position.inRange_fresh
    | some held => exact h.positions.of_find? hp
  obtain ⟨hcash, hposition, htrade⟩ := inRange_of_settle hheld hprice.inRange hsettle
  have hposted : next.InRange := by
    subst hnext
    exact ⟨hcash, h.positions.put hposition, h.lastClose, h.book, forall_mem_concat h.trades htrade,
      h.events⟩
  rcases hbuy with hbuy | rfl
  · exact hposted.enterStop hprice hbuy
  · exact hposted

theorem InRange.retarget {targets : Option Targets} {stopped : List String} (h : a.InRange)
    (hbars : bars.All Bar.Priced) (hretarget : retarget model time targets bars stopped a = .ok a') :
    a'.InRange := by
  cases targets with
  | none =>
    cases hretarget
    exact h
  | some targets =>
    obtain ⟨equity, _, hretarget⟩ := bind_eq_ok.mp hretarget
    split at hretarget
    · cases hretarget
      exact h
    · obtain ⟨os, horders, hretarget⟩ := bind_eq_ok.mp hretarget
      obtain ⟨sold, hsell, hbuy⟩ := bind_eq_ok.mp hretarget
      obtain ⟨_, hpriced⟩ := (orders_priced equity targets bars stopped a).of_ok horders
      have hprice : ∀ o ∈ os, IsPrice o.price := fun o ho => by
        obtain ⟨_, bar, hbar, _, hclose⟩ := hpriced o ho
        rw [hclose]
        exact (hbars.of_find? hbar).close
      have hsold : sold.InRange := foldlM_keeps (I := InRange)
        (fun a o ho a' ha h => ha.sell (hprice o (List.mem_filter.mp ho).1) h) h hsell
      exact foldlM_keeps (I := InRange)
        (fun a o ho a' ha h => ha.buy (hprice o (List.mem_filter.mp ho).1) h) hsold hbuy

end Account

/-! ## Runs -/

namespace Run

structure InRange (run : Run) : Prop where
  account : run.account.InRange
  holdings : ∀ h ∈ run.holdings, Cents.InRange h.price ∧ Cents.InRange h.marketValue
  curve : ∀ e ∈ run.curve,
    Cents.InRange e.cash ∧ Cents.InRange e.invested ∧ Cents.InRange e.equity

variable {a : Account} {run run' : Run} {model : CostModel} {time : Instant} {p : Period}
  {periods : List Period}

private theorem inRange_of_holdingOf {symbol : String} {holding : Holding} (ha : a.InRange)
    (h : holdingOf time a symbol = .ok holding) :
    Cents.InRange holding.price ∧ Cents.InRange holding.marketValue := by
  unfold holdingOf at h
  split at h
  · next position price hposition hprice =>
    obtain ⟨value, hvalue, h⟩ := bind_eq_ok.mp h
    cases h
    obtain ⟨rfl, hrange⟩ := Cents.eq_of_check hvalue
    exact ⟨(ha.lastClose.of_find? hprice).inRange, hrange⟩
  · cases h

private theorem inRange_of_takeStock {r : List Holding × Cents} (ha : a.InRange)
    (h : takeStock time a = .ok r) :
    (∀ h ∈ r.1, Cents.InRange h.price ∧ Cents.InRange h.marketValue) ∧ Cents.InRange r.2 := by
  refine foldlM_keeps (I := fun r : List Holding × Cents =>
    (∀ h ∈ r.1, Cents.InRange h.price ∧ Cents.InRange h.marketValue) ∧ Cents.InRange r.2)
    (fun r symbol _ r' hr hstep => ?_) ⟨fun h hm => absurd hm List.not_mem_nil, Cents.inRange_zero⟩ h
  obtain ⟨holding, hholding, hstep⟩ := bind_eq_ok.mp hstep
  obtain ⟨total, htotal, hstep⟩ := bind_eq_ok.mp hstep
  cases hstep
  obtain ⟨rfl, hrange⟩ := Cents.eq_of_check htotal
  exact ⟨Account.forall_mem_concat hr.1 (inRange_of_holdingOf ha hholding), hrange⟩

theorem InRange.record (h : run.InRange) (hrecord : record time run = .ok run') : run'.InRange := by
  obtain ⟨⟨holdings, invested⟩, hstock, hrecord⟩ := bind_eq_ok.mp hrecord
  obtain ⟨equity, hequity, hrecord⟩ := bind_eq_ok.mp hrecord
  cases hrecord
  obtain ⟨hholdings, hinvested⟩ := inRange_of_takeStock h.account hstock
  have hsum := ((Cents.sum_keyed _).of_ok hequity).2.1
  exact ⟨h.account, List.forall_mem_append.mpr ⟨h.holdings, hholdings⟩,
    Account.forall_mem_concat h.curve ⟨h.account.cash, hinvested, hsum⟩⟩

theorem InRange.step (h : run.InRange) (hbars : p.bars.All Bar.Priced)
    (hstep : step model run p = .ok run') : run'.InRange := by
  rw [step_eq] at hstep
  obtain ⟨⟨stopped, symbols⟩, hstops, hstep⟩ := bind_eq_ok.mp hstep
  obtain ⟨account, hretarget, hrecord⟩ := bind_eq_ok.mp hstep
  have hstopped := (h.account.learn hbars).runStops hbars hstops
  have hnext : InRange { run with account } := { h with account := hstopped.retarget hbars hretarget }
  exact hnext.record hrecord

theorem InRange.ofPeriods {cash : Cents} {book : Option StopBook} (hcash : Cents.InRange cash)
    (hbook : ∀ b ∈ book, b.Bounded) (hbars : ∀ p ∈ periods, p.bars.All Bar.Priced)
    (h : ofPeriods model cash book periods = .ok run) : run.InRange := by
  have hstart : InRange { account := { cash, book } } :=
    ⟨⟨hcash, Register.all_nil, Register.all_nil, hbook, fun t ht => absurd ht List.not_mem_nil,
      fun e he => absurd he List.not_mem_nil⟩, fun h hm => absurd hm List.not_mem_nil,
      fun e he => absurd he List.not_mem_nil⟩
  exact foldlM_keeps (I := InRange) (fun run p hp run' hrun hstep => hrun.step (hbars p hp) hstep)
    hstart h

end Run

/-! ## Reports -/

/-- Every rule of an assignment was made from fields. -/
def StopAssignment.Accepted : StopAssignment → Prop
  | none => True
  | shared rule => rule.Accepted
  | bySymbol entries => ∀ entry ∈ entries, ∀ rule ∈ entry.2, rule.Accepted

theorem Register.all_ofPairs {α : Type} {P : α → Prop} {pairs : List (String × α)}
    (h : ∀ pair ∈ pairs, P pair.2) : All P (ofPairs pairs) := by
  unfold ofPairs
  suffices hfold : ∀ r : Register α, All P r →
      All P (pairs.foldl (fun r pair => put r pair.1 pair.2) r) from hfold [] all_nil
  induction pairs with
  | nil => exact fun r hr => hr
  | cons pair rest ih =>
    obtain ⟨hpair, hrest⟩ := List.forall_mem_cons.mp h
    exact fun r hr => ih hrest _ (hr.put hpair)

theorem StopAssignment.Accepted.resolve {stops : StopAssignment} {symbols : List String}
    {rules : Register StopRule} (h : stops.Accepted) (hrules : stops.resolve symbols = .ok rules) :
    rules.All StopRule.Accepted := by
  cases stops with
  | none =>
    cases hrules
    exact Register.all_nil
  | shared rule =>
    cases hrules
    refine Register.all_ofPairs fun pair hp => ?_
    obtain ⟨symbol, _, rfl⟩ := List.mem_map.mp hp
    exact h
  | bySymbol entries =>
    obtain ⟨pairs, hpairs, hrules⟩ := bind_eq_ok.mp hrules
    cases hrules
    have hmade := (Keyed.mapM (T := fun _ (pair : String × StopRule) => pair.2.Accepted)
      fun entry he => ?_).of_ok hpairs
    · refine Register.all_ofPairs fun pair hp => ?_
      obtain ⟨_, _, haccepted⟩ := exists_of_forall₂ hmade pair hp
      exact haccepted
    · obtain ⟨symbol, _ | rule⟩ := entry
      · exact Keyed.refuse _
      · exact h _ he rule rfl

structure StopState.InRange (s : StopState) : Prop where
  threshold : ∀ l ∈ s.threshold, Cents.InRange l
  peak : Cents.InRange s.peak
  offset : ∀ d ∈ s.offset, Cents.InRange d

theorem StopState.Bounded.inRange {s : StopState} (h : s.Bounded) : s.InRange :=
  ⟨fun l hl => (h.isPrice_threshold l hl).inRange, h.isPrice_peak.inRange,
    fun d hd => (h.isPrice_offset d hd).inRange⟩

theorem StopBook.Bounded.inRange {book : StopBook} (h : book.Bounded) :
    book.states.All StopState.InRange := fun entry he => (h.states entry he).inRange

structure Report.InRange (r : Report) : Prop where
  curve : ∀ e ∈ r.run.curve,
    Cents.InRange e.cash ∧ Cents.InRange e.invested ∧ Cents.InRange e.equity
  holdings : ∀ h ∈ r.run.holdings, Cents.InRange h.price ∧ Cents.InRange h.marketValue
  trades : ∀ t ∈ r.run.account.trades, t.InRange
  events : ∀ e ∈ r.run.account.events, e.InRange
  positions : ∀ entry ∈ r.finalPositions, entry.2.InRange
  finalCash : Cents.InRange r.run.account.cash

theorem Run.InRange.report {r : Report} (h : r.run.InRange) : r.InRange := by
  refine ⟨h.curve, h.holdings, h.account.trades, h.account.events, fun entry he => ?_, h.account.cash⟩
  obtain ⟨symbol, _, hentry⟩ := List.mem_filterMap.mp he
  obtain ⟨position, hposition, rfl⟩ := Option.map_eq_some_iff.mp hentry
  exact h.account.positions.of_find? hposition

namespace Backtest

variable {settings : RunSettings} {model : CostModel} {weights : WeightInput} {prices : PriceInput}
  {initialCash : Option Value} {stops : StopAssignment} {setup : Setup} {report : Report} {run : Run}

private theorem Accepted.inRange (h : Accepted settings weights prices initialCash stops setup)
    (hstops : stops.Accepted) {periods : List Period} (hperiods : ∀ p ∈ periods, p ∈ setup.periods)
    (hrun : Run.ofPeriods model setup.cash setup.book periods = .ok run) : run.InRange := by
  have hrules := hstops.resolve h.rules
  have hbook : ∀ b ∈ setup.book, b.Bounded := fun b hb => by
    have hvalid := h.valid
    refine ⟨?_, ?_⟩
    · rw [hvalid.rules b hb]
      exact hrules
    · rw [hvalid.unused b hb]
      exact Register.all_nil
  refine Run.InRange.ofPeriods (Money.inRange_of_toCents h.cash) hbook (fun p hp => ?_) hrun
  obtain ⟨q, hq, rfl⟩ := List.mem_map.mp (hperiods p hp)
  exact PriceSchedule.priced_periods h.bars q hq

/-- No amount leaves the range: if the rules of a simulation were made from fields, every amount of
its report is in range, and so is every threshold, best price and distance of a stop, at the end of
every period and between the tests of the next period and the exits of the stops that these trigger. -/
theorem amounts_in_range (hstops : stops.Accepted)
    (h : simulate settings model weights prices initialCash stops = .ok report) :
    report.InRange ∧ ∃ setup, Accepted settings weights prices initialCash stops setup ∧
      (∀ book ∈ report.run.account.book, book.states.All StopState.InRange) ∧
      ∀ done next rest, setup.periods = done ++ next :: rest →
        ∃ run, Run.ofPeriods model setup.cash setup.book done = .ok run ∧
          ∀ book ∈ run.account.book, book.states.All StopState.InRange ∧
            ∀ triggers after,
              (StopBook.evaluate next.bars (run.account.learn next.bars).histories).commit book =
                .ok (triggers, after) → after.states.All StopState.InRange := by
  obtain ⟨setup, haccepted, hrun, _⟩ := exists_setup h
  have hreport := haccepted.inRange hstops (fun p hp => hp) hrun
  refine ⟨hreport.report, setup, haccepted, fun book hb => (hreport.account.book book hb).inRange,
    fun done next rest hperiods => ?_⟩
  rw [hperiods] at hrun
  obtain ⟨run, hdone, _⟩ := Run.ofPeriods_append hrun
  have hmem : ∀ p ∈ done ++ next :: rest, p ∈ setup.periods := fun p hp => hperiods ▸ hp
  have hinRange := haccepted.inRange hstops
    (fun p hp => hmem p (List.mem_append_left _ hp)) hdone
  refine ⟨run, hdone, fun book hb => ?_⟩
  have hbook := hinRange.account.book book hb
  refine ⟨hbook.inRange, fun triggers after hevaluate => ?_⟩
  have hbars : next.bars.All Bar.Priced := by
    obtain ⟨q, hq, rfl⟩ := List.mem_map.mp (hmem next (by simp))
    exact PriceSchedule.priced_periods haccepted.bars q hq
  exact (hbook.evaluate hbars hevaluate).1.inRange

theorem amounts_in_range_sample : ∃ report, sample .zero [] [] = .ok report ∧ report.InRange := by
  have hrange : (0 : Float) < 0.1 ∧ (0.1 : Float) < 1 := by decide +kernel
  have hstops : StopAssignment.Accepted (.shared ⟨.fixed 0.1, 14⟩) := by
    refine ⟨.text "fixed", some 0.1, none, none, .int 14, ?_⟩
    simp [StopRule.ofFields, StopRule.kindName, StopRule.kindOf, Value.integer?, hrange]
  obtain ⟨report, h, _⟩ := exists_of_check sample_checks.1
  exact ⟨report, h, (amounts_in_range hstops h).1⟩

end Backtest
end PortfolioLab
