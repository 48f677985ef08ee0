import PortfolioLab.Proofs.Foresight
import PortfolioLab.Proofs.TradingDays

/-!
# Stops before they fire

Entering, testing and releasing a stop reads the account and changes only the book. So as long as no
stop fires, a run with stops is, but for its book, the run without them, and what the two report is the
same.
-/

namespace PortfolioLab

namespace Account

variable {a a' : Account} {model : CostModel} {time : Instant} {bars : Register Bar}

def unstopped (a : Account) : Account := { a with book := none }

theorem learn_unstopped (bars : Register Bar) (a : Account) :
    a.unstopped.learn bars = (a.learn bars).unstopped := by
  induction bars generalizing a with
  | nil => rfl
  | cons entry rest ih => exact ih { a with histories := _, lastClose := _ }

theorem leaves_events {triggers : List StopTrigger}
    (h : triggers.foldlM (leave model time) a = .ok a') :
    a'.events.length = a.events.length + triggers.length := by
  induction triggers generalizing a with
  | nil =>
    cases h
    rfl
  | cons trigger rest ih =>
    rw [List.foldlM_cons] at h
    obtain ⟨next, hleave, hrest⟩ := bind_eq_ok.mp h
    obtain ⟨⟨t, e, hcontinues, _⟩, _⟩ := leave_writes hleave
    rw [ih hrest, hcontinues.events, List.length_append, List.length_cons, List.length_cons,
      List.length_nil]
    omega

/-- A stop phase without stop events changes only the book. -/
theorem runStops_unstopped {stopped : List String} (h : runStops model time bars a = .ok (a', stopped))
    (hevents : a'.events = a.events) : a'.unstopped = a.unstopped ∧ stopped = [] := by
  unfold runStops at h
  cases hb : a.book with
  | none =>
    simp only [hb] at h
    cases h
    exact ⟨rfl, rfl⟩
  | some book =>
    simp only [hb] at h
    obtain ⟨⟨triggers, after⟩, _, hrest⟩ := bind_eq_ok.mp h
    obtain ⟨last, hleave, hlast⟩ := bind_eq_ok.mp hrest
    cases hlast
    have hlength := leaves_events hleave
    rw [hevents] at hlength
    have hnone : triggers = [] := List.length_eq_zero_iff.mp (Nat.left_eq_add.mp hlength)
    subst hnone
    cases hleave
    exact ⟨rfl, rfl⟩

theorem sell_unstopped {order : Order} (h : sell model time a order = .ok a') :
    sell model time a.unstopped order = .ok a'.unstopped := by
  unfold sell at h ⊢
  simp only [unstopped]
  cases hp : a.positions.find? order.symbol with
  | none =>
    simp only [hp] at h
    cases h
  | some position =>
    simp only [hp] at h
    obtain ⟨⟨cash, rest, trade⟩, hsettle, hrest⟩ := bind_eq_ok.mp h
    have ha := Except.ok.inj hrest
    simp only [hsettle, ok_bind, ← ha]
    split <;> rfl

theorem enterStop_unstopped {symbol : String} {price : Cents}
    (h : enterStop symbol price a = .ok a') : a'.unstopped = a.unstopped := by
  obtain ⟨book, rfl⟩ := enterStop_cases h
  rfl

theorem buy_unstopped {order : Order} (h : buy model time a order = .ok a') :
    buy model time a.unstopped order = .ok a'.unstopped := by
  unfold buy at h ⊢
  obtain ⟨quantity, haffordable, hrest⟩ := bind_eq_ok.mp h
  have haffordable' : model.affordable order.quantity order.price a.unstopped.cash = .ok quantity :=
    haffordable
  rw [haffordable', ok_bind]
  by_cases hq : quantity = 0
  · rw [if_pos hq] at hrest ⊢
    cases hrest
    rfl
  · rw [if_neg hq] at hrest ⊢
    obtain ⟨⟨cash, position, trade⟩, hsettle, hbought⟩ := bind_eq_ok.mp hrest
    simp only [unstopped, hsettle, ok_bind]
    change (if (a.positions.find? order.symbol).isNone = true then _ else _) = _
    dsimp only at hbought
    split at hbought
    · next hnew =>
      rw [if_pos hnew]
      exact congrArg Except.ok (enterStop_unstopped hbought).symm
    · next hold =>
      rw [if_neg hold]
      cases hbought
      rfl

/-- What every step does without the stops, a pass does. -/
theorem foldlM_unstopped {β : Type} {f : Account → β → Except Failure Account} {xs : List β}
    (hf : ∀ a a' x, f a x = .ok a' → f a.unstopped x = .ok a'.unstopped)
    (h : xs.foldlM f a = .ok a') : xs.foldlM f a.unstopped = .ok a'.unstopped := by
  induction xs generalizing a with
  | nil =>
    cases h
    rfl
  | cons x xs ih =>
    rw [List.foldlM_cons] at h ⊢
    obtain ⟨next, hnext, hrest⟩ := bind_eq_ok.mp h
    rw [hf a next x hnext, ok_bind]
    exact ih hrest

theorem retarget_unstopped {targets : Option Targets} {stopped : List String}
    (h : retarget model time targets bars stopped a = .ok a') :
    retarget model time targets bars stopped a.unstopped = .ok a'.unstopped := by
  cases targets with
  | none =>
    cases h
    rfl
  | some targets =>
    obtain ⟨equity, hequity, hrest⟩ := bind_eq_ok.mp h
    have hequity' : a.unstopped.equity = .ok equity := hequity
    simp only [retarget, rebalance, hequity', ok_bind]
    split at hrest
    · next hpoor =>
      rw [if_pos hpoor]
      cases hrest
      rfl
    · next hrich =>
      obtain ⟨os, horders, htrades⟩ := bind_eq_ok.mp hrest
      obtain ⟨sold, hsell, hbuy⟩ := bind_eq_ok.mp htrades
      have horders' : a.unstopped.orders equity targets bars stopped = .ok os := horders
      rw [if_neg hrich, horders', ok_bind, foldlM_unstopped (fun _ _ _ => sell_unstopped) hsell,
        ok_bind]
      exact foldlM_unstopped (fun _ _ _ => buy_unstopped) hbuy

end Account

namespace Run

open Account

variable {model : CostModel} {initial : Int} {run run' : Run} {p : Period} {periods : List Period}
  {book : Option StopBook}

def unstopped (run : Run) : Run := { run with account := run.account.unstopped }

/-- A period without stop events is the same without the stops. -/
theorem step_unstopped (h : step model run p = .ok run')
    (hevents : run'.account.events = run.account.events) :
    step model run.unstopped p = .ok run'.unstopped := by
  rw [step_eq] at h ⊢
  obtain ⟨⟨after, stopped⟩, hstops, hrest⟩ := bind_eq_ok.mp h
  obtain ⟨last, hretarget, hrecord⟩ := bind_eq_ok.mp hrest
  obtain ⟨histories, hlearn⟩ := learn_eq p.bars run.account
  obtain ⟨_, _, htrading, _⟩ := retarget_writes hretarget
  -- neither learning nor trading writes stop events, so the stop phase wrote none
  have hafter : after.events = (run.account.learn p.bars).events := by
    have hlast : last.events = after.events := by simpa using htrading.events
    have haccount : run'.account = last := record_account hrecord
    rw [← hlast, ← haccount, hevents, hlearn]
  obtain ⟨hsame, rfl⟩ := runStops_unstopped hstops hafter
  have hquiet : (run.unstopped.account.learn p.bars).runStops model p.time p.bars =
      .ok (after.unstopped, []) := by
    rw [hsame, show run.unstopped.account = run.account.unstopped from rfl, learn_unstopped]
    rfl
  rw [hquiet, ok_bind, retarget_unstopped hretarget, ok_bind]
  obtain ⟨stock, hstock, hvalue⟩ := bind_eq_ok.mp hrecord
  obtain ⟨equity, hequity, hrecorded⟩ := bind_eq_ok.mp hvalue
  cases hrecorded
  have hstock' : takeStock p.time last.unstopped = .ok stock := hstock
  have hequity' : Cents.sum [last.unstopped.cash, stock.2] = .ok equity := hequity
  simp only [record, unstopped, hstock', hequity', ok_bind]
  rfl

/-- A run without stop events is the run without stops. -/
theorem ofPeriods_unstopped (hb : ∀ b, book = some b → b.states = []) (hv : ∀ p ∈ periods, p.Valid)
    (h : ofPeriods model initial book periods = .ok run) (hnone : run.account.events = []) :
    ofPeriods model initial none periods = .ok run.unstopped := by
  -- events are only added, so there are none before the last period either
  induction periods using List.reverseRecOn generalizing run with
  | nil =>
    cases h
    rfl
  | append_singleton pre p ih =>
    obtain ⟨before, hbefore, hstep⟩ := ofPeriods_concat h
    have hvpre : ∀ q ∈ pre, q.Valid := fun q hq => hv q (List.mem_append_left _ hq)
    obtain ⟨hsound, _⟩ := (ofPeriods_keyed hb hvpre).of_ok hbefore
    obtain ⟨_, hrecorded⟩ := (step_keyed hsound (hv p (by simp))).of_ok hstep
    obtain ⟨new, hevents, _⟩ := hrecorded.events
    obtain ⟨hnone', rfl⟩ := List.append_eq_nil_iff.mp (hevents.symm.trans hnone)
    rw [ofPeriods, List.foldlM_append]
    refine bind_eq_ok.mpr ⟨before.unstopped, ih hvpre hbefore hnone', ?_⟩
    simpa using step_unstopped hstep (by rw [hevents, List.append_nil])

end Run

namespace Backtest

variable {settings : RunSettings} {model : CostModel} {weights : WeightInput} {prices : PriceInput}
  {initialCash : Option Value} {stops : StopAssignment} {setup setup' : Setup} {report report' : Report}

/-- The same inputs without stops come to the same periods. -/
theorem Accepted.without_stops (h : Accepted settings weights prices initialCash stops setup)
    (h' : Accepted settings weights prices initialCash .none setup') :
    setup'.targets = setup.targets ∧ setup'.bars = setup.bars ∧ setup'.cash = setup.cash ∧
      setup'.book = none := by
  have hprices : setup'.prices = setup.prices := Except.ok.inj (h'.prices.symm.trans h.prices)
  have hbars := h'.bars
  rw [hprices] at hbars
  have hrules : setup'.rules = [] := (Except.ok.inj h'.rules).symm
  have hbook := h'.book
  rw [hrules] at hbook
  exact ⟨Except.ok.inj (h'.targets.symm.trans h.targets), Except.ok.inj (hbars.symm.trans h.bars),
    Except.ok.inj (h'.cash.symm.trans h.cash), (Except.ok.inj hbook).symm⟩

/-- Stops are inert until one fires: up to any instant before the first stop event, a simulation with
stops reports what it reports without them, and without stop events it writes the same journal. -/
theorem stops_inert_until_first
    (h : simulate settings model weights prices initialCash stops = .ok report)
    (h' : simulate settings model weights prices initialCash .none = .ok report') :
    (∀ time, (∀ e ∈ report.run.account.events, time < e.time) →
      report.past time = report'.past time) ∧
    (report.run.account.events = [] → report.run.journal = report'.run.journal) := by
  obtain ⟨setup, haccepted, hrun, hcash, _⟩ := exists_setup h
  obtain ⟨setup', haccepted', hrun', hcash', _⟩ := exists_setup h'
  obtain ⟨htargets, hbars, hsame, hbook⟩ := haccepted.without_stops haccepted'
  have hvalid := haccepted.valid
  refine ⟨fun time hlater => ?_, fun hnone => ?_⟩
  · obtain ⟨early, late, _, hsplit, hearly, hlate⟩ := haccepted.split time
    obtain ⟨run, hprefix, hpast⟩ := haccepted.past_eq hrun hcash hsplit hearly hlate
    obtain ⟨run', hprefix', hpast'⟩ :=
      haccepted'.past_eq hrun' hcash' (hbars.trans hsplit) hearly hlate
    have hquiet : run.account.events = [] := by
      have hevents : (report.past time).events = run.account.events := congrArg Past.events hpast
      rw [← hevents]
      exact List.filter_eq_nil_iff.mpr fun e he => by simpa using hlater e he
    have hv : ∀ p ∈ periodsOf setup.targets early, p.Valid := fun p hp =>
      hvalid.periods p (by
        rw [setup.periods_append hsplit]
        exact List.mem_append_left _ hp)
    have hwithout := Run.ofPeriods_unstopped hvalid.unused hv hprefix hquiet
    rw [htargets, hsame, hbook, hwithout] at hprefix'
    cases hprefix'
    rw [hpast, hpast', hsame]
    rfl
  · have hwithout := Run.ofPeriods_unstopped hvalid.unused hvalid.periods hrun hnone
    have hperiods : setup'.periods = setup.periods := by
      rw [Setup.periods, htargets, hbars]
      rfl
    rw [hperiods, hsame, hbook, hwithout] at hrun'
    rw [← Except.ok.inj hrun']
    rfl

/-- The stop of the sample fires on the second day, so the first day is as without stops. -/
theorem stops_inert_until_first_sample : ∃ report report', sample .zero [] [] = .ok report ∧
    simulate {} .zero (sampleWeights []) (samplePrices []) (some (.int 100)) .none = .ok report' ∧
    report.run.account.events ≠ [] ∧ report.past firstDay = report'.past firstDay := by
  obtain ⟨report, h, hexits⟩ := exists_of_check sample_exits.1
  obtain ⟨report', h', _⟩ := exists_of_check sample_exits.2
  obtain ⟨hevents, hlater⟩ := Bool.and_eq_true_iff.mp hexits
  refine ⟨report, report', h, h', by simpa using hevents, (stops_inert_until_first h h').1 _ ?_⟩
  exact fun e he => of_decide_eq_true (List.all_eq_true.mp hlater e he)

end Backtest
end PortfolioLab
