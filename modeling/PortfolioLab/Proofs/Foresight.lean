import PortfolioLab.Proofs.Bookkeeping
import PortfolioLab.Proofs.Twins

/-!
# No look-ahead

What a simulation reports up to an instant depends on the prices and the weights up to it and on
nothing later. The bars up to an instant come from the rows up to it. The symbols and the rules of a
run are taken from the whole schedule, but the rules agree on the symbols of bars that both runs have,
and no others are read.
-/

namespace PortfolioLab

/-! ## Prices up to an instant -/

namespace PriceSchedule

variable {rows later : PriceSchedule} {time : Instant}

/-- A bar after some periods goes to the periods behind them. -/
theorem addBar_append {early late : List PeriodBars} {row : PriceRow} (bar : Bar)
    (h : ∀ p ∈ early, p.time < row.time) :
    addBar (early ++ late) row bar = early ++ addBar late row bar := by
  induction early with
  | nil => rfl
  | cons first rest ih =>
    have hrest := ih fun p hp => h p (List.mem_cons_of_mem _ hp)
    cases rest with
    | cons second rest => simpa [addBar] using hrest
    | nil =>
      cases late with
      | nil => simp [addBar, (h first List.mem_cons_self).ne]
      | cons next late => simp [addBar]

/-- Every period has the instant of a row, and the symbols of rows. -/
def From (rows : PriceSchedule) (periods : List PeriodBars) : Prop :=
  ∀ p ∈ periods, (∃ row ∈ rows, p.time = row.time) ∧
    ∀ symbol ∈ p.bars.symbols, ∃ row ∈ rows, row.symbol = symbol

private theorem From.addBar {periods : List PeriodBars} {row : PriceRow} (bar : Bar)
    (h : From rows periods) (hrow : row ∈ rows) : From rows (addBar periods row bar) := by
  have hnew : From rows [⟨row.time, [(row.symbol, bar)]⟩] := by
    intro p hp
    rw [List.mem_singleton.mp hp]
    exact ⟨⟨row, hrow, rfl⟩, fun symbol hs => ⟨row, hrow, (List.mem_singleton.mp hs).symm⟩⟩
  fun_induction PriceSchedule.addBar periods row bar with
  | case1 => exact hnew
  | case2 last heq =>
    obtain ⟨htime, hsymbols⟩ := h last List.mem_cons_self
    refine List.forall_mem_singleton.mpr ⟨htime, fun symbol hs => ?_⟩
    rcases Register.mem_symbols_put.mp hs with rfl | hs
    · exact ⟨row, hrow, rfl⟩
    · exact hsymbols symbol hs
  | case3 last hne => exact List.forall_mem_cons.mpr ⟨h last List.mem_cons_self, hnew⟩
  | case4 first rest _ ih =>
    exact List.forall_mem_cons.mpr ⟨h first List.mem_cons_self,
      ih fun p hp => h p (List.mem_cons_of_mem _ hp)⟩

private theorem foldlM_addBar {early late bars : List PeriodBars} {all : PriceSchedule}
    (hearly : ∀ p ∈ early, ∀ row ∈ rows, p.time < row.time) (hrows : ∀ row ∈ rows, row ∈ all)
    (hlate : From all late)
    (h : rows.foldlM (fun periods row => do return addBar periods row (← barOf row)) (early ++ late) =
      .ok bars) : ∃ late', bars = early ++ late' ∧ From all late' := by
  induction rows generalizing late with
  | nil => exact ⟨late, (Except.ok.inj h).symm, hlate⟩
  | cons row rows ih =>
    rw [List.foldlM_cons, bind_assoc] at h
    obtain ⟨bar, _, h⟩ := bind_eq_ok.mp h
    rw [pure_bind, addBar_append bar fun p hp => hearly p hp row List.mem_cons_self] at h
    exact ih (fun p hp other ho => hearly p hp other (List.mem_cons_of_mem _ ho))
      (fun other ho => hrows other (List.mem_cons_of_mem _ ho))
      (hlate.addBar bar (hrows row List.mem_cons_self)) h

theorem from_periods {bars : List PeriodBars} (h : rows.periods = .ok bars) : From rows bars := by
  have hempty : From rows [] := fun _ hp => nomatch hp
  rw [periods, ← List.append_nil []] at h
  obtain ⟨late, rfl, hlate⟩ := foldlM_addBar (fun _ hp => absurd hp List.not_mem_nil)
    (fun _ hr => hr) hempty h
  exact hlate

/-- The rows after an instant add periods after it to the periods of the rows up to it. -/
theorem periods_append {bars : List PeriodBars} (h : (rows ++ later).periods = .ok bars)
    (hrows : ∀ row ∈ rows, row.time ≤ time) (hlater : ∀ row ∈ later, time < row.time) :
    ∃ early late, rows.periods = .ok early ∧ bars = early ++ late ∧
      (∀ p ∈ early, p.time ≤ time) ∧ ∀ p ∈ late, time < p.time := by
  rw [PriceSchedule.periods, List.foldlM_append] at h
  obtain ⟨early, hearly, hrest⟩ := bind_eq_ok.mp h
  have htimes : ∀ p ∈ early, p.time ≤ time := fun p hp => by
    obtain ⟨row, hr, ht⟩ := (from_periods hearly p hp).1
    exact ht ▸ hrows row hr
  rw [← List.append_nil early] at hrest
  have hempty : From later [] := fun _ hp => nomatch hp
  obtain ⟨late, rfl, hlate⟩ := foldlM_addBar
    (fun p hp row hr => (htimes p hp).trans_lt (hlater row hr)) (fun _ hr => hr) hempty hrest
  refine ⟨early, late, hearly, rfl, htimes, fun p hp => ?_⟩
  obtain ⟨row, hr, ht⟩ := (hlate p hp).1
  exact ht ▸ hlater row hr

/-- Sorted rows are those up to an instant and then those after it. -/
theorem eq_upTo_append {rows : PriceSchedule} (h : rows.Pairwise (·.time ≤ ·.time)) (time : Instant) :
    rows = rows.filter (·.time ≤ time) ++ rows.filter (time < ·.time) := by
  induction rows with
  | nil => rfl
  | cons row rows ih =>
    obtain ⟨hle, hrows⟩ := List.pairwise_cons.mp h
    by_cases ht : row.time ≤ time
    · rw [List.filter_cons_of_pos (by simpa using ht), List.filter_cons_of_neg (by simpa using ht),
        List.cons_append, ← ih hrows]
    · have hlt := not_le.mp ht
      have hnone : (row :: rows).filter (·.time ≤ time) = [] := by
        refine List.filter_eq_nil_iff.mpr fun other ho => ?_
        rcases List.mem_cons.mp ho with rfl | ho
        · simpa using hlt
        · simpa using hlt.trans_le (hle other ho)
      have hall : (row :: rows).filter (time < ·.time) = row :: rows := by
        refine List.filter_eq_self.mpr fun other ho => ?_
        rcases List.mem_cons.mp ho with rfl | ho
        · simpa using hlt
        · simpa using hlt.trans_le (hle other ho)
      rw [hnone, hall, List.nil_append]

theorem mem_symbols {symbol : String} :
    symbol ∈ PriceSchedule.symbols rows ↔ ∃ row ∈ rows, row.symbol = symbol := by
  have h : ∀ (rows : PriceSchedule) (seen : List String), symbol ∈ rows.foldl (fun seen row =>
      if seen.contains row.symbol then seen else seen ++ [row.symbol]) seen ↔
      symbol ∈ seen ∨ ∃ row ∈ rows, row.symbol = symbol := by
    intro rows
    induction rows with
    | nil => simp
    | cons row rows ih =>
      intro seen
      rw [List.foldl_cons, ih]
      split
      · next hc =>
        rw [List.contains_iff_mem] at hc
        grind
      · grind
  exact (h rows []).trans (by simp)

end PriceSchedule

/-! ## Weights and periods -/

/-- Weights that are the same for every symbol, in whatever order they were given. -/
def SameTargets (t u : Targets) : Prop := ∀ symbol, t.find? symbol = u.find? symbol

structure Period.Same (p q : Period) : Prop where
  time : p.time = q.time
  bars : p.bars = q.bars
  targets : Option.Rel SameTargets p.targets q.targets

namespace Account

private theorem concerned_congr {t u : Targets} (h : SameTargets t u) (a : Account) :
    concerned t a = concerned u a := by
  refine ascending_congr (nodup_eraseDups _) (nodup_eraseDups _) fun symbol => ?_
  rw [List.mem_eraseDups, List.mem_eraseDups, List.mem_append, List.mem_append,
    ← Register.isSome_find?_iff, h symbol, Register.isSome_find?_iff]

private theorem rebalance_congr {t u : Targets} (h : SameTargets t u) (model : CostModel)
    (time : Instant) (bars : Register Bar) (stopped : List String) (a : Account) :
    rebalance model time t bars stopped a = rebalance model time u bars stopped a := by
  have horder : ∀ equity, orderFor equity t bars stopped a = orderFor equity u bars stopped a := by
    intro equity
    funext symbol
    rw [orderFor, orderFor, h symbol]
  have horders : ∀ equity, orders equity t bars stopped a = orders equity u bars stopped a := by
    intro equity
    rw [orders, orders, concerned_congr h, horder]
  unfold rebalance
  simp only [horders]

end Account

namespace Run

private theorem step_congr {p q : Period} (h : p.Same q) (model : CostModel) (run : Run) :
    step model run p = step model run q := by
  obtain ⟨time, bars, targets⟩ := p
  obtain ⟨_, _, targets'⟩ := q
  obtain ⟨rfl, rfl, htargets⟩ := h
  cases htargets with
  | none => rfl
  | some hsame =>
    rw [step_eq, step_eq]
    simp only [Account.retarget, Account.rebalance_congr hsame]

theorem foldlM_step_congr {ps qs : List Period} (h : List.Forall₂ Period.Same ps qs)
    (model : CostModel) (run : Run) : ps.foldlM (step model) run = qs.foldlM (step model) run :=
  foldlM_congr_of_forall₂ h (fun run _ _ hsame => step_congr hsame model run) run

end Run

namespace WeightSchedule

def SameEntry (e f : Instant × Targets) : Prop := e.1 = f.1 ∧ SameTargets e.2 f.2

/-- Later entries have no weights for an instant. -/
private theorem targetsAt?_filter (s : WeightSchedule) {last time : Instant} (hle : time ≤ last) :
    targetsAt? (s.filter (·.1 ≤ last)) time = s.targetsAt? time := by
  unfold targetsAt?
  rw [List.find?_filter]
  congr 2
  funext entry
  by_cases ht : entry.1 = time <;> simp [ht, hle]

theorem targetsAt?_congr {s t : WeightSchedule} (h : List.Forall₂ SameEntry s t)
    (time : Instant) : Option.Rel SameTargets (s.targetsAt? time) (t.targetsAt? time) := by
  unfold targetsAt?
  induction h with
  | nil => exact .none
  | @cons e f _ _ hef _ ih =>
    by_cases ht : e.1 = time
    · have hf : f.1 = time := hef.1 ▸ ht
      simp only [List.find?_cons, ht, hf, decide_true]
      exact .some hef.2
    · have hf : f.1 ≠ time := hef.1 ▸ ht
      simpa only [List.find?_cons, ht, hf, decide_false] using ih

/-- Schedules with the same entries up to an instant have the same weights up to it. -/
theorem targetsAt?_same {s t : WeightSchedule} {last time : Instant} (hle : time ≤ last)
    (h : List.Forall₂ SameEntry (s.filter (·.1 ≤ last)) (t.filter (·.1 ≤ last))) :
    Option.Rel SameTargets (s.targetsAt? time) (t.targetsAt? time) := by
  rw [← targetsAt?_filter s hle, ← targetsAt?_filter t hle]
  exact targetsAt?_congr h time

end WeightSchedule

/-! ## Rules of a whole schedule -/

theorem Register.find?_ofPairs_same {α : Type} {symbols : List String} {symbol : String} (v : α)
    (h : symbol ∈ symbols) : (Register.ofPairs (symbols.map (·, v))).find? symbol = some v := by
  have hfold : ∀ (symbols : List String) (r : Register α),
      symbol ∈ symbols ∨ r.find? symbol = some v →
      ((symbols.map (·, v)).foldl (fun r pair => r.put pair.1 pair.2) r).find? symbol = some v := by
    intro symbols
    induction symbols with
    | nil => exact fun r hr => hr.resolve_left List.not_mem_nil
    | cons first rest ih =>
      intro r hr
      refine ih _ ?_
      rw [Register.find?_put]
      by_cases hs : symbol = first
      · exact .inr (if_pos hs)
      · rw [if_neg hs]
        exact hr.imp (fun hm => (List.mem_cons.mp hm).resolve_left hs) id
  exact hfold symbols [] (.inl h)

/-- The rules for two lists of symbols are the same, or one rule goes to all symbols of each. -/
theorem StopAssignment.resolve_agree {stops : StopAssignment} {xs ys : List String}
    {rules₁ rules₂ : Register StopRule} (h₁ : stops.resolve xs = .ok rules₁)
    (h₂ : stops.resolve ys = .ok rules₂) :
    rules₁ = rules₂ ∨ ∃ rule, (∀ s ∈ xs, rules₁.find? s = some rule) ∧
      ∀ s ∈ ys, rules₂.find? s = some rule := by
  cases stops with
  | none => exact .inl (Except.ok.inj (h₁.symm.trans h₂))
  | bySymbol entries => exact .inl (Except.ok.inj (h₁.symm.trans h₂))
  | shared rule =>
    cases h₁
    cases h₂
    exact .inr ⟨rule, fun s hs => Register.find?_ofPairs_same rule hs,
      fun s hs => Register.find?_ofPairs_same rule hs⟩

/-! ## Reports up to an instant -/

/-- What a report says up to an instant: the records with their period returns, the holdings with
their weights, the trades and the stop events. -/
structure Past where
  records : List (EquityRecord × Float)
  holdings : List (Holding × Float)
  trades : List Trade
  events : List StopEvent

def Report.past (r : Report) (time : Instant) : Past where
  records := (r.run.curve.zip r.returns).filter (·.1.time ≤ time)
  holdings := (r.run.holdings.filter (·.time ≤ time)).map fun h => (h, r.weight h)
  trades := r.run.account.trades.filter (·.time ≤ time)
  events := r.run.account.events.filter (·.time ≤ time)

def Journal.past (cash : Cents) (j : Journal) : Past where
  records := j.curve.zip (periodReturns cash (j.curve.map (·.equity)))
  holdings := j.holdings.map fun h =>
    (h, weightOf h.marketValue (((j.curve.find? (·.time = h.time)).map (·.equity)).getD 0))
  trades := j.trades
  events := j.events

section Returns

variable {α : Type} [Scalar α]

theorem periodReturns_append (previous : Cents) (xs ys : List Cents) :
    ∃ previous' : Cents, (periodReturns previous (xs ++ ys) : List α) =
      periodReturns previous xs ++ periodReturns previous' ys := by
  induction xs generalizing previous with
  | nil => exact ⟨previous, rfl⟩
  | cons x xs ih =>
    obtain ⟨previous', h⟩ := ih x
    exact ⟨previous', by rw [List.cons_append, periodReturns, h]; rfl⟩

theorem length_periodReturns (previous : Cents) (xs : List Cents) :
    (periodReturns previous xs : List α).length = xs.length := by
  induction xs generalizing previous with
  | nil => rfl
  | cons x xs ih => rw [periodReturns, List.length_cons, ih, List.length_cons]

end Returns

private theorem records_of_split {time : Instant} {early late : List EquityRecord} (cash : Cents)
    (hearly : ∀ e ∈ early, e.time ≤ time) (hlate : ∀ e ∈ late, time < e.time) :
    ((early ++ late).zip (periodReturns cash ((early ++ late).map (·.equity)) : List Float)).filter
      (·.1.time ≤ time) = early.zip (periodReturns cash (early.map (·.equity))) := by
  rw [List.map_append]
  obtain ⟨previous, hreturns⟩ :=
    periodReturns_append (α := Float) cash (early.map (·.equity)) (late.map (·.equity))
  rw [hreturns, List.zip_append (by rw [length_periodReturns, List.length_map]), List.filter_append]
  have hkept : ∀ e ∈ early.zip (periodReturns cash (early.map (·.equity)) : List Float),
      decide (e.1.time ≤ time) = true :=
    fun e he => decide_eq_true (hearly e.1 (List.of_mem_zip he).1)
  have hdropped : ∀ e ∈ late.zip (periodReturns previous (late.map (·.equity)) : List Float),
      ¬ decide (e.1.time ≤ time) = true := fun e he => by
    simpa using hlate e.1 (List.of_mem_zip he).1
  rw [List.filter_eq_self.mpr hkept, List.filter_eq_nil_iff.mpr hdropped, List.append_nil]

/-- What a report says up to an instant is read off the journal up to it. -/
theorem Report.past_of_split {r : Report} {time : Instant} {j k : Journal}
    (h : r.run.journal = j.append k) (hj : j.Within (· ≤ time)) (hk : k.Within (time < ·)) :
    r.past time = j.past r.initialCash := by
  have hcurve : r.run.curve = j.curve ++ k.curve := congrArg Journal.curve h
  have hupTo : r.run.journal.upTo time = j := by
    rw [h, Journal.upTo_append_of_later hk, Journal.upTo_of_within hj]
  have hholdings : r.run.holdings.filter (·.time ≤ time) = j.holdings :=
    congrArg Journal.holdings hupTo
  have htrades : r.run.account.trades.filter (·.time ≤ time) = j.trades :=
    congrArg Journal.trades hupTo
  have hevents : r.run.account.events.filter (·.time ≤ time) = j.events :=
    congrArg Journal.events hupTo
  unfold Report.past Journal.past
  rw [htrades, hevents, hholdings, Report.returns, hcurve,
    records_of_split r.initialCash hj.curve hk.curve]
  congr 1
  refine List.map_congr_left fun holding hm => ?_
  have hnone : k.curve.find? (·.time = holding.time) = none := List.find?_eq_none.mpr fun e he => by
    simpa using ((hj.holdings holding hm).trans_lt (hk.curve e he)).ne'
  rw [Report.weight, Report.equityAt, hcurve, List.find?_append, hnone, Option.or_none]

namespace Backtest

open PriceSchedule WeightSchedule

variable {settings : RunSettings} {model : CostModel} {weights weights₁ weights₂ : WeightInput}
  {prices prices₁ prices₂ : PriceInput} {initialCash : Option Value} {stops : StopAssignment}
  {setup setup₁ setup₂ : Setup} {report report₁ report₂ : Report} {time : Instant}

/-- The bars of an accepted simulation up to an instant are those of the rows up to it. -/
theorem Accepted.split (h : Accepted settings weights prices initialCash stops setup)
    (time : Instant) : ∃ early late,
      PriceSchedule.periods (setup.prices.filter (·.time ≤ time)) = .ok early ∧
      setup.bars = early ++ late ∧ (∀ p ∈ early, p.time ≤ time) ∧ ∀ p ∈ late, time < p.time := by
  have hsorted := (PriceSchedule.ofInput_keyed prices).of_ok h.prices
  have hbars := h.bars
  rw [eq_upTo_append hsorted time] at hbars
  exact periods_append hbars (fun row hr => of_decide_eq_true (List.mem_filter.mp hr).2)
    fun row hr => of_decide_eq_true (List.mem_filter.mp hr).2

/-- What a simulation reports up to an instant is what the run over the periods up to it says. -/
theorem Accepted.past_eq (h : Accepted settings weights prices initialCash stops setup)
    (hrun : Run.ofPeriods model setup.cash setup.book setup.periods = .ok report.run)
    (hcash : report.initialCash = setup.cash) {early late : List PeriodBars}
    (hbars : setup.bars = early ++ late) (hearly : ∀ p ∈ early, p.time ≤ time)
    (hlate : ∀ p ∈ late, time < p.time) :
    ∃ run, Run.ofPeriods model setup.cash setup.book (periodsOf setup.targets early) = .ok run ∧
      report.past time = run.journal.past setup.cash := by
  have hvalid := h.valid
  have hperiods := setup.periods_append hbars
  have hvalids := hvalid.periods
  rw [hperiods] at hrun hvalids
  obtain ⟨run, hprefix, _⟩ := Run.ofPeriods_append hrun
  obtain ⟨hwithin, k, hk, hlater⟩ := Run.journal_split hvalid.unused hvalids hprefix hrun
    (fun p hp => by obtain ⟨q, hq, rfl⟩ := List.mem_map.mp hp; exact hearly q hq)
    (fun p hp => by obtain ⟨q, hq, rfl⟩ := List.mem_map.mp hp; exact hlate q hq)
  exact ⟨run, hprefix, by rw [Report.past_of_split hk hwithin hlater, hcash]⟩

theorem mem_allSymbols_of_row {symbol : String} {row : PriceRow}
    (hr : row ∈ setup.prices) (hs : row.symbol = symbol) :
    symbol ∈ allSymbols setup.prices setup.targets := by
  simp [allSymbols, mem_symbols.mpr ⟨row, hr, hs⟩]

/-- A simulation that reports has a symbol. -/
theorem Accepted.exists_symbol (h : Accepted settings weights prices initialCash stops setup)
    (hrun : Run.ofPeriods model setup.cash setup.book setup.periods = .ok report.run)
    (hne : report.run.curve ≠ []) : ∃ symbol, symbol ∈ allSymbols setup.prices setup.targets := by
  have hrows : setup.prices ≠ [] := by
    intro hnil
    have hbars := h.bars
    rw [hnil] at hbars
    have hperiods : setup.periods = [] := by rw [Setup.periods, ← Except.ok.inj hbars]; rfl
    rw [hperiods] at hrun
    exact hne (by rw [← Except.ok.inj hrun])
  obtain ⟨row, hr⟩ := List.exists_mem_of_ne_nil _ hrows
  exact ⟨row.symbol, mem_allSymbols_of_row hr rfl⟩

theorem bookOf_twins {rules₁ rules₂ : Register StopRule}
    (h : rules₁.isEmpty = rules₂.isEmpty) (settings : RunSettings) :
    Twins (Option.map (StopBook.withRules rules₁)) (Option.map (StopBook.withRules rules₂))
      (bookOf rules₁ settings) (bookOf rules₂ settings) := by
  unfold bookOf
  rw [h]
  split
  · exact .ok none
  · refine .bind_same fun policy _ => .bind_same fun priority _ => ?_
    exact ⟨.ok (some { rules := [], policy, priority }), rfl, rfl⟩

/-- The rules of two simulations agree on the symbols that both have, and there are none in one if
there are none in the other. -/
theorem Accepted.rules_agree
    (h₁ : Accepted settings weights₁ prices₁ initialCash stops setup₁)
    (h₂ : Accepted settings weights₂ prices₂ initialCash stops setup₂)
    (hs₁ : ∃ symbol, symbol ∈ allSymbols setup₁.prices setup₁.targets)
    (hs₂ : ∃ symbol, symbol ∈ allSymbols setup₂.prices setup₂.targets) :
    setup₁.rules.isEmpty = setup₂.rules.isEmpty ∧
      ∀ symbol ∈ allSymbols setup₁.prices setup₁.targets,
        symbol ∈ allSymbols setup₂.prices setup₂.targets →
        setup₁.rules.find? symbol = setup₂.rules.find? symbol := by
  rcases StopAssignment.resolve_agree h₁.rules h₂.rules with heq | ⟨rule, hfirst, hsecond⟩
  · exact ⟨by rw [heq], fun _ _ _ => by rw [heq]⟩
  · have hfull : ∀ {rules : Register StopRule} {symbol : String}, rules.find? symbol = some rule →
        rules.isEmpty = false := by
      intro rules symbol hfind
      cases rules with
      | nil => cases hfind
      | cons entry rest => rfl
    obtain ⟨s₁, hs₁⟩ := hs₁
    obtain ⟨s₂, hs₂⟩ := hs₂
    exact ⟨by rw [hfull (hfirst s₁ hs₁), hfull (hsecond s₂ hs₂)],
      fun symbol hm₁ hm₂ => by rw [hfirst symbol hm₁, hsecond symbol hm₂]⟩

/-- No look-ahead: two simulations with the same settings, costs, cash and stops, whose price rows and
weights are the same up to an instant, report the same up to it. -/
theorem no_look_ahead
    (h₁ : simulate settings model weights₁ prices₁ initialCash stops = .ok report₁)
    (h₂ : simulate settings model weights₂ prices₂ initialCash stops = .ok report₂)
    {rows₁ rows₂ : PriceSchedule} (hrows₁ : PriceSchedule.ofInput prices₁ = .ok rows₁)
    (hrows₂ : PriceSchedule.ofInput prices₂ = .ok rows₂)
    {targets₁ targets₂ : WeightSchedule} (htargets₁ : WeightSchedule.ofInput weights₁ = .ok targets₁)
    (htargets₂ : WeightSchedule.ofInput weights₂ = .ok targets₂)
    (hrows : rows₁.filter (·.time ≤ time) = rows₂.filter (·.time ≤ time))
    (htargets : List.Forall₂ SameEntry (targets₁.filter (·.1 ≤ time))
      (targets₂.filter (·.1 ≤ time))) :
    report₁.past time = report₂.past time := by
  obtain ⟨setup₁, ha₁, hrun₁, hcash₁, _, hne₁⟩ := exists_setup h₁
  obtain ⟨setup₂, ha₂, hrun₂, hcash₂, _, hne₂⟩ := exists_setup h₂
  cases Except.ok.inj (hrows₁.symm.trans ha₁.prices)
  cases Except.ok.inj (hrows₂.symm.trans ha₂.prices)
  cases Except.ok.inj (htargets₁.symm.trans ha₁.targets)
  cases Except.ok.inj (htargets₂.symm.trans ha₂.targets)
  have hcash : setup₁.cash = setup₂.cash := Except.ok.inj (ha₁.cash.symm.trans ha₂.cash)
  -- the periods up to the instant have the same bars and weights
  obtain ⟨early, late₁, hearly, hbars₁, hle, hlate₁⟩ := ha₁.split time
  obtain ⟨early₂, late₂, hearly₂, hbars₂, _, hlate₂⟩ := ha₂.split time
  rw [← hrows, hearly] at hearly₂
  cases hearly₂
  have hsame : List.Forall₂ Period.Same (periodsOf setup₁.targets early)
      (periodsOf setup₂.targets early) := by
    refine List.forall₂_map_left_iff.mpr (List.forall₂_map_right_iff.mpr ?_)
    exact List.forall₂_same.mpr fun p hp => ⟨rfl, rfl, targetsAt?_same (hle p hp) htargets⟩
  obtain ⟨run₁, hprefix₁, hpast₁⟩ := ha₁.past_eq hrun₁ hcash₁ hbars₁ hle hlate₁
  obtain ⟨run₂, hprefix₂, hpast₂⟩ := ha₂.past_eq hrun₂ hcash₂ hbars₂ hle hlate₂
  -- the rules agree on the symbols of these bars, which both simulations have
  obtain ⟨hempty, hrules⟩ := ha₁.rules_agree ha₂ (ha₁.exists_symbol hrun₁ hne₁)
    (ha₂.exists_symbol hrun₂ hne₂)
  have hbooks := bookOf_twins hempty settings
  rw [ha₁.book, ha₂.book] at hbooks
  obtain ⟨book, hbook₁, hbook₂⟩ := hbooks.of_ok
  have hagree : ∀ p ∈ periodsOf setup₁.targets early, ∀ symbol ∈ p.bars.symbols,
      setup₁.rules.find? symbol = setup₂.rules.find? symbol := by
    intro p hp symbol hs
    obtain ⟨q, hq, rfl⟩ := List.mem_map.mp hp
    obtain ⟨row, hr, hsymbol⟩ := (from_periods hearly q hq).2 symbol hs
    have hr₂ := hr
    rw [hrows] at hr₂
    exact hrules symbol (mem_allSymbols_of_row (List.mem_filter.mp hr).1 hsymbol)
      (mem_allSymbols_of_row (List.mem_filter.mp hr₂).1 hsymbol)
  have hvalid : ∀ p ∈ periodsOf setup₁.targets early, p.Valid := fun p hp =>
    ha₁.valid.periods p (by
      rw [Setup.periods, hbars₁, periodsOf, List.map_append]
      exact List.mem_append_left _ hp)
  have htwins := Run.ofPeriods_twins hvalid hagree model setup₁.cash book
  rw [← hbook₁, ← hbook₂, hprefix₁] at htwins
  rw [Run.ofPeriods, ← Run.foldlM_step_congr hsame, ← hcash] at hprefix₂
  rw [Run.ofPeriods, hprefix₂] at htwins
  obtain ⟨run, rfl, rfl⟩ := htwins.of_ok
  rw [hpast₁, hpast₂, hcash]
  rfl

def secondDay : Instant := ⟨1704153600000000000⟩

/-- The schedules of the sample go no further than the second day, and what may follow comes later. -/
private theorem upTo_secondDay :
    ((PriceSchedule.ofInput (samplePrices [])).map (·.filter (·.time ≤ secondDay)) =
        PriceSchedule.ofInput (samplePrices []) ∧
      (PriceSchedule.ofInput (samplePrices laterPrices)).map (·.filter (·.time ≤ secondDay)) =
        PriceSchedule.ofInput (samplePrices [])) ∧
    (WeightSchedule.ofInput (sampleWeights [])).map (·.filter (·.1 ≤ secondDay)) =
        WeightSchedule.ofInput (sampleWeights []) ∧
      (WeightSchedule.ofInput (sampleWeights laterWeights)).map (·.filter (·.1 ≤ secondDay)) =
        WeightSchedule.ofInput (sampleWeights []) := by
  unfold PriceSchedule.ofInput PriceSchedule.ofRows samplePrices laterPrices WeightSchedule.ofInput
    WeightSchedule.ofMapping sampleWeights laterWeights
  simp only [WeightSchedule.sortByTime_eq_insertionSort,
    mergeSort_eq_insertionSort PriceSchedule.rowLe_trans PriceSchedule.rowLe_total]
  exact ⟨⟨rfl, rfl⟩, rfl, rfl⟩

/-- A third day, with another symbol and other weights, leaves what is said of the first two. -/
theorem no_look_ahead_sample : ∃ report₁ report₂, sample .zero [] [] = .ok report₁ ∧
    sample .zero laterPrices laterWeights = .ok report₂ ∧ report₂.run.curve.length = 3 ∧
    report₁.past secondDay = report₂.past secondDay := by
  obtain ⟨report₁, h₁, _⟩ := exists_of_check sample_checks.1
  obtain ⟨report₂, h₂, hlength⟩ := exists_of_check sample_checks.2.2
  obtain ⟨setup₁, ha₁, _⟩ := exists_setup h₁
  obtain ⟨setup₂, ha₂, _⟩ := exists_setup h₂
  obtain ⟨⟨hrows₁, hrows₂⟩, htargets₁, htargets₂⟩ := upTo_secondDay
  have hrows := hrows₁.trans hrows₂.symm
  have htargets := htargets₁.trans htargets₂.symm
  rw [ha₁.prices, ha₂.prices] at hrows
  rw [ha₁.targets, ha₂.targets] at htargets
  refine ⟨report₁, report₂, h₁, h₂, of_decide_eq_true hlength, no_look_ahead h₁ h₂ ha₁.prices
    ha₂.prices ha₁.targets ha₂.targets (Except.ok.inj hrows) ?_⟩
  rw [show setup₁.targets.filter (·.1 ≤ secondDay) = _ from Except.ok.inj htargets]
  exact List.forall₂_same.mpr fun _ _ => ⟨rfl, fun _ => rfl⟩

end Backtest
end PortfolioLab
