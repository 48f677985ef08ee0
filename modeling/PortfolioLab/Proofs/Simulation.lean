import PortfolioLab.Proofs.Schedules

/-!
# Simulations

A simulation that reports has accepted its inputs, and its run is the run over the periods that they
describe. A simulation that fails does not fail for a look-up.
-/

namespace PortfolioLab.Backtest

/-- What the inputs of a simulation come to. -/
structure Setup where
  prices : PriceSchedule
  targets : WeightSchedule
  bars : List PeriodBars
  cash : Cents
  rules : Register StopRule
  book : Option StopBook

def Setup.periods (s : Setup) : List Period := periodsOf s.targets s.bars

theorem Setup.periods_append (s : Setup) {early late : List PeriodBars} (h : s.bars = early ++ late) :
    s.periods = periodsOf s.targets early ++ periodsOf s.targets late := by
  rw [Setup.periods, h, periodsOf, List.map_append]
  rfl

variable {settings : RunSettings} {model : CostModel} {weights : WeightInput} {prices : PriceInput}
  {initialCash : Option Value} {stops : StopAssignment} {setup : Setup}

structure Accepted (settings : RunSettings) (weights : WeightInput) (prices : PriceInput)
    (initialCash : Option Value) (stops : StopAssignment) (setup : Setup) : Prop where
  prices : PriceSchedule.ofInput prices = .ok setup.prices
  targets : WeightSchedule.ofInput weights = .ok setup.targets
  bars : setup.prices.periods = .ok setup.bars
  matched : unmatched setup.targets setup.bars = []
  cash : Money.toCents (initialCash.getD settings.initialCash) = .ok setup.cash
  solvent : ¬ setup.cash < 0
  rules : stops.resolve (allSymbols setup.prices setup.targets) = .ok setup.rules
  book : bookOf setup.rules settings = .ok setup.book

/-! ## Steps around the run -/

private theorem prioritySymbols_keyed (values : List Value) :
    Keyed (fun _ => True) (prioritySymbols values) := by
  refine (Keyed.mapM_any fun v => ?_).bind fun _ _ => trivial
  split <;> simp

theorem bookOf_keyed (rules : Register StopRule) (settings : RunSettings) :
    Keyed (fun book => ∀ b, book = some b → b.rules = rules ∧ b.states = [])
      (bookOf rules settings) := by
  unfold bookOf
  split
  · exact fun _ h => nomatch h
  · have hpolicy : Keyed (fun _ => True) (GapPolicy.ofValue settings.gapPolicy) := by
      unfold GapPolicy.ofValue
      split <;> simp
    refine hpolicy.bind fun policy _ => (prioritySymbols_keyed _).bind fun priority _ b hb => ?_
    cases hb
    exact ⟨rfl, rfl⟩

private theorem resolve_keyed (stops : StopAssignment) (symbols : List String) :
    Keyed (fun _ => True) (stops.resolve symbols) := by
  cases stops with
  | none => trivial
  | shared rule => trivial
  | bySymbol entries =>
    refine (Keyed.mapM_any fun ⟨symbol, entry⟩ => ?_).bind fun _ _ => trivial
    cases entry <;> simp

private theorem number_keyed (v : Value) : Keyed (fun _ => True) v.number := by
  unfold Value.number
  split
  · trivial
  · split <;> simp

private theorem returnSeries_keyed (returns : Nested) :
    Keyed (fun _ => returns.numbers ≠ []) (returnSeries returns) := by
  have hshape : Keyed (fun _ => True) returns.shape := by
    unfold Nested.shape
    split <;> simp
  refine hshape.bind fun shape _ => ?_
  split
  · simp
  · split
    · simp
    · next hne =>
      split
      · simp
      · simpa using hne

private theorem performance_keyed (returns : Nested) (periodsPerYear riskFreeRate : Value)
    (alpha : Float) :
    Keyed (fun _ => returns.numbers ≠ []) (performance returns periodsPerYear riskFreeRate alpha) := by
  have hlevel : Keyed (fun _ => True) (checkLevel alpha) := by
    unfold checkLevel
    split <;> simp
  refine (returnSeries_keyed returns).bind fun series hne => ?_
  refine (number_keyed _).bind fun perYear _ => ?_
  split
  · simp
  · refine (number_keyed _).bind fun riskFree _ => ?_
    split
    · simp
    · exact hlevel.bind fun _ _ => hne

private theorem ofSchedule_keyed (schedule : PriceSchedule) :
    Keyed (fun _ => True) (SymbolReturns.ofSchedule schedule) := by
  have hcloses : ∀ time, Keyed (fun _ => True) (SymbolReturns.closesAt schedule time) := fun time =>
    Keyed.mapM_any fun row => (Value.cellNumber_keyed _).bind fun _ _ => trivial
  refine (Keyed.mapM_any fun time => ?_).bind fun _ _ => trivial
  exact (hcloses time).bind fun _ _ => trivial

theorem numbers_of_returns (returns : List Float) :
    (Nested.row (returns.map .number)).numbers = returns := by
  rw [Nested.numbers]
  induction returns with
  | nil => rfl
  | cons x rest ih => rw [List.map_cons, Nested.itemNumbers, ih]; rfl

/-! ## Accepted inputs -/

structure Setup.Valid (s : Setup) : Prop where
  solvent : 0 ≤ s.cash
  periods : ∀ p ∈ s.periods, p.Valid
  ascending : s.periods.Pairwise (·.time < ·.time)
  rules : ∀ b, s.book = some b → b.rules = s.rules
  unused : ∀ b, s.book = some b → b.states = []

theorem Accepted.valid (h : Accepted settings weights prices initialCash stops setup) :
    setup.Valid := by
  have hrows := (PriceSchedule.ofInput_keyed prices).of_ok h.prices
  have hbars := (PriceSchedule.periods_keyed hrows).of_ok h.bars
  have htargets := (WeightSchedule.ofInput_keyed weights).of_ok h.targets
  obtain ⟨hvalid, hascending⟩ := valid_periodsOf htargets hbars
  have hbook := (bookOf_keyed _ _).of_ok h.book
  exact ⟨Int.not_lt.mp h.solvent, hvalid, hascending, fun b hb => (hbook b hb).1,
    fun b hb => (hbook b hb).2⟩

/-- A simulation: no look-up fails, and a report tells of the run over the periods of accepted
inputs, of which there is at least one. -/
theorem simulate_keyed (settings : RunSettings) (model : CostModel) (weights : WeightInput)
    (prices : PriceInput) (initialCash : Option Value) (stops : StopAssignment) :
    Keyed (fun report => ∃ setup, Accepted settings weights prices initialCash stops setup ∧
        Run.ofPeriods model setup.cash setup.book setup.periods = .ok report.run ∧
        report.initialCash = setup.cash ∧ report.stopsEnabled = setup.book.isSome ∧
        report.run.curve ≠ [])
      (simulate settings model weights prices initialCash stops) := by
  unfold simulate
  refine (PriceSchedule.ofInput_keyed prices).bind_ok fun rows hprices => ?_
  refine (WeightSchedule.ofInput_keyed weights).bind_ok fun targets htargets => ?_
  have hrows := (PriceSchedule.ofInput_keyed prices).of_ok hprices
  refine (PriceSchedule.periods_keyed hrows).bind_ok fun bars hbars => ?_
  split
  · simp
  · next hmatched =>
    refine (Money.toCents_keyed _).bind_ok fun cash hcash => ?_
    split
    · simp
    · next hsolvent =>
      refine (resolve_keyed _ _).bind_ok fun rules hrules => ?_
      refine (bookOf_keyed _ _).bind_ok fun book hbook => ?_
      have haccepted : Accepted settings weights prices initialCash stops
          ⟨rows, targets, bars, cash, rules, book⟩ :=
        ⟨hprices, htargets, hbars, hmatched, hcash, hsolvent, hrules, hbook⟩
      have hvalid := haccepted.valid
      refine (Run.ofPeriods_keyed hvalid.unused hvalid.periods).bind_ok fun run hrun => ?_
      refine (performance_keyed _ _ _ _).bind fun metrics hne => ?_
      refine (ofSchedule_keyed _).bind fun returns _ => ?_
      rw [numbers_of_returns] at hne
      refine ⟨_, haccepted, hrun, rfl, rfl, fun hempty => hne ?_⟩
      rw [show run.curve = [] from hempty]
      rfl

/-- A report tells of the run over the periods of accepted inputs. -/
theorem exists_setup {report : Report}
    (h : simulate settings model weights prices initialCash stops = .ok report) :
    ∃ setup, Accepted settings weights prices initialCash stops setup ∧
      Run.ofPeriods model setup.cash setup.book setup.periods = .ok report.run ∧
      report.initialCash = setup.cash ∧ report.stopsEnabled = setup.book.isSome ∧
      report.run.curve ≠ [] :=
  (simulate_keyed _ _ _ _ _ _).of_ok h

end PortfolioLab.Backtest
