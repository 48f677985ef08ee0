import PortfolioLab.Backtest.Run
import PortfolioLab.Proofs.Ordering
import PortfolioLab.Proofs.Phases

/-!
# Runs

A period keeps the account of a run sound, records the account as it stands at the end, and writes
only entries of its own instant. So what a run recorded for a period is the account that the periods
up to it lead to, and what it wrote up to an instant is what those periods wrote.
-/

namespace PortfolioLab

def closeIn (periods : List Period) (symbol : String) : Option Cents :=
  periods.reverse.findSome? fun p => (p.bars.find? symbol).map (·.close)

/-- A period as the schedules bring it: one bar for each symbol, and no negative close or weight. -/
structure Period.Valid (p : Period) : Prop where
  distinct : p.bars.symbols.Nodup
  quoted : Account.Quoted p.bars
  longOnly : ∀ targets, p.targets = some targets → Account.LongOnly targets

namespace Account

variable {initial : Int} {a : Account} {time : Instant}

/-! ## Learning the bars of a period -/

theorem learn_eq (bars : Register Bar) (a : Account) : ∃ histories, a.learn bars = { a with
    histories, lastClose := bars.foldl (fun closes e => closes.put e.1 e.2.close) a.lastClose } := by
  induction bars generalizing a with
  | nil => exact ⟨a.histories, rfl⟩
  | cons entry rest ih => exact ih _

theorem find?_learn {bars : Register Bar} (h : bars.symbols.Nodup) (a : Account) (symbol : String) :
    (a.learn bars).lastClose.find? symbol =
      ((bars.find? symbol).map (·.close)).or (a.lastClose.find? symbol) := by
  obtain ⟨histories, he⟩ := learn_eq bars a
  rw [he]
  exact Register.find?_foldl_put (·.close) h a.lastClose symbol

theorem Sound.learn {bars : Register Bar} (h : a.Sound initial []) (hn : bars.symbols.Nodup) :
    (a.learn bars).Sound initial [] := by
  have hpriced : ∀ symbol ∈ a.positions.symbols, symbol ∈ (a.learn bars).lastClose.symbols := by
    intro symbol hm
    rw [← Register.isSome_find?_iff, find?_learn hn, Option.isSome_or, Bool.or_eq_true]
    exact .inr (Register.isSome_find?_iff.mpr (h.balanced.priced symbol hm))
  obtain ⟨histories, he⟩ := learn_eq bars a
  rw [he] at hpriced ⊢
  exact ⟨{ h.balanced with priced := hpriced }, fun book hb => { h.inStep book hb with }⟩

/-! ## The record of a period -/

def holding (time : Instant) (a : Account) (symbol : String) : Holding where
  time
  symbol
  quantity := a.held symbol
  price := (a.lastClose.find? symbol).getD 0
  marketValue := a.held symbol * (a.lastClose.find? symbol).getD 0

def stock (time : Instant) (a : Account) : List Holding :=
  (ascending a.positions.symbols).map (a.holding time)

def worth (time : Instant) (a : Account) : EquityRecord :=
  let invested := ((a.stock time).map (·.marketValue)).sum
  { time, equity := a.cash + invested, cash := a.cash, invested }

end Account

namespace Run

open Account

variable {model : CostModel} {initial : Int} {a : Account} {time : Instant} {run : Run}

private theorem holdingOf_keyed (h : a.Balanced initial) {symbol : String}
    (hm : symbol ∈ a.positions.symbols) :
    Keyed (fun holding => holding = a.holding time symbol) (holdingOf time a symbol) := by
  obtain ⟨position, hp⟩ := Register.exists_find?_iff.mpr hm
  obtain ⟨price, hc⟩ := Register.exists_find?_iff.mpr (h.priced symbol hm)
  simp only [holdingOf, hp, hc]
  refine (Cents.check_keyed _).bind fun value hv => ?_
  rw [Keyed.pure_iff, hv.1, holding, held_of_find? hp, hc]
  rfl

theorem takeStock_keyed (h : a.Balanced initial) :
    Keyed (fun r => r.1 = a.stock time ∧ r.2 = ((a.stock time).map (·.marketValue)).sum)
      (takeStock time a) := by
  refine (Keyed.foldlM (I := fun rest (r : List Holding × Cents) =>
    ∃ done, done ++ rest = ascending a.positions.symbols ∧ r.1 = done.map (a.holding time) ∧
      r.2 = (r.1.map (·.marketValue)).sum) ⟨[], rfl, rfl, rfl⟩ ?_).imp fun r hr => ?_
  · rintro symbol rest ⟨holdings, invested⟩ ⟨done, hdone, hholdings, hinvested⟩
    dsimp only at hholdings hinvested
    have hm : symbol ∈ a.positions.symbols := by
      rw [← mem_ascending, ← hdone]
      simp
    refine (holdingOf_keyed h hm).bind fun holding hholding => ?_
    refine (Cents.check_keyed _).bind fun total htotal => ?_
    have hsum : total = ((holdings ++ [holding]).map (·.marketValue)).sum := by
      rw [htotal.1, hinvested]
      simp
    exact ⟨done ++ [symbol], by simpa using hdone, by simp [hholdings, hholding], hsum⟩
  · obtain ⟨done, hdone, hholdings, hinvested⟩ := hr
    rw [List.append_nil] at hdone
    rw [hdone] at hholdings
    exact ⟨hholdings, by rw [hinvested, hholdings]; rfl⟩

theorem record_keyed (h : run.account.Balanced initial) :
    Keyed (fun run' => run' = { run with
        holdings := run.holdings ++ run.account.stock time
        curve := run.curve ++ [run.account.worth time] }) (record time run) := by
  refine (takeStock_keyed h).bind fun r ⟨hholdings, hinvested⟩ => ?_
  refine (Cents.sum_keyed _).bind fun equity hequity => ?_
  have hvalue : equity = run.account.cash + r.2 := by
    rw [hequity.1]
    simp [Cents.total]
  rw [Keyed.pure_iff, hvalue, hholdings, hinvested]
  rfl

/-! ## One period -/

/-- A run over the periods in `done`, from some cash and some rules for stops. -/
structure Sound (initial : Int) (rules : Option (Register StopRule)) (done : List Period) (run : Run) :
    Prop where
  account : run.account.Sound initial []
  rules : run.account.book.map (·.rules) = rules
  lastClose : ∀ symbol, run.account.lastClose.find? symbol = closeIn done symbol

/-- What a period adds to a run: trades and events of its instant, and the record of the account as it
stands at the end. -/
structure Recorded (p : Period) (run run' : Run) : Prop where
  trades : ∃ new, run'.account.trades = run.account.trades ++ new ∧ ∀ t ∈ new, t.time = p.time
  events : ∃ new, run'.account.events = run.account.events ++ new ∧ ∀ e ∈ new, e.time = p.time
  holdings : run'.holdings = run.holdings ++ run'.account.stock p.time
  curve : run'.curve = run.curve ++ [run'.account.worth p.time]

theorem closeIn_concat (done : List Period) (p : Period) (symbol : String) :
    closeIn (done ++ [p]) symbol = ((p.bars.find? symbol).map (·.close)).or (closeIn done symbol) := by
  rw [closeIn, List.reverse_append, List.findSome?_append]
  cases h : (p.bars.find? symbol).map (·.close) <;> simp [closeIn, h]

/-- The phases of a period. -/
theorem step_eq (model : CostModel) (run : Run) (p : Period) : step model run p =
    (run.account.learn p.bars).runStops model p.time p.bars >>= fun r =>
      r.1.retarget model p.time p.targets p.bars r.2 >>= fun account =>
        record p.time { run with account } := by
  unfold step retarget
  cases p.targets <;> rfl

theorem step_keyed {rules : Option (Register StopRule)} {done : List Period} {p : Period}
    (h : Sound initial rules done run) (hp : p.Valid) :
    Keyed (fun run' => Sound initial rules (done ++ [p]) run' ∧ Recorded p run run')
      (step model run p) := by
  have hlearned := h.account.learn hp.distinct
  have hcloses : ∀ symbol, (run.account.learn p.bars).lastClose.find? symbol =
      closeIn (done ++ [p]) symbol := by
    intro symbol
    rw [closeIn_concat, find?_learn hp.distinct, h.lastClose]
  have hquoted : ∀ symbol ∈ p.bars.symbols, symbol ∈ (run.account.learn p.bars).lastClose.symbols := by
    intro symbol hm
    rw [← Register.isSome_find?_iff, find?_learn hp.distinct, Option.isSome_or, Bool.or_eq_true,
      Option.isSome_map]
    exact .inl (Register.isSome_find?_iff.mpr hm)
  have hkept : (run.account.learn p.bars).book = run.account.book ∧
      (run.account.learn p.bars).trades = run.account.trades ∧
      (run.account.learn p.bars).events = run.account.events := by
    obtain ⟨histories, he⟩ := learn_eq p.bars run.account
    rw [he]
    exact ⟨rfl, rfl, rfl⟩
  rw [step_eq]
  refine (runStops_keyed p.bars hlearned).bind fun r ⟨hstopped, hgrows⟩ => ?_
  refine (retarget_keyed hstopped hp.longOnly hp.quoted (hgrows.lastClose ▸ hquoted) r.2).bind
    fun a' ⟨hsound, hgrows'⟩ => ?_
  have hall := hgrows.trans hgrows'
  have hrecord : Keyed _ (record p.time { run with account := a' }) := record_keyed hsound.balanced
  refine hrecord.imp fun run' hrun' => ?_
  subst hrun'
  obtain ⟨hbook, htrades, hevents⟩ := hkept
  refine ⟨⟨hsound, ?_, fun symbol => ?_⟩, ⟨?_, ?_, rfl, rfl⟩⟩
  · rw [hall.rules, hbook, h.rules]
  · rw [← hcloses, ← hall.lastClose]
  · rw [← htrades]
    exact hall.trades
  · rw [← hevents]
    exact hall.events

end Run
end PortfolioLab
