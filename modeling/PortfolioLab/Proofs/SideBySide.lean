import PortfolioLab.Backtest.Report
import PortfolioLab.Proofs.Exits
import PortfolioLab.Proofs.Journal

/-!
# Runs side by side

Two runs over periods that bring the same weights, and the same bars of the symbols that may be held, are
one run in two surroundings. Their logs may differ in the order of exits at one instant, and do not if
the priorities are the same.
-/

namespace PortfolioLab

def Surroundings.start (priority : List String) : Surroundings := ⟨[], [], priority, [], []⟩

/-- Surroundings that say the same of the market of some symbols, with logs that tell the same but for
the order of ties. -/
structure Surroundings.Beside (P : String → Prop) (s₁ s₂ : Surroundings) : Prop where
  agree : Agree P s₁ s₂
  trades : Reordered Trade.Ties s₁.trades s₂.trades
  events : Reordered StopEvent.Ties s₁.events s₂.events
  same : s₁.priority = s₂.priority → s₁.trades = s₂.trades ∧ s₁.events = s₂.events

namespace Surroundings.Beside

variable {P : String → Prop} {s₁ s₂ : Surroundings}

theorem logged {ts us : List Trade} {es fs : List StopEvent} (h : Beside P s₁ s₂)
    (hts : Reordered Trade.Ties ts us) (hes : Reordered StopEvent.Ties es fs)
    (hsame : s₁.priority = s₂.priority → ts = us ∧ es = fs) :
    Beside P (s₁.logged ts es) (s₂.logged us fs) where
  agree := ⟨h.agree.lastClose, h.agree.histories⟩
  trades := (h.trades.append_right ts).trans (hts.append_left s₂.trades)
  events := (h.events.append_right es).trans (hes.append_left s₂.events)
  same hpriority := by
    obtain ⟨htrades, hevents⟩ := h.same hpriority
    obtain ⟨rfl, rfl⟩ := hsame hpriority
    exact ⟨congrArg (· ++ ts) htrades, congrArg (· ++ es) hevents⟩

theorem exited {model : CostModel} {time : Instant} {held : String → Int}
    {triggers₁ triggers₂ : List StopTrigger} (h : Beside P s₁ s₂) (hperm : triggers₁.Perm triggers₂)
    (hsame : s₁.priority = s₂.priority → triggers₁ = triggers₂) :
    Beside P
      (s₁.logged (triggers₁.map (·.exit model time held)) (triggers₁.map (·.event time held)))
      (s₂.logged (triggers₂.map (·.exit model time held)) (triggers₂.map (·.event time held))) := by
  refine h.logged (.of_perm (hperm.map _) fun t ht u hu => ?_)
    (.of_perm (hperm.map _) fun e he f hf => ?_) fun hpriority => ?_
  · obtain ⟨_, _, rfl⟩ := List.mem_map.mp ht
    obtain ⟨_, _, rfl⟩ := List.mem_map.mp hu
    exact ⟨⟨rfl, rfl⟩, rfl⟩
  · obtain ⟨_, _, rfl⟩ := List.mem_map.mp he
    obtain ⟨_, _, rfl⟩ := List.mem_map.mp hf
    exact rfl
  · rw [hsame hpriority]
    exact ⟨rfl, rfl⟩

end Surroundings.Beside

namespace Account

/-- Two accounts are one account without a log, whose positions are in `P`, in two surroundings. -/
structure Shared (P : String → Prop) (s₁ s₂ : Surroundings) (a a₁ a₂ : Account) : Prop where
  left : a₁ = a.within s₁
  right : a₂ = a.within s₂
  unlogged : a.unlogged = a
  covered : ∀ symbol ∈ a.positions.symbols, P symbol
  beside : s₁.Beside P s₂

def Parallel (P : String → Prop) (priority₁ priority₂ : List String) (a₁ a₂ : Account) : Prop :=
  ∃ s₁ s₂ a, Shared P s₁ s₂ a a₁ a₂ ∧ s₁.priority = priority₁ ∧ s₂.priority = priority₂

variable {P : String → Prop} {s₁ s₂ : Surroundings} {priority₁ priority₂ : List String}
  {a a₁ a₂ a₁' a₂' : Account} {model : CostModel} {time : Instant} {initial : Int}
  {bars₁ bars₂ : Register Bar} {r₁ r₂ : Account × List String}

/-- What an account has in its log is counted to the surroundings. -/
theorem parallel_of_within (hs : s₁.Beside P s₂) (ha : ∀ symbol ∈ a.positions.symbols, P symbol) :
    Parallel P s₁.priority s₂.priority (a.within s₁) (a.within s₂) := by
  refine ⟨s₁.logged a.trades a.events, s₂.logged a.trades a.events, a.unlogged,
    ⟨within_logged s₁ a, within_logged s₂ a, rfl, ha, ?_⟩, rfl, rfl⟩
  exact hs.logged (.refl _) (.refl _) fun _ => ⟨rfl, rfl⟩

theorem Parallel.learn (h : Parallel P priority₁ priority₂ a₁ a₂) (hn₁ : bars₁.symbols.Nodup)
    (hn₂ : bars₂.symbols.Nodup)
    (hbars : ∀ symbol, P symbol → bars₁.find? symbol = bars₂.find? symbol) :
    Parallel P priority₁ priority₂ (a₁.learn bars₁) (a₂.learn bars₂) := by
  obtain ⟨s₁, s₂, a, ⟨rfl, rfl, hlog, hcovered, hbeside⟩, rfl, rfl⟩ := h
  refine ⟨s₁.learn bars₁, s₂.learn bars₂, a,
    ⟨learn_within bars₁ s₁ a, learn_within bars₂ s₂ a, hlog, hcovered, ?_⟩, rfl, rfl⟩
  exact ⟨hbeside.agree.learn hn₁ hn₂ hbars, hbeside.trades, hbeside.events, hbeside.same⟩

private theorem parallel_of_leaves {triggers₁ triggers₂ : List StopTrigger} (hlog : a.unlogged = a)
    (hcovered : ∀ symbol ∈ a.positions.symbols, P symbol) (hbeside : s₁.Beside P s₂)
    (hperm : triggers₁.Perm triggers₂) (hdistinct : (triggers₁.map (·.symbol)).Nodup)
    (hsame : s₁.priority = s₂.priority → triggers₁ = triggers₂)
    (h₁ : triggers₁.foldlM (leave model time) (a.within s₁) = .ok a₁')
    (h₂ : triggers₂.foldlM (leave model time) (a.within s₂) = .ok a₂') :
    Parallel P s₁.priority s₂.priority a₁' a₂' := by
  have hexits₁ : a₁' = (a.within s₁).afterExits model time a.held triggers₁ :=
    leaves_eq hdistinct (fun _ _ => rfl) h₁
  have hexits₂ : a₂' = (a.within s₂).afterExits model time a.held triggers₂ :=
    leaves_eq ((hperm.map _).nodup_iff.mp hdistinct) (fun _ _ => rfl) h₂
  rw [afterExits_within, within_logged] at hexits₁ hexits₂
  rw [← afterExits_perm hperm] at hexits₂
  refine ⟨_, _, _, ⟨hexits₁, hexits₂, rfl, fun symbol hm => ?_, ?_⟩, rfl, rfl⟩
  · exact hcovered symbol (Register.mem_symbols_foldl_remove hm)
  · have htrades : a.trades = [] := (congrArg Account.trades hlog).symm
    have hevents : a.events = [] := (congrArg Account.events hlog).symm
    simp only [afterExits, htrades, hevents, List.nil_append]
    exact hbeside.exited hperm hsame

/-- The stop phase: the same stops fire, maybe in different orders. -/
theorem Parallel.runStops (h : Parallel P priority₁ priority₂ a₁ a₂) (hsound : a₁.Sound initial [])
    (hbars : ∀ symbol, P symbol → bars₁.find? symbol = bars₂.find? symbol)
    (h₁ : runStops model time bars₁ a₁ = .ok r₁) (h₂ : runStops model time bars₂ a₂ = .ok r₂) :
    Parallel P priority₁ priority₂ r₁.1 r₂.1 ∧ ∀ symbol, symbol ∈ r₁.2 ↔ symbol ∈ r₂.2 := by
  obtain ⟨s₁, s₂, a, ⟨rfl, rfl, hlog, hcovered, hbeside⟩, rfl, rfl⟩ := h
  unfold Account.runStops at h₁ h₂
  cases hb : a.book with
  | none =>
    simp only [within, hb, Option.map_none] at h₁ h₂
    cases h₁
    cases h₂
    refine ⟨⟨s₁, s₂, a, ⟨?_, ?_, hlog, hcovered, hbeside⟩, rfl, rfl⟩, fun symbol => Iff.rfl⟩
    · simp only [within, hb, Option.map_none]
    · simp only [within, hb, Option.map_none]
  | some book =>
    have hstep := hsound.inStep (book.withPriority s₁.priority) (by simp [within, hb])
    -- stops are of positions, so both passes see the same of the market
    have hstops : ∀ symbol ∈ book.states.symbols, P symbol := fun symbol hm =>
      hcovered symbol ((hstep.covered symbol).mp hm).1
    simp only [within, hb, Option.map_some] at h₁ h₂
    obtain ⟨⟨triggers₁, after₁⟩, hfound₁, h₁⟩ := bind_eq_ok.mp h₁
    obtain ⟨⟨triggers₂, after₂⟩, hfound₂, h₂⟩ := bind_eq_ok.mp h₂
    obtain ⟨last₁, hleave₁, h₁⟩ := bind_eq_ok.mp h₁
    obtain ⟨last₂, hleave₂, h₂⟩ := bind_eq_ok.mp h₂
    cases h₁
    cases h₂
    obtain ⟨after, rfl, rfl, hperm, hdistinct, hsame⟩ := StopBook.evaluate_parallel hstep.distinct
      (fun symbol hm => hbars symbol (hstops symbol hm))
      (fun symbol hm => hbeside.agree.histories symbol (hstops symbol hm)) hfound₁ hfound₂
    have htested : unlogged { a with book := some after } = { a with book := some after } := by
      rw [← hlog]
      rfl
    exact ⟨parallel_of_leaves (a := { a with book := some after }) htested hcovered hbeside hperm
      hdistinct hsame hleave₁ hleave₂, fun symbol => (hperm.map (·.symbol)).mem_iff⟩

theorem Parallel.retarget {targets : Option Targets} {stopped₁ stopped₂ : List String}
    (h : Parallel P priority₁ priority₂ a₁ a₂)
    (htargets : ∀ t ∈ targets, ∀ symbol ∈ t.symbols, P symbol)
    (hbars : ∀ symbol, P symbol → bars₁.find? symbol = bars₂.find? symbol)
    (hstopped : ∀ symbol, symbol ∈ stopped₁ ↔ symbol ∈ stopped₂)
    (h₁ : retarget model time targets bars₁ stopped₁ a₁ = .ok a₁')
    (h₂ : retarget model time targets bars₂ stopped₂ a₂ = .ok a₂') :
    Parallel P priority₁ priority₂ a₁' a₂' := by
  obtain ⟨s₁, s₂, a, ⟨rfl, rfl, hlog, hcovered, hbeside⟩, rfl, rfl⟩ := h
  have htwins := retarget_within model time hbeside.agree htargets hcovered hbars hstopped
  have hheld := symbols_of_retarget (P := P) htargets (a := a.within s₁) hcovered h₁
  rw [h₁, h₂] at htwins
  obtain ⟨b, rfl, rfl⟩ := htwins.of_ok
  exact parallel_of_within hbeside hheld

/-- Accounts side by side have the same money, and logs that differ at most in the order of ties. -/
theorem Parallel.outcome (h : Parallel P priority₁ priority₂ a₁ a₂) :
    a₁.cash = a₂.cash ∧ a₁.positions = a₂.positions ∧ Reordered Trade.Ties a₁.trades a₂.trades ∧
      Reordered StopEvent.Ties a₁.events a₂.events ∧
      (priority₁ = priority₂ → a₁.trades = a₂.trades ∧ a₁.events = a₂.events) := by
  obtain ⟨s₁, s₂, a, ⟨rfl, rfl, hlog, _, hbeside⟩, rfl, rfl⟩ := h
  have htrades : a.trades = [] := (congrArg Account.trades hlog).symm
  have hevents : a.events = [] := (congrArg Account.events hlog).symm
  simp only [within, htrades, hevents, List.append_nil]
  exact ⟨trivial, trivial, hbeside.trades, hbeside.events, hbeside.same⟩

end Account

/-- Periods that bring the same weights, for symbols in `P`, and the same bars of these. -/
structure Period.Parallel (P : String → Prop) (p q : Period) : Prop where
  time : p.time = q.time
  targets : p.targets = q.targets
  covered : ∀ t ∈ p.targets, ∀ symbol ∈ t.symbols, P symbol
  bars : ∀ symbol, P symbol → p.bars.find? symbol = q.bars.find? symbol

namespace Run

open Account (within)

structure Parallel (P : String → Prop) (priority₁ priority₂ : List String) (run₁ run₂ : Run) : Prop where
  account : Account.Parallel P priority₁ priority₂ run₁.account run₂.account
  holdings : run₁.holdings = run₂.holdings
  curve : run₁.curve = run₂.curve

variable {P : String → Prop} {priority₁ priority₂ : List String} {run₁ run₂ run₁' run₂' : Run}
  {model : CostModel} {initial : Int} {rules : Option (Register StopRule)} {done ps qs : List Period}
  {p q : Period}

theorem Parallel.record {time : Instant} (h : Parallel P priority₁ priority₂ run₁ run₂)
    (h₁ : record time run₁ = .ok run₁') (h₂ : record time run₂ = .ok run₂') :
    Parallel P priority₁ priority₂ run₁' run₂' := by
  obtain ⟨s₁, s₂, a, hshared, _⟩ := h.account
  have hstock : takeStock time run₁.account = takeStock time run₂.account := by
    rw [hshared.left, hshared.right]
    exact Account.takeStock_within hshared.beside.agree hshared.covered
  have hcash : run₁.account.cash = run₂.account.cash := by
    rw [hshared.left, hshared.right]
    rfl
  unfold Run.record at h₁ h₂
  rw [hstock, hcash] at h₁
  obtain ⟨stock, htake, h₁⟩ := bind_eq_ok.mp h₁
  obtain ⟨stock', htake', h₂⟩ := bind_eq_ok.mp h₂
  cases htake.symm.trans htake'
  obtain ⟨equity, hequity, h₁⟩ := bind_eq_ok.mp h₁
  obtain ⟨equity', hequity', h₂⟩ := bind_eq_ok.mp h₂
  cases hequity.symm.trans hequity'
  cases h₁
  cases h₂
  exact ⟨h.account, by rw [h.holdings], by rw [h.curve]⟩

theorem Parallel.step (h : Parallel P priority₁ priority₂ run₁ run₂)
    (hsound : run₁.account.Sound initial []) (hpq : p.Parallel P q) (hp : p.Valid) (hq : q.Valid)
    (h₁ : step model run₁ p = .ok run₁') (h₂ : step model run₂ q = .ok run₂') :
    Parallel P priority₁ priority₂ run₁' run₂' := by
  rw [step_eq] at h₁ h₂
  rw [← hpq.time, ← hpq.targets] at h₂
  obtain ⟨r₁, hstops₁, h₁⟩ := bind_eq_ok.mp h₁
  obtain ⟨r₂, hstops₂, h₂⟩ := bind_eq_ok.mp h₂
  obtain ⟨a₁, htrades₁, hrecord₁⟩ := bind_eq_ok.mp h₁
  obtain ⟨a₂, htrades₂, hrecord₂⟩ := bind_eq_ok.mp h₂
  have hlearned := h.account.learn hp.distinct hq.distinct hpq.bars
  obtain ⟨hstopped, hsymbols⟩ :=
    hlearned.runStops (hsound.learn hp.distinct) hpq.bars hstops₁ hstops₂
  have hretargeted := hstopped.retarget hpq.covered hpq.bars hsymbols htrades₁ htrades₂
  have hrun : Parallel P priority₁ priority₂ { run₁ with account := a₁ } { run₂ with account := a₂ } :=
    ⟨hretargeted, h.holdings, h.curve⟩
  exact hrun.record hrecord₁ hrecord₂

theorem Parallel.foldlM_step (h : Parallel P priority₁ priority₂ run₁ run₂)
    (hsound : Sound initial rules done run₁) (hperiods : List.Forall₂ (Period.Parallel P) ps qs)
    (hps : ∀ p ∈ ps, p.Valid) (hqs : ∀ q ∈ qs, q.Valid)
    (h₁ : ps.foldlM (Run.step model) run₁ = .ok run₁') (h₂ : qs.foldlM (Run.step model) run₂ = .ok run₂') :
    Parallel P priority₁ priority₂ run₁' run₂' := by
  -- the first run stays sound, which keeps its stops in step with its positions
  induction hperiods generalizing done run₁ run₂ with
  | nil =>
    cases h₁
    cases h₂
    exact h
  | @cons p q ps qs hpq _ ih =>
    obtain ⟨hp, hps⟩ := List.forall_mem_cons.mp hps
    obtain ⟨hq, hqs⟩ := List.forall_mem_cons.mp hqs
    rw [List.foldlM_cons] at h₁ h₂
    obtain ⟨next₁, hfirst₁, h₁⟩ := bind_eq_ok.mp h₁
    obtain ⟨next₂, hfirst₂, h₂⟩ := bind_eq_ok.mp h₂
    have hnext := h.step hsound.account hpq hp hq hfirst₁ hfirst₂
    have hsound' := ((step_keyed hsound hp).of_ok hfirst₁).1
    exact ih hnext hsound' hps hqs h₁ h₂

/-- Runs over periods side by side, from books that differ in their priorities. -/
theorem parallel_of_periods {cash : Cents} {book : Option StopBook}
    (hb : ∀ b, book = some b → b.states = []) (hperiods : List.Forall₂ (Period.Parallel P) ps qs)
    (hps : ∀ p ∈ ps, p.Valid) (hqs : ∀ q ∈ qs, q.Valid)
    (h₁ : ofPeriods model cash (book.map (StopBook.withPriority priority₁)) ps = .ok run₁)
    (h₂ : ofPeriods model cash (book.map (StopBook.withPriority priority₂)) qs = .ok run₂) :
    Parallel P priority₁ priority₂ run₁ run₂ := by
  have hstart : (Surroundings.start priority₁).Beside P (.start priority₂) :=
    ⟨⟨fun _ _ => rfl, fun _ _ => rfl⟩, .nil, .nil, fun _ => ⟨rfl, rfl⟩⟩
  have haccount : Account.Parallel P priority₁ priority₂
      { cash, book := book.map (StopBook.withPriority priority₁) }
      { cash, book := book.map (StopBook.withPriority priority₂) } :=
    Account.parallel_of_within (a := { cash, book }) hstart fun symbol hm => absurd hm List.not_mem_nil
  have hunused : ∀ b, book.map (StopBook.withPriority priority₁) = some b → b.states = [] := by
    intro b hb'
    obtain ⟨b', hbook, rfl⟩ := Option.map_eq_some_iff.mp hb'
    exact hb b' hbook
  have hrun : Parallel P priority₁ priority₂
      { account := { cash, book := book.map (StopBook.withPriority priority₁) } }
      { account := { cash, book := book.map (StopBook.withPriority priority₂) } } :=
    ⟨haccount, rfl, rfl⟩
  exact hrun.foldlM_step (sound_start cash hunused) hperiods hps hqs h₁ h₂

end Run

/-! ## Reports side by side -/

/-- What a report says of money: the records with their period returns, the holdings with their weights,
the positions and the cash at the end. -/
structure Balances where
  records : List (EquityRecord × Float)
  holdings : List (Holding × Float)
  finalPositions : Register Position
  finalCash : Cents

def Report.balances (r : Report) : Balances where
  records := r.run.curve.zip r.returns
  holdings := r.run.holdings.map fun h => (h, r.weight h)
  finalPositions := r.finalPositions
  finalCash := r.run.account.cash

theorem Report.balances_congr {r₁ r₂ : Report} (hinitial : r₁.initialCash = r₂.initialCash)
    (hcurve : r₁.run.curve = r₂.run.curve) (hholdings : r₁.run.holdings = r₂.run.holdings)
    (hpositions : r₁.run.account.positions = r₂.run.account.positions)
    (hcash : r₁.run.account.cash = r₂.run.account.cash) : r₁.balances = r₂.balances := by
  unfold Report.balances Report.finalPositions Report.returns Report.weight Report.equityAt
  rw [hinitial, hcurve, hholdings, hpositions, hcash]

end PortfolioLab
