import PortfolioLab.Proofs.Breaches
import PortfolioLab.Proofs.Exits
import PortfolioLab.Proofs.TradingDays

/-!
# The prices at which stops are left

A bar that breaches a stop is left at the threshold, or at the first price known where this is not above
the threshold and the policy takes the worse of the two. The worse price is never above the threshold and
never outside the range of the prices recorded in the bar, whichever of them are missing.
-/

namespace PortfolioLab

namespace Bar

/-- A price between the lowest and the highest price recorded in the bar. -/
structure Spans (b : Bar) (price : Cents) : Prop where
  above : ∃ low ∈ b.prices, low ≤ price
  below : ∃ high ∈ b.prices, price ≤ high

theorem spans_of_mem {b : Bar} {price : Cents} (h : price ∈ b.prices) : b.Spans price :=
  ⟨⟨price, h, le_rfl⟩, ⟨price, h, le_rfl⟩⟩

theorem worst_mem_prices (b : Bar) : b.worst ∈ b.prices := by
  unfold worst prices
  cases b.low <;> simp

theorem gapReference_mem_prices (b : Bar) : b.gapReference ∈ b.prices := by
  unfold gapReference prices
  cases b.opening <;> cases b.high <;> simp

end Bar

/-- A breach of a threshold as a policy settles it. -/
structure Breach.Settles (policy : GapPolicy) (level : Cents) (bar : Bar) (b : Breach) : Prop where
  threshold : b.threshold = level
  worse : policy = .worsePrice → b.exitPrice ≤ level ∧ bar.Spans b.exitPrice
  kept : policy = .threshold → b.exitPrice = level

namespace StopState

variable {policy : GapPolicy} {bar : Bar} {s : StopState} {breach : Breach} {level : Cents}

/-- The worse price is the lesser of the threshold and the first price known. -/
theorem breach?_eq_some (h : s.breach? policy bar = some breach) :
    ∃ level, s.threshold = some level ∧ bar.worst ≤ level ∧ breach.threshold = level ∧
      (breach.gapped = true ↔ bar.gapReference ≤ level) ∧
      breach.exitPrice = if policy = .worsePrice then min bar.gapReference level else level := by
  unfold breach? at h
  cases hlevel : s.threshold with
  | none => simp [hlevel] at h
  | some level =>
    simp only [hlevel] at h
    split at h
    · next hworst =>
      cases h
      refine ⟨level, rfl, hworst, rfl, by simp, ?_⟩
      cases policy with
      | threshold => simp
      | worsePrice =>
        rcases le_or_gt bar.gapReference level with hgap | hgap
        · simp [hgap]
        · simp [hgap.le, not_le.mpr hgap]
    · cases h

theorem settles_of_breach? (h : s.breach? policy bar = some breach) :
    ∃ level, s.threshold = some level ∧ breach.Settles policy level bar := by
  obtain ⟨level, hlevel, hworst, hthreshold, _, hexit⟩ := breach?_eq_some h
  refine ⟨level, hlevel, hthreshold, fun hpolicy => ?_, fun hpolicy => ?_⟩
  · rw [if_pos hpolicy] at hexit
    rw [hexit]
    refine ⟨min_le_right _ _, ?_⟩
    rcases le_total bar.gapReference level with hgap | hgap
    · rw [min_eq_left hgap]
      exact Bar.spans_of_mem bar.gapReference_mem_prices
    · rw [min_eq_right hgap]
      exact ⟨⟨_, bar.worst_mem_prices, hworst⟩, ⟨_, bar.gapReference_mem_prices, hgap⟩⟩
  · rw [hpolicy] at hexit
    exact hexit

/-- A gap is where the worse price is the first price known. -/
theorem gapped_iff {worse : Breach} (h : s.breach? policy bar = some breach)
    (hworse : s.breach? .worsePrice bar = some worse) :
    breach.gapped = true ↔ worse.exitPrice = bar.gapReference := by
  obtain ⟨level, hlevel, _, _, hgapped, _⟩ := breach?_eq_some h
  obtain ⟨level', hlevel', _, _, _, hexit⟩ := breach?_eq_some hworse
  cases hlevel.symm.trans hlevel'
  rw [hgapped, hexit, if_pos rfl, min_eq_left_iff]

/-- What a bar makes of a stop, but for the price of the exit, does not depend on the policy. -/
theorem exists_observe_of {other : GapPolicy} {history : List Bar} {found : Option Breach} {t : StopState}
    (h : (observe policy history bar).commit s = .ok (found, t)) :
    ∃ found', (observe other history bar).commit s = .ok (found', t) := by
  have hsome : (s.breach? other bar).isSome = (s.breach? policy bar).isSome := by
    rw [Bool.eq_iff_iff, isSome_breach?_iff, isSome_breach?_iff]
  rw [observe, Transition.commit_bind, Transition.commit_get, ok_bind] at h ⊢
  dsimp only at h ⊢
  cases hbreach : s.breach? policy bar with
  | some breach =>
    obtain ⟨breach', hbreach'⟩ := Option.isSome_iff_exists.mp (hsome.trans (by rw [hbreach]; rfl))
    rw [hbreach] at h
    rw [hbreach']
    cases h
    exact ⟨_, rfl⟩
  | none =>
    have hbreach' : s.breach? other bar = none := by
      rw [← Option.not_isSome_iff_eq_none, hsome, hbreach]
      simp
    rw [hbreach] at h
    rw [hbreach']
    exact ⟨found, h⟩

end StopState

namespace StopBook

variable {book after : StopBook} {bars : Register Bar} {histories : Register (List Bar)}
  {triggers : List StopTrigger} {trigger : StopTrigger}

def withPolicy (policy : GapPolicy) (book : StopBook) : StopBook := { book with policy }

theorem found_of_test {policy : GapPolicy} {symbol : String} {s t : StopState} {bar : Bar}
    {found : Option Breach} (hbar : bars.find? symbol = some bar) (hactive : s.status = .active)
    (h : test policy bars histories symbol s = .ok (found, t)) : found = s.breach? policy bar := by
  simp only [test, hbar, if_pos hactive] at h
  exact (StopState.observe_eq h).1

/-- The triggers of a pass are the breaches of active stops by the bars of their symbols. -/
theorem mem_triggers_iff (hn : book.states.symbols.Nodup)
    (h : (evaluate bars histories).commit book = .ok (triggers, after)) :
    trigger ∈ triggers ↔ ∃ s bar, book.states.find? trigger.symbol = some s ∧
      bars.find? trigger.symbol = some bar ∧ s.status = .active ∧
      triggerOf trigger.symbol s (s.breach? book.policy bar) = some trigger := by
  have hpassed := passed_of_evaluate hn h
  have hfilter : trigger ∈ triggers ↔ trigger ∈ triggers.filter (·.symbol = trigger.symbol) := by
    simp
  rw [hfilter]
  constructor
  · intro hm
    by_cases hin : trigger.symbol ∈ stopOrder book.states.symbols book.priority
    · obtain ⟨s, hs⟩ := Register.exists_find?_iff.mpr ((stopOrder_perm _ _).mem_iff.mp hin)
      obtain ⟨found, t, htest, _, htriggers⟩ := hpassed.tested _ hin s hs
      rw [htriggers, Option.mem_toList] at hm
      unfold test at htest
      split at htest
      · next bar hbar =>
        split at htest
        · next hactive =>
          obtain ⟨rfl, _⟩ := StopState.observe_eq htest
          exact ⟨s, bar, hs, hbar, hactive, hm⟩
        · cases htest
          cases hm
      · cases htest
        cases hm
    · rw [(hpassed.untested _ hin).2] at hm
      cases hm
  · rintro ⟨s, bar, hs, hbar, hactive, htrigger⟩
    have hin : trigger.symbol ∈ stopOrder book.states.symbols book.priority :=
      (stopOrder_perm _ _).mem_iff.mpr (Register.exists_find?_iff.mp ⟨s, hs⟩)
    obtain ⟨found, t, htest, _, htriggers⟩ := hpassed.tested _ hin s hs
    rw [htriggers, Option.mem_toList, found_of_test hbar hactive htest]
    exact htrigger

/-- A pass with another policy succeeds as well. -/
theorem exists_evaluate_withPolicy (hn : book.states.symbols.Nodup) (policy : GapPolicy)
    (h : (evaluate bars histories).commit book = .ok (triggers, after)) :
    ∃ p, (evaluate bars histories).commit (book.withPolicy policy) = .ok p := by
  have htests := (exists_of_evaluate_iff hn).mp ⟨_, h⟩
  have hn' : (book.withPolicy policy).states.symbols.Nodup := hn
  refine (exists_of_evaluate_iff hn').mpr fun symbol s hs => ?_
  obtain ⟨⟨found, t⟩, htest⟩ := htests symbol s hs
  unfold test at htest ⊢
  split at htest
  · split at htest
    · next hactive =>
      obtain ⟨found', hfound'⟩ := StopState.exists_observe_of htest
      exact ⟨_, (if_pos hactive).trans hfound'⟩
    · next hinactive => exact ⟨_, if_neg hinactive⟩
  · exact ⟨_, rfl⟩

/-- Every trigger of a pass settles the breach of an active stop, and tells of a gap exactly where the
trigger that the stop has under the other policy is at the first price known. -/
theorem settles_of_trigger (hn : book.states.symbols.Nodup)
    (h : (evaluate bars histories).commit book = .ok (triggers, after)) (hm : trigger ∈ triggers) :
    ∃ s level bar, book.states.find? trigger.symbol = some s ∧ s.status = .active ∧
      s.threshold = some level ∧ bars.find? trigger.symbol = some bar ∧
      trigger.breach.Settles book.policy level bar ∧
      ∃ worse after', (evaluate bars histories).commit (book.withPolicy .worsePrice) = .ok (worse, after') ∧
        ∃ trigger' ∈ worse, trigger'.symbol = trigger.symbol ∧
          (trigger.breach.gapped = true ↔ trigger'.breach.exitPrice = bar.gapReference) := by
  obtain ⟨s, bar, hs, hbar, hactive, htrigger⟩ := (mem_triggers_iff hn h).mp hm
  obtain ⟨breach, hbreach, heq⟩ := Option.map_eq_some_iff.mp htrigger
  have hsame : trigger.breach = breach := by rw [← heq]
  obtain ⟨level, hlevel, hsettles⟩ := StopState.settles_of_breach? hbreach
  have hn' : (book.withPolicy .worsePrice).states.symbols.Nodup := hn
  obtain ⟨⟨worse, after'⟩, hworse⟩ := exists_evaluate_withPolicy hn .worsePrice h
  have hsome : (s.breach? book.policy bar).isSome := by rw [hbreach]; rfl
  obtain ⟨breach', hbreach'⟩ : ∃ breach', s.breach? .worsePrice bar = some breach' := by
    rw [← Option.isSome_iff_exists, StopState.isSome_breach?_iff]
    exact StopState.isSome_breach?_iff.mp hsome
  refine ⟨s, level, bar, hs, hactive, hlevel, hbar, hsame ▸ hsettles, worse, after', hworse,
    ⟨trigger.symbol, s.rule.kind.name, breach'⟩, ?_, rfl, ?_⟩
  · refine (mem_triggers_iff hn' hworse).mpr ⟨s, bar, hs, hbar, hactive, ?_⟩
    rw [show (book.withPolicy .worsePrice).policy = .worsePrice from rfl, hbreach']
    rfl
  · rw [hsame]
    exact StopState.gapped_iff hbreach hbreach'

end StopBook

/-! ## The exits of a run -/

/-- A trade of a period at a price within the bar of its symbol. -/
def Trade.InBar (p : Period) (t : Trade) : Prop :=
  t.time = p.time ∧ ∃ bar, p.bars.find? t.symbol = some bar ∧ bar.Spans t.price

namespace Account

variable {a a' : Account} {model : CostModel} {time : Instant} {bars : Register Bar}
  {stopped : List String}

/-- The exits of a stop phase are at the prices of the triggers. -/
theorem exits_of_runStops (hn : ∀ book, a.book = some book → book.states.symbols.Nodup)
    (hpolicy : ∀ book, a.book = some book → book.policy = .worsePrice)
    (h : runStops model time bars a = .ok (a', stopped)) :
    ∃ exits, a'.trades = a.trades ++ exits ∧ ∀ t ∈ exits, t.time = time ∧
      ∃ bar, bars.find? t.symbol = some bar ∧ bar.Spans t.price := by
  unfold runStops at h
  cases hb : a.book with
  | none =>
    simp only [hb] at h
    cases h
    exact ⟨[], by simp, fun _ ht => absurd ht List.not_mem_nil⟩
  | some book =>
    simp only [hb] at h
    obtain ⟨⟨triggers, after⟩, hevaluate, h⟩ := bind_eq_ok.mp h
    obtain ⟨last, hleave, h⟩ := bind_eq_ok.mp h
    cases h
    have hdistinct := ((StopBook.evaluate_keyed bars a.histories book).of_ok hevaluate).nodup (hn book hb)
    have hafter : a' = ({ a with book := some after } : Account).afterExits model time a.held triggers :=
      leaves_eq hdistinct (fun _ _ => rfl) hleave
    rw [hafter]
    refine ⟨_, rfl, fun t ht => ?_⟩
    obtain ⟨trigger, hm, rfl⟩ := List.mem_map.mp ht
    obtain ⟨s, level, bar, _, _, _, hbar, hsettles, _⟩ :=
      StopBook.settles_of_trigger (hn book hb) hevaluate hm
    exact ⟨rfl, bar, hbar, (hsettles.worse (hpolicy book hb)).2⟩

end Account

namespace Run

open Account

variable {model : CostModel} {initial : Int} {run run' : Run} {periods : List Period}
  {book : Option StopBook}

theorem exits_of_step {rules : Option (Register StopRule)} {done : List Period} {p : Period}
    (hs : Sound initial rules done run) (hp : p.Valid)
    (hpolicy : ∀ b, run.account.book = some b → b.policy = .worsePrice)
    (h : step model run p = .ok run') :
    ∃ exits trades, run'.account.trades = run.account.trades ++ exits ++ trades ∧
      (∀ t ∈ exits, t.InBar p) ∧ ∀ t ∈ trades, t.reason = .rebalance := by
  rw [step_eq] at h
  obtain ⟨⟨after, stopped⟩, hstops, hrest⟩ := bind_eq_ok.mp h
  obtain ⟨last, hretarget, hrecord⟩ := bind_eq_ok.mp hrest
  have hlearned := hs.account.learn hp.distinct
  obtain ⟨histories, hlearn⟩ := learn_eq p.bars run.account
  have hbook : (run.account.learn p.bars).book = run.account.book := by rw [hlearn]
  obtain ⟨exits, hexits, hspans⟩ := exits_of_runStops
    (fun b hb => (hlearned.inStep b hb).distinct) (fun b hb => hpolicy b (hbook ▸ hb)) hstops
  obtain ⟨sells, buys, htrading, hrebalanced⟩ := retarget_writes hretarget
  have haccount : run'.account = last := record_account hrecord
  refine ⟨exits, sells ++ buys, ?_, hspans, fun t ht => (hrebalanced.each t ht).2.1⟩
  rw [haccount, htrading.trades, hexits, hlearn]

theorem exits_of_periods (hb : ∀ b, book = some b → b.states = []) (hv : ∀ p ∈ periods, p.Valid)
    (hsorted : periods.Pairwise (·.time < ·.time)) (hpolicy : ∀ b, book = some b → b.policy = .worsePrice)
    (h : ofPeriods model initial book periods = .ok run) :
    ∀ t ∈ run.account.trades, t.reason = .stop → ∃ p ∈ periods, t.InBar p := by
  induction periods using List.reverseRecOn generalizing run with
  | nil =>
    cases h
    exact fun t ht => absurd ht List.not_mem_nil
  | append_singleton pre p ih =>
    obtain ⟨before, hbefore, hstep⟩ := ofPeriods_concat h
    have hvpre : ∀ q ∈ pre, q.Valid := fun q hq => hv q (List.mem_append_left _ hq)
    have hvlast : p.Valid := hv p (List.mem_append_right _ List.mem_cons_self)
    have hsortedPre := (List.pairwise_append.mp hsorted).1
    obtain ⟨hsound, _, _⟩ := (ofPeriods_keyed hb hvpre).of_ok hbefore
    have hlogged := logged_of_periods hb hvpre hsortedPre hbefore
    -- the policy of a book stays what it is
    have hkept : ∀ b, before.account.book = some b → b.policy = .worsePrice := by
      intro b hbook
      have hbare := hlogged.book
      rw [hbook] at hbare
      obtain ⟨b', hb', heq⟩ := Option.map_eq_some_iff.mp hbare.symm
      exact (congrArg StopBook.policy heq).symm.trans (hpolicy b' hb')
    obtain ⟨exits, trades, hall, hexits, htrades⟩ := exits_of_step hsound hvlast hkept hstep
    intro t ht hreason
    rw [hall, List.append_assoc, List.mem_append, List.mem_append] at ht
    rcases ht with hearly | hexit | htrade
    · obtain ⟨q, hq, hin⟩ := ih hvpre hsortedPre hbefore t hearly hreason
      exact ⟨q, List.mem_append_left _ hq, hin⟩
    · exact ⟨p, List.mem_append_right _ List.mem_cons_self, hexits t hexit⟩
    · rw [htrades t htrade] at hreason
      cases hreason

end Run

namespace Backtest

theorem policy_of_book {rules : Register StopRule} {settings : RunSettings} {book : StopBook}
    (h : bookOf rules settings = .ok (some book)) :
    GapPolicy.ofValue settings.gapPolicy = .ok book.policy := by
  unfold bookOf at h
  split at h
  · cases h
  · obtain ⟨policy, hpolicy, h⟩ := bind_eq_ok.mp h
    obtain ⟨priority, _, h⟩ := bind_eq_ok.mp h
    cases h
    exact hpolicy

/-- Stops are left at prices that can be had. A pass under either policy settles the breach of an active
stop: at the threshold in force before the bar, or at the worse price, which is not above the threshold
and within the range of the bar. A gap is told exactly where the worse price is the first price known of
the bar. In a run that takes the worse price every exit is at a price within the bar of its day. -/
theorem exit_prices_attainable :
    (∀ (book after : StopBook) (bars : Register Bar) (histories : Register (List Bar))
      (triggers : List StopTrigger), book.states.symbols.Nodup →
      (StopBook.evaluate bars histories).commit book = .ok (triggers, after) →
      ∀ trigger ∈ triggers, ∃ s level bar, book.states.find? trigger.symbol = some s ∧
        s.status = .active ∧ s.threshold = some level ∧ bars.find? trigger.symbol = some bar ∧
        trigger.breach.Settles book.policy level bar ∧
        ∃ worse after', (StopBook.evaluate bars histories).commit (book.withPolicy .worsePrice) =
            .ok (worse, after') ∧
          ∃ trigger' ∈ worse, trigger'.symbol = trigger.symbol ∧
            (trigger.breach.gapped = true ↔ trigger'.breach.exitPrice = bar.gapReference)) ∧
      ∀ (settings : RunSettings) (model : CostModel) (weights : WeightInput) (prices : PriceInput)
        (initialCash : Option Value) (stops : StopAssignment) (report : Report),
        GapPolicy.ofValue settings.gapPolicy = .ok .worsePrice →
        simulate settings model weights prices initialCash stops = .ok report →
        ∃ setup, Accepted settings weights prices initialCash stops setup ∧
          ∀ t ∈ report.run.account.trades, t.reason = .stop → ∃ p ∈ setup.periods, t.InBar p := by
  constructor
  · intro book after bars histories triggers hn hevaluate trigger hm
    exact StopBook.settles_of_trigger hn hevaluate hm
  · intro settings model weights prices initialCash stops report hpolicy hsimulate
    obtain ⟨setup, haccepted, hrun, _⟩ := exists_setup hsimulate
    have hvalid := haccepted.valid
    have hworse : ∀ b, setup.book = some b → b.policy = .worsePrice := by
      intro b hb
      have hbook := policy_of_book (haccepted.book.trans (congrArg Except.ok hb))
      exact Except.ok.inj (hbook.symm.trans hpolicy)
    exact ⟨setup, haccepted,
      Run.exits_of_periods hvalid.unused hvalid.periods hvalid.ascending hworse hrun⟩

/-- A bar that opens below the threshold of the stop, between its low and its close. -/
def gappingBar : Bar := { close := 9700, opening := some 9400, low := some 9300 }

theorem exit_prices_attainable_gap :
    (∃ triggers after, (StopBook.evaluate [("A", gappingBar)] []).commit StopBook.oneStop =
      .ok (triggers, after) ∧ ∃ trigger ∈ triggers, trigger.breach.exitPrice = 9400 ∧
        trigger.breach.Settles .worsePrice 9500 gappingBar) ∧
    ∃ report, sample .zero [] [] = .ok report ∧
      ∃ t ∈ report.run.account.trades, t.reason = .stop ∧ ∃ p, t.InBar p := by
  obtain ⟨hpass, hruns⟩ := exit_prices_attainable
  constructor
  · have hevaluate : ∃ after, (StopBook.evaluate [("A", gappingBar)] []).commit StopBook.oneStop =
        .ok ([⟨"A", "fixed", ⟨9500, 9400, true⟩⟩], after) := by
      unfold StopBook.evaluate
      simp only [stopOrder_eq_insertionSort]
      exact ⟨_, rfl⟩
    obtain ⟨after, hevaluate⟩ := hevaluate
    refine ⟨_, after, hevaluate, _, List.mem_singleton_self _, rfl, ?_⟩
    obtain ⟨s, level, bar, hs, _, hlevel, hbar, hsettles, _⟩ :=
      hpass StopBook.oneStop after _ _ _ (List.nodup_singleton _) hevaluate _ (List.mem_singleton_self _)
    cases hs
    cases hlevel
    cases hbar
    exact hsettles
  · obtain ⟨report, h, hexits⟩ := exists_of_check sample_exits.1
    obtain ⟨hevents, _⟩ := Bool.and_eq_true_iff.mp hexits
    obtain ⟨setup, _, hin⟩ := hruns {} .zero _ _ _ _ report rfl h
    obtain ⟨_, haccepted, hrun, _⟩ := exists_setup h
    have hvalid := haccepted.valid
    have hlogged := Run.logged_of_periods hvalid.unused hvalid.periods hvalid.ascending hrun
    obtain ⟨e, he⟩ := List.exists_mem_of_ne_nil _ (by simpa using hevents)
    obtain ⟨t, ht, _⟩ := exists_of_forall₂ hlogged.told.flip e he
    obtain ⟨hmem, hreason⟩ := List.mem_filter.mp ht
    obtain ⟨p, _, hp⟩ := hin t hmem (of_decide_eq_true hreason)
    exact ⟨report, h, t, hmem, of_decide_eq_true hreason, p, hp⟩

end Backtest
end PortfolioLab
