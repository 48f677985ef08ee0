import PortfolioLab.Proofs.StopCalls
import Mathlib.Data.List.Infix
import Mathlib.Order.Bounds.Basic

/-!
# A stop fires at its first breach

The threshold of a stop after some bars has a closed form: a fixed distance below the entry price, or a
distance that is set when a range first is positive, below the entry price or below the best price so
far. An active stop has this threshold as long as no bar has reached it, and so it fires at the first
bar that reaches the threshold of the bars before it, and never again.
-/

namespace PortfolioLab

/-! ## Thresholds in closed form -/

/-- The best of an entry price and the prices of some bars. -/
def peakOf (entry : Cents) (bars : List Bar) : Cents := bars.foldl (fun peak bar => max peak bar.best) entry

theorem peakOf_concat (entry : Cents) (bars : List Bar) (bar : Bar) :
    peakOf entry (bars ++ [bar]) = max (peakOf entry bars) bar.best := by
  simp [peakOf]

/-- The first average true range that is positive, of a history or of the history with some of the bars
that come after it. -/
def firstRange (lookback : Int) (history bars : List Bar) : Option Cents :=
  bars.inits.findSome? fun seen => (Bar.averageTrueRange (history ++ seen) lookback).filter (0 < ·)

theorem firstRange_nil (lookback : Int) (history : List Bar) :
    firstRange lookback history [] = (Bar.averageTrueRange history lookback).filter (0 < ·) := by
  simp [firstRange]

theorem firstRange_concat (lookback : Int) (history bars : List Bar) (bar : Bar) :
    firstRange lookback history (bars ++ [bar]) = (firstRange lookback history bars).or
      ((Bar.averageTrueRange (history ++ bars ++ [bar]) lookback).filter (0 < ·)) := by
  simp [firstRange, List.inits_append, List.findSome?_append]

namespace StopRule

variable (rule : StopRule) (entry : Cents) (history : List Bar)

/-- The distance of the threshold after some bars, if it is set by then. -/
def distanceAfter (seen : List Bar) : Option Cents :=
  rule.distance (firstRange rule.lookback history seen)

def thresholdAfter (seen : List Bar) : Option Cents :=
  rule.level entry (peakOf entry seen) (rule.distanceAfter history seen)

/-- The places of the bars that reach the threshold of the bars before them. -/
def breaches (bars : List Bar) : Set Nat :=
  {k | ∃ bar level, bars[k]? = some bar ∧ rule.thresholdAfter entry history (bars.take k) = some level ∧
    bar.worst ≤ level}

variable {rule entry history}

theorem lt_length_of_breach {bars : List Bar} {k : Nat} (h : k ∈ rule.breaches entry history bars) :
    k < bars.length := by
  obtain ⟨bar, _, hbar, _⟩ := h
  exact (List.getElem?_eq_some_iff.mp hbar).1

/-- Later bars neither make nor undo a breach. -/
theorem mem_breaches_append {seen more : List Bar} {k : Nat} (hk : k < seen.length) :
    k ∈ rule.breaches entry history (seen ++ more) ↔ k ∈ rule.breaches entry history seen := by
  simp only [breaches, Set.mem_ofPred_eq, List.getElem?_append_left hk,
    List.take_append_of_le_length hk.le]

theorem length_mem_breaches {seen more : List Bar} {bar : Bar} :
    seen.length ∈ rule.breaches entry history (seen ++ bar :: more) ↔
      ∃ level, rule.thresholdAfter entry history seen = some level ∧ bar.worst ≤ level := by
  simp [breaches]

/-- A bar is the first breach exactly if no bar before it is one and it reaches their threshold. -/
theorem isLeast_breaches_iff {seen more : List Bar} {bar : Bar} :
    IsLeast (rule.breaches entry history (seen ++ bar :: more)) seen.length ↔
      (∀ k, k ∉ rule.breaches entry history seen) ∧
        ∃ level, rule.thresholdAfter entry history seen = some level ∧ bar.worst ≤ level := by
  rw [IsLeast, length_mem_breaches, and_comm]
  refine and_congr_left fun _ => ⟨fun hleast k hk => ?_, fun hnone k hk => ?_⟩
  · have hlt := lt_length_of_breach hk
    have hle := hleast ((mem_breaches_append hlt).mpr hk)
    omega
  · by_contra hlt
    exact hnone k ((mem_breaches_append (not_le.mp hlt)).mp hk)

theorem mem_breaches_concat {seen : List Bar} {bar : Bar} {k : Nat} :
    k ∈ rule.breaches entry history (seen ++ [bar]) ↔ k ∈ rule.breaches entry history seen ∨
      k = seen.length ∧ ∃ level, rule.thresholdAfter entry history seen = some level ∧
        bar.worst ≤ level := by
  constructor
  · intro hk
    have hlt := lt_length_of_breach hk
    rw [List.length_append, List.length_singleton] at hlt
    rcases Nat.lt_or_ge k seen.length with hin | hout
    · exact .inl ((mem_breaches_append hin).mp hk)
    · obtain rfl : k = seen.length := by omega
      exact .inr ⟨rfl, length_mem_breaches.mp hk⟩
  · rintro (hk | ⟨rfl, hlevel⟩)
    · exact (mem_breaches_append (lt_length_of_breach hk)).mpr hk
    · exact length_mem_breaches.mpr hlevel

end StopRule

/-! ## States that follow the closed form -/

namespace StopState

/-- An active stop of a rule, with the threshold that belongs to a best price and a distance. -/
structure Placed (rule : StopRule) (entry peak : Cents) (distance : Option Cents) (s : StopState) :
    Prop where
  sameRule : s.rule = rule
  sameEntry : s.entry = entry
  active : s.status = .active
  level : s.threshold = rule.level entry peak distance
  peak : rule.kind.trails = true → s.peak = peak
  offset : rule.kind.trails = true → s.offset = distance

variable {rule : StopRule} {entry peak : Cents} {distance range : Option Cents}
  {history seen : List Bar} {bar : Bar} {s t : StopState}

/-- A stop that still waits is armed as soon as its distance is set. -/
theorem Placed.armed (h : Placed rule entry peak distance s) (hwaits : s.threshold = none) :
    Placed rule entry peak (rule.distance (range.filter (0 < ·))) (armed range s) := by
  obtain ⟨hrule, hentry, hactive, hlevel, hpeak, hoffset⟩ := h
  refine ⟨hrule, hentry, hactive, ?_, hpeak, fun htrails => ?_⟩
  · simp only [StopState.armed, hrule, hentry, hwaits, Option.or_none]
    exact StopRule.level_congr hpeak
  · rw [hwaits, StopRule.level_of_trails htrails] at hlevel
    have hnone : s.offset = none := by
      rw [hoffset htrails]
      exact Option.map_eq_none_iff.mp hlevel.symm
    simp [StopState.armed, hrule, hnone]

/-- A trailing stop follows the best price of a bar; the others stay as they are. -/
theorem Placed.ratchet (h : Placed rule entry peak distance s) :
    Placed rule entry (max peak bar.best) distance (ratchet bar s) := by
  obtain ⟨hrule, hentry, hactive, hlevel, hpeak, hoffset⟩ := h
  unfold StopState.ratchet
  by_cases htrails : rule.kind.trails = true
  · rw [StopRule.level_of_trails htrails] at hlevel
    have hnot : (!s.rule.kind.trails) = false := by rw [hrule, htrails]; rfl
    rw [hnot, if_neg Bool.false_ne_true, hpeak htrails, hoffset htrails]
    cases distance with
    | none =>
      refine ⟨hrule, hentry, hactive, ?_, fun _ => rfl, fun _ => rfl⟩
      rw [StopRule.level_of_trails htrails]
      exact hlevel
    | some d =>
      rw [Option.map_some] at hlevel
      simp only [hlevel]
      refine ⟨hrule, hentry, hactive, ?_, fun _ => rfl, fun _ => rfl⟩
      -- the best price never falls, so neither does the threshold
      have hrises : max (peak - d) 0 ≤ max (max peak bar.best - d) 0 :=
        max_le_max (Int.sub_le_sub_right (le_max_left _ _) _) le_rfl
      rw [StopRule.level_of_trails htrails, Option.map_some]
      rcases hrises.lt_or_eq with hlt | heq
      · rw [if_pos hlt]
      · rw [if_neg heq.not_lt, heq]
  · have hnot : (!s.rule.kind.trails) = true := by simpa [hrule] using htrails
    rw [if_pos hnot]
    refine ⟨hrule, hentry, hactive, ?_, fun ht => absurd ht htrails, fun ht => absurd ht htrails⟩
    rw [hlevel]
    exact StopRule.level_congr fun ht => absurd ht htrails

/-- The state of an active stop after some bars, none of which breached it. -/
abbrev Follows (rule : StopRule) (entry : Cents) (history seen : List Bar) (s : StopState) : Prop :=
  Placed rule entry (peakOf entry seen) (rule.distanceAfter history seen) s

/-- A stop follows no bars when its position is entered. -/
theorem follows_nil (rule : StopRule) (entry : Cents) (history : List Bar) :
    Follows rule entry history [] (armed (if rule.kind.usesRange then
      Bar.averageTrueRange history rule.lookback else none) (fresh rule entry)) := by
  have hdistance : rule.distanceAfter history [] = rule.distance (Option.filter (0 < ·)
      (if rule.kind.usesRange then Bar.averageTrueRange history rule.lookback else none)) := by
    rw [StopRule.distanceAfter, firstRange_nil]
    exact StopRule.distance_congr fun huses => by rw [if_pos huses]
  refine ⟨rfl, rfl, rfl, ?_, fun _ => rfl, fun _ => ?_⟩
  · simp [hdistance, armed, fresh, peakOf]
  · simp [hdistance, armed, fresh]

theorem Follows.concat (h : Follows rule entry history seen s) :
    Follows rule entry history (seen ++ [bar]) (followed (history ++ seen ++ [bar]) bar s) := by
  unfold Follows followed StopRule.distanceAfter at *
  have hlevel := h.level
  rw [peakOf_concat, firstRange_concat]
  -- a range that comes after the threshold is set does not count
  refine Placed.ratchet ?_
  split
  · next hnone =>
    have hwaits := Option.isNone_iff_eq_none.mp hnone
    rw [StopRule.distance_or_of_waiting (hlevel.symm.trans hwaits), h.sameRule]
    exact h.armed hwaits
  · next hset =>
    have hlevel' : rule.level entry (peakOf entry seen)
        (rule.distance (firstRange rule.lookback history seen)) ≠ none := fun hnone =>
      hset (Option.isNone_iff_eq_none.mpr (hlevel.trans hnone))
    rwa [StopRule.distance_or_of_set hlevel']

theorem isSome_breach?_iff {policy : GapPolicy} :
    (s.breach? policy bar).isSome ↔ ∃ level, s.threshold = some level ∧ bar.worst ≤ level := by
  unfold breach?
  cases s.threshold with
  | none => simp
  | some level =>
    dsimp only
    split <;> simp_all

end StopState

namespace StopBook

open Call StopRule

variable {rule : StopRule} {entry : Cents} {history seen : List Bar} {symbol : String}
  {s : StopState} {book opened after : StopBook} {policy : GapPolicy}

/-- The life of a stop after some bars: it is active and follows them, or one of them breached it. -/
inductive Lived (rule : StopRule) (entry : Cents) (history seen : List Bar) (s : StopState) : Prop where
  | follows (h : StopState.Follows rule entry history seen s)
      (hnone : ∀ k, k ∉ rule.breaches entry history seen)
  | fired (h : s.status ≠ .active) (hsome : ∃ k, k ∈ rule.breaches entry history seen)

private theorem Lived.observe {found : Option Breach} {t : StopState} {bar : Bar}
    (h : StopState.Follows rule entry history seen s)
    (hnone : ∀ k, k ∉ rule.breaches entry history seen)
    (htest : (StopState.observe policy (history ++ seen ++ [bar]) bar).commit s = .ok (found, t)) :
    Lived rule entry history (seen ++ [bar]) t ∧
      (found.isSome ↔ ∃ level, rule.thresholdAfter entry history seen = some level ∧
        bar.worst ≤ level) := by
  obtain ⟨hfound, ht⟩ := StopState.observe_eq htest
  have hiff : found.isSome ↔ ∃ level, rule.thresholdAfter entry history seen = some level ∧
      bar.worst ≤ level := by
    rw [show found = _ from hfound, StopState.isSome_breach?_iff, h.level]
    rfl
  refine ⟨?_, hiff⟩
  rw [show t = _ from ht, ← show found = _ from hfound]
  split
  · next hsome =>
    exact .fired (fun hactive => nomatch hactive)
      ⟨seen.length, mem_breaches_concat.mpr (.inr ⟨rfl, hiff.mp hsome⟩)⟩
  · next hmissed =>
    refine .follows h.concat fun k hk => ?_
    rcases mem_breaches_concat.mp hk with hk | ⟨_, hlevel⟩
    · exact hnone k hk
    · exact hmissed (hiff.mpr hlevel)

/-- A test of a stop finds a breach exactly if its bar is the first to breach the stop. -/
theorem Lived.step {call : Call} {found : Option Breach} {t : StopState} (more : List Bar)
    (h : Lived rule entry history seen s) (hshows : call.Shows symbol (history ++ seen))
    (htest : call.testOf policy symbol s = .ok (found, t)) :
    Lived rule entry history (seen ++ (call.bar? symbol).toList) t ∧
      (found.isSome ↔ (call.bar? symbol).isSome ∧ IsLeast
        (rule.breaches entry history (seen ++ ((call.bar? symbol).toList ++ more))) seen.length) := by
  rw [testOf_eq hshows] at htest
  cases hbar : call.bar? symbol with
  | none =>
    simp only [hbar] at htest
    cases htest
    simpa using h
  | some bar =>
    simp only [hbar] at htest
    simp only [Option.toList_some, List.singleton_append, Option.isSome_some, true_and,
      isLeast_breaches_iff]
    cases h with
    | follows hfollows hnone =>
      rw [if_pos hfollows.active] at htest
      obtain ⟨hlived, hiff⟩ := Lived.observe hfollows hnone htest
      exact ⟨hlived, hiff.trans (and_iff_right hnone).symm⟩
    | fired hstatus hsome =>
      rw [if_neg hstatus] at htest
      cases htest
      obtain ⟨k, hk⟩ := hsome
      refine ⟨.fired hstatus ⟨k, mem_breaches_concat.mpr (.inl hk)⟩, ?_⟩
      simpa using fun hnone => absurd hk (hnone k)

theorem exists_trigger_iff {report : List StopTrigger} {found : Option Breach}
    (h : report.filter (·.symbol = symbol) = (triggerOf symbol s found).toList) :
    (∃ trigger ∈ report, trigger.symbol = symbol) ↔ found.isSome := by
  have hfilter : (∃ trigger ∈ report, trigger.symbol = symbol) ↔
      ∃ trigger, trigger ∈ report.filter (·.symbol = symbol) := by
    simp
  rw [hfilter, h]
  cases found <;> simp [triggerOf]

/-- In a run of calls, a stop that lives fires at the first bar that breaches it, and only there. -/
theorem Lived.run {calls pre post : List Call} {call : Call} {reports : List (List StopTrigger)}
    (h : Lived rule entry history seen s) (hn : book.states.symbols.Nodup)
    (hs : book.states.find? symbol = some s) (hcalls : calls = pre ++ call :: post)
    (hspares : ∀ c ∈ calls, c.Spares symbol) (hfed : Fed symbol (history ++ seen) calls)
    (hrun : (calls.mapM apply).commit book = .ok (reports, after)) :
    ∃ report, reports[pre.length]? = some report ∧
      ((∃ trigger ∈ report, trigger.symbol = symbol) ↔ (call.bar? symbol).isSome ∧ IsLeast
        (rule.breaches entry history (seen ++ barsOf symbol calls))
        (seen ++ barsOf symbol pre).length) := by
  -- over the calls before; the stop lives on through each of them, with one more bar seen or none
  induction pre generalizing calls seen s book reports with
  | nil =>
    subst hcalls
    rw [List.nil_append] at hrun
    obtain ⟨report, rest, next, rfl, hcall, hrest⟩ := Transition.commit_mapM_cons hrun
    obtain ⟨_, found, t, htest, _, hreport⟩ :=
      tested_of_apply (hspares call (by simp)) hn hs hcall
    have hstep := (h.step (barsOf symbol post) hfed.1 htest).2
    refine ⟨report, rfl, (exists_trigger_iff hreport).trans ?_⟩
    rw [List.nil_append, barsOf_cons]
    simpa [barsOf] using hstep
  | cons first pre ih =>
    subst hcalls
    rw [List.cons_append] at hrun
    obtain ⟨report, rest, next, rfl, hcall, hrest⟩ := Transition.commit_mapM_cons hrun
    obtain ⟨hn', found, t, htest, ht, _⟩ :=
      tested_of_apply (hspares first (by simp)) hn hs hcall
    have hlived := (h.step [] hfed.1 htest).1
    have hfed' := hfed.2
    rw [List.append_assoc] at hfed'
    obtain ⟨found', hfound', hiff⟩ := ih hlived hn' ht rfl
      (fun c hc => hspares c (List.mem_cons_of_mem _ hc)) hfed' hrest
    refine ⟨found', by simpa using hfound', ?_⟩
    rw [List.cons_append, barsOf_cons, barsOf_cons, ← List.append_assoc, ← List.append_assoc]
    exact hiff

/-- The first breach in closed form. After a position is entered under a rule, whatever is called for
other symbols, and as long as the tests of its stop are shown the history as it grows, a call reports
its stop exactly if the call has a bar of the symbol, this bar reaches the threshold of the bars before
it, and no earlier bar does. -/
theorem fires_at_first_breach {calls : List Call} {reports : List (List StopTrigger)} {entered : Bool}
    (hn : book.states.symbols.Nodup) (hrule : book.rules.find? symbol = some rule)
    (henter : (enter symbol entry history).commit book = .ok (entered, opened))
    (hspares : ∀ call ∈ calls, call.Spares symbol) (hfed : Fed symbol history calls)
    (hrun : (calls.mapM apply).commit opened = .ok (reports, after)) :
    ∀ pre call post, calls = pre ++ call :: post → ∃ report, reports[pre.length]? = some report ∧
      ((∃ trigger ∈ report, trigger.symbol = symbol) ↔ (call.bar? symbol).isSome ∧
        IsLeast (rule.breaches entry history (barsOf symbol calls)) (barsOf symbol pre).length) := by
  intro pre call post hcalls
  rw [commit_enter, hrule] at henter
  dsimp only at henter
  obtain ⟨p, harm, henter⟩ := bind_eq_ok.mp henter
  cases henter
  have hfollows : StopState.Follows rule entry history [] p.2 := by
    rw [StopState.arm_eq harm]
    exact StopState.follows_nil rule entry history
  have hlived : Lived rule entry history [] p.2 := .follows hfollows fun k hk =>
    absurd (lt_length_of_breach hk) (Nat.not_lt_zero k)
  have hfed' : Fed symbol (history ++ []) calls := by rwa [List.append_nil]
  exact hlived.run (Register.nodup_put hn) (Register.find?_put_same _ _ _) hcalls hspares hfed' hrun

/-! ## A pass a day -/

/-- Passes over a book with one symbol, one for each bar after a history. -/
def daily (symbol : String) : List Bar → List Bar → List Call
  | _, [] => []
  | history, bar :: bars =>
    .evaluate [(symbol, bar)] [(symbol, history ++ [bar])] :: daily symbol (history ++ [bar]) bars

theorem spares_daily (history bars : List Bar) :
    ∀ call ∈ daily symbol history bars, call.Spares symbol := by
  induction bars generalizing history with
  | nil => exact fun _ h => absurd h List.not_mem_nil
  | cons bar bars ih =>
    intro call hcall
    rcases List.mem_cons.mp hcall with rfl | hcall
    · trivial
    · exact ih _ call hcall

theorem fed_daily (history bars : List Bar) : Fed symbol history (daily symbol history bars) := by
  induction bars generalizing history with
  | nil => trivial
  | cons bar bars ih =>
    refine ⟨?_, ?_⟩
    · simp [Shows, Register.find?]
    · simpa [bar?, Register.find?] using ih (history ++ [bar])

theorem barsOf_daily (history bars : List Bar) : barsOf symbol (daily symbol history bars) = bars := by
  induction bars generalizing history with
  | nil => rfl
  | cons bar bars ih => simp [daily, barsOf_cons, bar?, Register.find?, ih]

def fallingBars : List Bar := [{ close := 1000 }, { close := 990 }, { close := 985 }]

/-- A stop at twice the range waits while nothing moves, is set by the first fall and fires at the
second. -/
theorem fires_at_first_breach_waiting :
    ∃ opened reports after, (enter "A" 1000 [{ close := 1000 }]).commit
        { rules := [("A", ⟨.atr 2, 14⟩)] } = .ok (true, opened) ∧
      ((daily "A" [{ close := 1000 }] fallingBars).mapM apply).commit opened = .ok (reports, after) ∧
      reports.map (·.length) = [0, 0, 1] ∧
      IsLeast (StopRule.breaches ⟨.atr 2, 14⟩ 1000 [{ close := 1000 }] fallingBars) 2 := by
  have hcheck : (((enter "A" 1000 [{ close := 1000 }]).commit { rules := [("A", ⟨.atr 2, 14⟩)] } >>=
      fun p => ((daily "A" [{ close := 1000 }] fallingBars).mapM apply).commit p.2 >>=
        fun q => .ok (p.1, q.1)).toOption.any fun r =>
          r.1 && r.2.map (·.length) = [0, 0, 1] && (r.2[2]?.getD []).any (·.symbol = "A")) = true := by
    unfold apply evaluate daily fallingBars
    simp only [stopOrder_eq_insertionSort]
    decide +kernel
  obtain ⟨r, hr, hfired⟩ := exists_of_check hcheck
  obtain ⟨⟨entered, opened⟩, henter, hr⟩ := bind_eq_ok.mp hr
  obtain ⟨⟨reports, after⟩, hrun, hr⟩ := bind_eq_ok.mp hr
  cases hr
  simp only [Bool.and_eq_true, decide_eq_true_eq] at hfired
  obtain ⟨⟨rfl, hlengths⟩, htrigger⟩ := hfired
  have hdistinct : (Register.symbols ([] : Register StopState)).Nodup := List.nodup_nil
  obtain ⟨report, hreport, hiff⟩ := fires_at_first_breach hdistinct rfl henter
    (spares_daily _ _) (fed_daily _ _) hrun
    (daily "A" [{ close := 1000 }] [{ close := 1000 }, { close := 990 }]) _ [] rfl
  have hthird : reports[2]? = some report := hreport
  rw [hthird] at htrigger
  have hleast := (hiff.mp (by simpa using htrigger)).2
  rw [barsOf_daily, barsOf_daily] at hleast
  exact ⟨opened, reports, after, henter, hrun, hlengths, hleast⟩

end StopBook
end PortfolioLab
