import PortfolioLab.Proofs.FirstBreach
import PortfolioLab.Proofs.StopRules

/-!
# The life of a stop

From the call that enters it to the call that drops it or enters another in its place, a stop goes
through the tests of the calls between. Its threshold always is the one that its rule sets for its
entry price, best price and distance. The best price never falls, and so neither does the threshold;
the status only moves forward, and it moves to triggered with the one trigger that the stop may have.
-/

namespace PortfolioLab

def StopStatus.rank : StopStatus → Nat
  | active => 0
  | triggered => 1
  | closed => 2

theorem StopStatus.rank_le_closed (status : StopStatus) : status.rank ≤ StopStatus.closed.rank := by
  cases status <;> decide

namespace StopState

variable {s t u : StopState} {rule : StopRule} {entry l : Cents} {range : Option Cents} {bar : Bar}

/-! ## States in order -/

/-- The threshold is the one that the rule sets, from prices and a distance that are in order. -/
structure Orderly (s : StopState) : Prop where
  accepted : s.rule.Accepted
  entry : 0 ≤ s.entry
  peak : s.entry ≤ s.peak
  offset : ∀ d ∈ s.offset, 0 ≤ d
  level : s.threshold = s.rule.level s.entry s.peak s.offset

/-- The second state may come after the first in the life of a stop. -/
structure Advances (s t : StopState) : Prop where
  rule : t.rule = s.rule
  entry : t.entry = s.entry
  peak : s.peak ≤ t.peak
  status : s.status.rank ≤ t.status.rank
  threshold : ∀ l ∈ s.threshold,
    ∃ l' ∈ t.threshold, l ≤ l' ∧ (s.rule.kind.trails = false → l' = l)

theorem Advances.refl (s : StopState) : Advances s s :=
  ⟨rfl, rfl, le_rfl, le_rfl, fun l hl => ⟨l, hl, le_rfl, fun _ => rfl⟩⟩

theorem Advances.trans (h : Advances s t) (h' : Advances t u) : Advances s u := by
  refine ⟨h'.rule.trans h.rule, h'.entry.trans h.entry, h.peak.trans h'.peak,
    h.status.trans h'.status, fun l hl => ?_⟩
  obtain ⟨l', hl', hle, hkept⟩ := h.threshold l hl
  obtain ⟨l'', hl'', hle', hkept'⟩ := h'.threshold l' hl'
  refine ⟨l'', hl'', hle.trans hle', fun hfixed => ?_⟩
  rw [hkept' (by rw [h.rule, hfixed]), hkept hfixed]

theorem Orderly.bounds (h : Orderly s) (hl : l ∈ s.threshold) : 0 ≤ l ∧ l ≤ max s.entry s.peak :=
  h.accepted.level_bounds h.entry h.offset (h.level.symm.trans hl)

theorem Orderly.trailing (h : Orderly s) (htrails : s.rule.kind.trails = true) :
    s.threshold = s.offset.map fun d => max 0 (s.peak - d) := by
  rw [h.level, StopRule.level_of_trails htrails]
  simp only [max_comm]

theorem Orderly.withStatus (h : Orderly s) (status : StopStatus) : Orderly { s with status } :=
  { h with }

theorem Orderly.offset_of_waiting (h : Orderly s) (hwaits : s.threshold = none) :
    s.offset = none := by
  have hlevel := h.level
  rw [hwaits] at hlevel
  unfold StopRule.level at hlevel
  cases hkind : s.rule.kind with
  | fixed fraction => simp [hkind] at hlevel
  | atr multiplier => simpa [hkind] using hlevel.symm
  | trailing amount => simpa [hkind] using hlevel.symm
  | trailingAtr multiplier => simpa [hkind] using hlevel.symm

private theorem orderly_armed (haccepted : s.rule.Accepted) (hentry : 0 ≤ s.entry)
    (hpeak : s.entry ≤ s.peak) (hoffset : s.offset = none) (hwaits : s.threshold = none) :
    Orderly (armed range s) := by
  have hpositive : ∀ r ∈ range.filter (0 < ·), 0 ≤ r := fun r hr => by
    have hr' := (Option.filter_eq_some_iff.mp hr).2
    exact (of_decide_eq_true hr').le
  refine ⟨haccepted, hentry, hpeak, fun d hd => ?_, ?_⟩
  · simp only [armed, hoffset, Option.or_none] at hd
    exact haccepted.distance_nonneg hpositive hd
  · simp [armed, hoffset, hwaits]

theorem orderly_entered (range : Option Cents) (haccepted : rule.Accepted) (hentry : 0 ≤ entry) :
    Orderly (armed range (fresh rule entry)) :=
  orderly_armed haccepted hentry le_rfl rfl rfl

theorem Orderly.armed (range : Option Cents) (h : Orderly s) (hwaits : s.threshold = none) :
    Orderly (armed range s) ∧ Advances s (StopState.armed range s) := by
  refine ⟨orderly_armed h.accepted h.entry h.peak (h.offset_of_waiting hwaits) hwaits,
    rfl, rfl, le_rfl, le_rfl, fun l hl => ?_⟩
  rw [hwaits] at hl
  cases hl

theorem Orderly.ratchet (bar : Bar) (h : Orderly s) (hactive : s.status = .active) :
    Orderly (ratchet bar s) ∧ Advances s (StopState.ratchet bar s) := by
  by_cases htrails : s.rule.kind.trails = true
  · -- the threshold after the bar is the level of the new best price
    have hplaced : Placed s.rule s.entry s.peak s.offset s :=
      ⟨rfl, rfl, hactive, h.level, fun _ => rfl, fun _ => rfl⟩
    have hratchet : Placed s.rule s.entry (max s.peak bar.best) s.offset (StopState.ratchet bar s) :=
      hplaced.ratchet
    obtain ⟨hrule, hentry, hstatus, hlevel, hpeak, hoffset⟩ := hratchet
    have hpeak' := hpeak htrails
    have hoffset' := hoffset htrails
    refine ⟨⟨hrule ▸ h.accepted, hentry ▸ h.entry, ?_, hoffset' ▸ h.offset, ?_⟩,
      hrule, hentry, ?_, ?_, fun l hl => ?_⟩
    · rw [hentry, hpeak']
      exact h.peak.trans (le_max_left _ _)
    · rw [hlevel, hrule, hentry, hpeak', hoffset']
    · rw [hpeak']
      exact le_max_left _ _
    · rw [hactive, hstatus]
    · rw [h.level, StopRule.level_of_trails htrails] at hl
      obtain ⟨d, hd, rfl⟩ := Option.map_eq_some_iff.mp hl
      refine ⟨max (max s.peak bar.best - d) 0, ?_, ?_, fun hfixed => ?_⟩
      · rw [hlevel, StopRule.level_of_trails htrails, hd]
        rfl
      · exact max_le_max (Int.sub_le_sub_right (le_max_left _ _) _) le_rfl
      · exact absurd htrails (ne_true_of_eq_false hfixed)
  · have hsame : StopState.ratchet bar s = s := by simp [StopState.ratchet, htrails]
    rw [hsame]
    exact ⟨h, .refl s⟩

theorem Orderly.followed (history : List Bar) (bar : Bar) (h : Orderly s)
    (hactive : s.status = .active) :
    Orderly (followed history bar s) ∧ Advances s (StopState.followed history bar s) := by
  unfold StopState.followed
  split
  · next hnone =>
    obtain ⟨horderly, hadvances⟩ := h.armed (Bar.averageTrueRange history s.rule.lookback)
      (Option.isNone_iff_eq_none.mp hnone)
    obtain ⟨horderly', hadvances'⟩ := horderly.ratchet bar hactive
    exact ⟨horderly', hadvances.trans hadvances'⟩
  · exact h.ratchet bar hactive

/-! ## One test -/

def shots (s : StopState) : Nat := if s.status = .active then 1 else 0

structure Survives (s : StopState) (found : Option Breach) (t : StopState) : Prop where
  orderly : Orderly t
  advances : Advances s t
  shots : found.toList.length + t.shots ≤ s.shots
  fired : found.isSome → t.status = .triggered

theorem Orderly.survives_untested (h : Orderly s) : Survives s none s :=
  ⟨h, .refl s, by simp, fun hsome => by cases hsome⟩

theorem Orderly.survives_observe {policy : GapPolicy} {history : List Bar} {found : Option Breach}
    (h : Orderly s) (hactive : s.status = .active)
    (hobserve : (observe policy history bar).commit s = .ok (found, t)) : Survives s found t := by
  obtain ⟨hfound, ht⟩ := observe_eq hobserve
  dsimp only at hfound ht
  have hshots : s.shots = 1 := if_pos hactive
  cases hbreach : s.breach? policy bar with
  | some breach =>
    rw [hbreach] at hfound ht
    subst hfound ht
    refine ⟨h.withStatus .triggered, ⟨rfl, rfl, le_rfl, ?_, fun l hl => ?_⟩, ?_, fun _ => rfl⟩
    · simp [hactive, StopStatus.rank]
    · exact ⟨l, hl, le_rfl, fun _ => rfl⟩
    · simp [hactive, StopState.shots]
  | none =>
    rw [hbreach] at hfound ht
    subst hfound ht
    obtain ⟨horderly, hadvances⟩ := h.followed history bar hactive
    refine ⟨horderly, hadvances, ?_, fun hsome => by cases hsome⟩
    have hle : (StopState.followed history bar s).shots ≤ 1 := by
      unfold StopState.shots
      split <;> omega
    simpa [hshots] using hle

end StopState

namespace StopBook

open StopState

variable {book opened after : StopBook} {symbol : String} {s t : StopState} {call : Call}
  {calls : List Call} {reports : List (List StopTrigger)}

namespace Call

def drops (symbol : String) : Call → Bool
  | release other => other = symbol
  | close other => other = symbol
  | _ => false

def enters (symbol : String) : Call → Bool
  | enter other _ _ => other = symbol
  | _ => false

theorem spares_of_not (hdrops : call.drops symbol = false) (henters : call.enters symbol = false) :
    call.Spares symbol := by
  cases call with
  | enter other entry history => exact of_decide_eq_false henters
  | evaluate bars histories => trivial
  | release other => exact of_decide_eq_false hdrops
  | close other => exact of_decide_eq_false hdrops

/-- The calls from the one after a stop was entered to the one that ends its life. -/
def lasting (symbol : String) : List Call → List Call
  | [] => []
  | call :: calls =>
    if call.drops symbol then [call]
    else if call.enters symbol then []
    else call :: lasting symbol calls

/-- Calls keep the rules of a book and the symbols of its stops apart. -/
theorem apply_keeps {report : List StopTrigger} (hn : book.states.symbols.Nodup)
    (h : call.apply.commit book = .ok (report, after)) :
    after.rules = book.rules ∧ after.states.symbols.Nodup := by
  cases call with
  | enter other entry history =>
    rw [apply, Transition.commit_bind] at h
    obtain ⟨⟨entered, next⟩, henter, h⟩ := bind_eq_ok.mp h
    cases h
    rcases (enter_keyed _ _ _ _).of_ok henter with ⟨_, hafter⟩ | ⟨_, s, _, _, hafter⟩
    · rw [show next = book from hafter]
      exact ⟨rfl, hn⟩
    · rw [show next = _ from hafter]
      exact ⟨rfl, Register.nodup_put hn⟩
  | evaluate bars histories =>
    have hpassed := passed_of_evaluate hn h
    refine ⟨?_, hpassed.symbols ▸ hn⟩
    rw [hpassed.rest]
  | release other =>
    cases h
    exact ⟨rfl, Register.nodup_remove hn⟩
  | close other =>
    rw [apply, Transition.commit_bind] at h
    obtain ⟨⟨closed, next⟩, hclose, h⟩ := bind_eq_ok.mp h
    cases h
    rw [eq_release_of_close hclose]
    exact ⟨rfl, Register.nodup_remove hn⟩

theorem run_keeps (hn : book.states.symbols.Nodup)
    (h : (calls.mapM apply).commit book = .ok (reports, after)) :
    after.rules = book.rules ∧ after.states.symbols.Nodup := by
  induction calls generalizing book reports with
  | nil =>
    cases h
    exact ⟨rfl, hn⟩
  | cons call calls ih =>
    obtain ⟨report, rest, next, rfl, hcall, hrest⟩ := Transition.commit_mapM_cons h
    obtain ⟨hrules, hn'⟩ := apply_keeps hn hcall
    obtain ⟨hrules', hn''⟩ := ih hn' hrest
    exact ⟨hrules'.trans hrules, hn''⟩

theorem entered_of_apply {rule : StopRule} {entry : Cents} {history : List Bar}
    {report : List StopTrigger} (hrule : book.rules.find? symbol = some rule)
    (h : (enter symbol entry history).apply.commit book = .ok (report, after)) :
    report = [] ∧ ∃ range, after =
      { book with states := book.states.put symbol (armed range (fresh rule entry)) } := by
  rw [apply, Transition.commit_bind, commit_enter, hrule] at h
  obtain ⟨⟨entered, next⟩, henter, hreport⟩ := bind_eq_ok.mp h
  dsimp only at henter
  obtain ⟨p, harm, hnext⟩ := bind_eq_ok.mp henter
  cases hnext
  cases hreport
  exact ⟨rfl, _, by rw [StopState.arm_eq harm]⟩

/-- A call that spares a stop in order makes of it what a test makes of it, and without a bar of its
symbol nothing. -/
theorem survives_of_testOf {policy : GapPolicy} {found : Option Breach} (h : s.Orderly)
    (htest : call.testOf policy symbol s = .ok (found, t)) :
    s.Survives found t ∧ (call.bar? symbol = none → t = s) := by
  have huntested : ∀ {r : Option Breach × StopState}, Except.ok (none, s) = Except.ok (ε := Failure) r →
      s.Survives r.1 r.2 ∧ r.2 = s := by
    rintro r hr
    cases hr
    exact ⟨h.survives_untested, rfl⟩
  cases call with
  | enter other entry history =>
    obtain ⟨hsurvives, hsame⟩ := huntested htest
    exact ⟨hsurvives, fun _ => hsame⟩
  | release other =>
    obtain ⟨hsurvives, hsame⟩ := huntested htest
    exact ⟨hsurvives, fun _ => hsame⟩
  | close other =>
    obtain ⟨hsurvives, hsame⟩ := huntested htest
    exact ⟨hsurvives, fun _ => hsame⟩
  | evaluate bars histories =>
    simp only [testOf, test] at htest
    cases hbar : bars.find? symbol with
    | none =>
      simp only [hbar] at htest
      obtain ⟨hsurvives, hsame⟩ := huntested htest
      exact ⟨hsurvives, fun _ => hsame⟩
    | some bar =>
      simp only [hbar] at htest
      have hsome : (evaluate bars histories).bar? symbol ≠ none := by simp [bar?, hbar]
      split at htest
      · next hactive => exact ⟨h.survives_observe hactive htest, fun hnone => absurd hnone hsome⟩
      · obtain ⟨hsurvives, _⟩ := huntested htest
        exact ⟨hsurvives, fun hnone => absurd hnone hsome⟩

end Call

open Call

/-- A stop as the call that drops it leaves it: a closed one is handed out, and one that is released is
closed where nobody sees it. -/
def Call.dropped (book : StopBook) (s : StopState) : Call → StopState
  | .close symbol => (((StopBook.close symbol).commit book).toOption.map (·.1)).getD s
  | _ => { s with status := .closed }

theorem Call.dropped_eq (hs : book.states.find? symbol = some s) (hdrops : call.drops symbol = true) :
    call.dropped book s = { s with status := .closed } := by
  cases call with
  | enter other entry history => rfl
  | evaluate bars histories => rfl
  | release other => rfl
  | close other =>
    have hclose : (StopBook.close symbol).commit book =
        .ok ({ s with status := .closed }, book.release symbol) := by
      rw [StopBook.close, Transition.commit_bind, Transition.commit_get, ok_bind, hs]
      rfl
    cases of_decide_eq_true hdrops
    rw [dropped, hclose]
    rfl

/-! ## Whole lives -/

/-- A stop right after a call, with the triggers that the call reported for it. -/
structure Moment where
  call : Call
  triggers : List StopTrigger
  state : StopState

def life (symbol : String) : StopBook → StopState → List Call → List Moment
  | _, _, [] => []
  | book, s, call :: calls =>
    if call.drops symbol then [⟨call, [], call.dropped book s⟩]
    else if call.enters symbol then []
    else
      match call.apply.commit book with
      | .error _ => []
      | .ok (report, after) =>
        match after.states.find? symbol with
        | none => []
        | some t => ⟨call, report.filter (·.symbol = symbol), t⟩ :: life symbol after t calls

/-- What holds of a stop at all moments of its life. -/
structure LifeCycle (symbol : String) (moments : List Moment) : Prop where
  advances : moments.Pairwise (·.state.Advances ·.state)
  bounded : ∀ m ∈ moments, ∀ l ∈ m.state.threshold, 0 ≤ l ∧ l ≤ max m.state.entry m.state.peak
  trailing : ∀ m ∈ moments, m.state.rule.kind.trails = true → m.state.entry ≤ m.state.peak ∧
    m.state.threshold = m.state.offset.map fun d => max 0 (m.state.peak - d)
  once : (moments.flatMap (·.triggers)).length ≤ 1
  fired : ∀ m ∈ moments, m.triggers ≠ [] → m.state.status = .triggered
  undisturbed : moments.IsChain fun m n =>
    n.call.Spares symbol → n.call.bar? symbol = none → n.state = m.state

/-- A moment at which a stop is in order and has fired no more often than it might. -/
structure Moment.Orderly (m : Moment) : Prop where
  state : m.state.Orderly
  once : m.triggers.length + m.state.shots ≤ 1
  fired : m.triggers ≠ [] → m.state.status = .triggered

private theorem lifeCycle_single {m : Moment} (h : m.Orderly) : LifeCycle symbol [m] := by
  refine ⟨by simp, ?_, ?_, ?_, ?_, .singleton m⟩
  · simpa using fun l hl => h.state.bounds hl
  · simpa using fun htrails => ⟨h.state.peak, h.state.trailing htrails⟩
  · have honce := h.once
    simp only [List.flatMap_cons, List.flatMap_nil, List.append_nil]
    omega
  · simpa using h.fired

private theorem LifeCycle.cons {m n : Moment} {rest : List Moment} (h : LifeCycle symbol (n :: rest))
    (hm : m.Orderly) (hadvances : m.state.Advances n.state)
    (honce : m.triggers.length + ((n :: rest).flatMap (·.triggers)).length ≤ 1)
    (hundisturbed : n.call.Spares symbol → n.call.bar? symbol = none → n.state = m.state) :
    LifeCycle symbol (m :: n :: rest) := by
  refine ⟨List.pairwise_cons.mpr ⟨fun k hk => ?_, h.advances⟩,
    List.forall_mem_cons.mpr ⟨fun l hl => hm.state.bounds hl, h.bounded⟩,
    List.forall_mem_cons.mpr ⟨fun htrails => ⟨hm.state.peak, hm.state.trailing htrails⟩, h.trailing⟩,
    ?_, List.forall_mem_cons.mpr ⟨hm.fired, h.fired⟩, .cons_cons hundisturbed h.undisturbed⟩
  · rcases List.mem_cons.mp hk with rfl | hk
    · exact hadvances
    · exact hadvances.trans ((List.pairwise_cons.mp h.advances).1 k hk)
  · rw [List.flatMap_cons, List.length_append]
    exact honce

private theorem Moment.Orderly.dropped {m : Moment} (hm : m.Orderly) (hdrops : call.drops symbol = true) :
    LifeCycle symbol [m, ⟨call, [], { m.state with status := .closed }⟩] := by
  have hclosed : Moment.Orderly ⟨call, [], { m.state with status := .closed }⟩ :=
    ⟨hm.state.withStatus _, by simp [StopState.shots], fun hne => absurd rfl hne⟩
  have hadvances : m.state.Advances { m.state with status := .closed } :=
    ⟨rfl, rfl, le_rfl, StopStatus.rank_le_closed _, fun l hl => ⟨l, hl, le_rfl, fun _ => rfl⟩⟩
  refine (lifeCycle_single hclosed).cons hm hadvances ?_ fun hspares => ?_
  · have honce := hm.once
    simp only [List.flatMap_cons, List.flatMap_nil, List.append_nil, List.length_nil]
    omega
  · cases call with
    | enter other entry history => cases hdrops
    | evaluate bars histories => cases hdrops
    | release other => exact absurd (of_decide_eq_true hdrops) hspares
    | close other => exact absurd (of_decide_eq_true hdrops) hspares

/-- The next moment of a stop that is spared. -/
private theorem Moment.Orderly.next {m : Moment} {report : List StopTrigger} (hm : m.Orderly)
    (h : Tested call symbol book m.state report after) :
    ∃ n : Moment, n.call = call ∧ n.triggers = report.filter (·.symbol = symbol) ∧
      after.states.find? symbol = some n.state ∧ n.Orderly ∧ m.state.Advances n.state ∧
      n.triggers.length + n.state.shots ≤ m.state.shots ∧
      (n.call.bar? symbol = none → n.state = m.state) := by
  obtain ⟨found, t, htest, ht, hreport⟩ := h.tested
  obtain ⟨hsurvives, hsame⟩ := survives_of_testOf hm.state htest
  have hlength : (report.filter (·.symbol = symbol)).length + t.shots ≤ m.state.shots := by
    have hshots := hsurvives.shots
    rw [hreport]
    cases found <;> exact hshots
  have hle : m.state.shots ≤ 1 := le_trans (Nat.le_add_left _ _) hm.once
  refine ⟨⟨call, _, t⟩, rfl, rfl, ht, ⟨hsurvives.orderly, hlength.trans hle, fun hne => ?_⟩,
    hsurvives.advances, hlength, hsame⟩
  refine hsurvives.fired ?_
  cases found with
  | none => exact absurd hreport hne
  | some breach => rfl

/-- From a moment at which a stop is in order, its life goes on to the call that ends it. -/
private theorem Moment.Orderly.lifeCycle {m : Moment} (hm : m.Orderly)
    (hn : book.states.symbols.Nodup) (hs : book.states.find? symbol = some m.state)
    (hrun : (calls.mapM apply).commit book = .ok (reports, after)) :
    LifeCycle symbol (m :: life symbol book m.state calls) ∧
      (life symbol book m.state calls).map (·.call) = lasting symbol calls ∧
      ((life symbol book m.state calls).flatMap (·.triggers)).length ≤ m.state.shots := by
  -- over the calls, the next moment being that of the first call
  induction calls generalizing book m reports with
  | nil => exact ⟨lifeCycle_single hm, rfl, Nat.zero_le _⟩
  | cons call calls ih =>
    obtain ⟨report, rest, next, rfl, hcall, hrest⟩ := Transition.commit_mapM_cons hrun
    unfold life lasting
    cases hdrops : call.drops symbol with
    | true =>
      rw [Call.dropped_eq hs hdrops]
      exact ⟨hm.dropped hdrops, rfl, Nat.zero_le _⟩
    | false =>
      cases henters : call.enters symbol with
      | true => exact ⟨lifeCycle_single hm, rfl, Nat.zero_le _⟩
      | false =>
        have htested := tested_of_apply (spares_of_not hdrops henters) hn hs hcall
        obtain ⟨n, hncall, htriggers, ht, hnext, hadvances, hshots, hsame⟩ := hm.next htested
        obtain ⟨hcycle, hcalls, htotal⟩ := ih hnext htested.distinct ht hrest
        have hhead : (⟨call, report.filter (·.symbol = symbol), n.state⟩ : Moment) = n := by
          rw [← hncall, ← htriggers]
        simp only [Bool.false_eq_true, if_false, hcall, ht, hhead]
        have hall : n.triggers.length + ((life symbol next n.state calls).flatMap (·.triggers)).length ≤
            m.state.shots := by omega
        refine ⟨hcycle.cons hm hadvances ?_ fun _ hnone => hsame hnone, ?_, ?_⟩
        · have honce := hm.once
          rw [List.flatMap_cons, List.length_append]
          omega
        · rw [List.map_cons, hncall, hcalls]
        · rw [List.flatMap_cons, List.length_append]
          exact hall

/-- The life of every stop. Whatever calls are made for whatever symbols, a stop that one of them
enters is active with its entry price. Until a call drops it or enters another in its place it stays
in the book, its status only moves forward, it fires at most once, its best price and its threshold
never fall, the threshold lies between zero and the larger of entry price and best price, and stays as
it is unless the stop trails; and a call that spares the stop and has no bar of its symbol leaves it as
it is. -/
theorem stop_life_cycle (hn : book.states.symbols.Nodup)
    (hrules : ∀ symbol rule, book.rules.find? symbol = some rule → rule.Accepted)
    (hrun : (calls.mapM apply).commit book = .ok (reports, after)) :
    ∀ pre symbol entry history post, calls = pre ++ .enter symbol entry history :: post →
      0 ≤ entry → symbol ∈ book.rules.symbols →
      ∃ opened first early, ((pre ++ [.enter symbol entry history]).mapM apply).commit book =
          .ok (early, opened) ∧
        opened.states.find? symbol = some first ∧ first.status = .active ∧ first.entry = entry ∧
        LifeCycle symbol
          (⟨.enter symbol entry history, [], first⟩ :: life symbol opened first post) ∧
        (life symbol opened first post).map (·.call) = lasting symbol post := by
  intro pre symbol entry history post hcalls hentry hrule
  subst hcalls
  rw [List.append_cons] at hrun
  obtain ⟨early, late, opened, rfl, hearly, hlate⟩ := Transition.commit_mapM_append hrun
  obtain ⟨before, own, book', rfl, hpre, hown⟩ := Transition.commit_mapM_append hearly
  obtain ⟨hrules', hn'⟩ := run_keeps hn hpre
  obtain ⟨report, rest, next, rfl, henter, hnil⟩ := Transition.commit_mapM_cons hown
  cases hnil
  obtain ⟨rule, hfind⟩ := Register.exists_find?_iff.mpr hrule
  obtain ⟨rfl, range, rfl⟩ := entered_of_apply (hrules' ▸ hfind) henter
  have hfirst : Moment.Orderly ⟨.enter symbol entry history, [], armed range (fresh rule entry)⟩ :=
    ⟨orderly_entered _ (hrules symbol rule hfind) hentry, by simp [StopState.shots, armed, fresh],
      fun hne => absurd rfl hne⟩
  have hfound := Register.find?_put_same book'.states symbol (armed range (fresh rule entry))
  obtain ⟨hcycle, hlasting, _⟩ := hfirst.lifeCycle (Register.nodup_put hn') hfound hlate
  exact ⟨_, _, _, hearly, hfound, rfl, rfl, hcycle, hlasting⟩

/-! ## A stop that trails -/

/-- A purchase at ten dollars, a rise to twelve, a fall to ten, and the exit. -/
def risingCalls : List Call :=
  [.enter "A" 1000 [], .evaluate [("A", { close := 1200 })] [],
    .evaluate [("A", { close := 1000 })] [], .close "A"]

def trailingBook : StopBook := { rules := [("A", ⟨.trailing 1, 14⟩)] }

private theorem trailing_accepted : StopRule.Accepted ⟨.trailing 1, 14⟩ := by
  have husable : StopRule.isUsable 1 = true := by decide +kernel
  refine ⟨.text "trailing", none, none, some 1, .int 14, ?_⟩
  simp [StopRule.ofFields, StopRule.kindName, StopRule.kindOf, Value.integer?, husable]

/-- The stop follows the rise, fires at the fall and is closed. -/
theorem stop_life_cycle_rising :
    ∃ opened first, opened.states.find? "A" = some first ∧ first.threshold = some 900 ∧
      LifeCycle "A" (⟨.enter "A" 1000 [], [], first⟩ :: life "A" opened first risingCalls.tail) ∧
      (life "A" opened first risingCalls.tail).map (fun m => (m.state.status, m.state.threshold)) =
        [(.active, some 1100), (.triggered, some 1100), (.closed, some 1100)] := by
  have hcheck : (((risingCalls.mapM apply).commit trailingBook) >>= fun q =>
      ((risingCalls.take 1).mapM apply).commit trailingBook >>= fun p =>
        .ok (q, p)).toOption.any (fun r => (r.2.2.states.find? "A").any fun first =>
          first.threshold = some 900 && (life "A" r.2.2 first risingCalls.tail).map
            (fun m => (m.state.status, m.state.threshold)) =
              [(.active, some 1100), (.triggered, some 1100), (.closed, some 1100)]) = true := by
    simp only [risingCalls, List.tail_cons, life, drops, enters, dropped, apply, evaluate, stopOrder_eq_insertionSort]
    decide +kernel
  obtain ⟨⟨⟨reports, after⟩, early, opened⟩, hruns, hlife⟩ := exists_of_check hcheck
  obtain ⟨q, hrun, hruns⟩ := bind_eq_ok.mp hruns
  obtain ⟨p, hopen, hruns⟩ := bind_eq_ok.mp hruns
  cases hruns
  have hrules : ∀ symbol rule, trailingBook.rules.find? symbol = some rule → rule.Accepted := by
    intro symbol rule hfind
    have hm := Register.mem_of_find? hfind
    obtain ⟨_, rfl⟩ := Prod.ext_iff.mp (List.mem_singleton.mp hm)
    exact trailing_accepted
  obtain ⟨opened', first, early', hopen', hfirst, _, _, hcycle, _⟩ :=
    stop_life_cycle (by simp [trailingBook]) hrules hrun [] "A" 1000 [] risingCalls.tail rfl (by decide)
      (by simp [trailingBook])
  cases hopen.symm.trans hopen'
  simp only [hfirst, Option.any_some, Bool.and_eq_true, decide_eq_true_eq] at hlife
  exact ⟨opened, first, hfirst, hlife.1, hcycle, hlife.2⟩

end StopBook
end PortfolioLab
