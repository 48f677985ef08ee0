import PortfolioLab.Proofs.StopPass
import PortfolioLab.Proofs.Twins

/-!
# Passes that fail

The only step of a pass over the book that can fail is the arming of a stop that waits for its threshold.
A pass that fails there has tested the stops before that one and keeps what the tests made of them, so a
stop that was breached before the failure is triggered although the pass reports no trigger.
-/

namespace PortfolioLab

namespace StopState

variable {s t : StopState} {e : Failure}

private theorem failed_place {reference : Cents} {result : Except Failure Cents}
    (h : Transition.outcome (do
      let distance ← Transition.require result
      setOffset distance
      setBelow reference distance) s = (.error e, t)) :
    t = s ∨ ∃ distance, t = { s with offset := some distance } := by
  rcases Transition.outcome_require_bind_eq_error.mp h with ⟨_, hsame⟩ | ⟨distance, _, h⟩
  · exact .inl hsame
  rw [setOffset, Transition.outcome_modify_bind, setBelow] at h
  rcases Transition.outcome_require_bind_eq_error.mp h with ⟨_, hplaced⟩ | ⟨_, _, hset⟩
  · exact .inr ⟨distance, hplaced⟩
  · cases hset

/-- Arming that fails sets no threshold; it may have set the distance. -/
theorem failed_arm {range : Option Cents} (h : (arm range).outcome s = (.error e, t)) :
    t = s ∨ ∃ distance, t = { s with offset := some distance } := by
  rw [arm, Transition.outcome_get_bind] at h
  split at h
  · rcases Transition.outcome_require_bind_eq_error.mp h with ⟨_, hsame⟩ | ⟨distance, _, h⟩
    · exact .inl hsame
    rcases Transition.outcome_require_bind_eq_error.mp h with ⟨_, hsame⟩ | ⟨_, _, hset⟩
    · exact .inl hsame
    · cases hset
  · exact failed_place h
  · split at h
    · cases h
    · split at h
      · exact failed_place h
      · cases h
  · split at h
    · cases h
    · split at h
      · exact failed_place h
      · cases h

/-- A bar fails for a stop only where the stop waits and cannot be armed. -/
theorem failed_observe {policy : GapPolicy} {history : List Bar} {bar : Bar}
    (h : (observe policy history bar).outcome s = (.error e, t)) : s.threshold = none ∧
      (arm (Bar.averageTrueRange history s.rule.lookback)).outcome s = (.error e, t) := by
  rw [observe, Transition.outcome_get_bind] at h
  split at h
  · cases h
  · split at h
    · next hwaits =>
      rcases Transition.outcome_bind_eq_error.mp h with harm | ⟨_, _, _, hratchet⟩
      · exact ⟨Option.isNone_iff_eq_none.mp hwaits, harm⟩
      · cases hratchet
    · cases h

theorem status_followed (history : List Bar) (bar : Bar) (s : StopState) :
    (followed history bar s).status = s.status := by
  rw [followed, (same_ratchet bar _).status]
  split <;> rfl

end StopState

namespace StopBook

variable {book after : StopBook} {bars : Register Bar} {histories : Register (List Bar)}
  {symbol : String} {s t : StopState} {e : Failure}

/-- A test triggers an active stop exactly if the bar breaches it. -/
theorem status_of_test {policy : GapPolicy} {found : Option Breach} (hactive : s.status = .active)
    (h : test policy bars histories symbol s = .ok (found, t)) :
    t.status ≠ .active ↔ ∃ bar, bars.find? symbol = some bar ∧ (s.breach? policy bar).isSome := by
  unfold test at h
  cases hbar : bars.find? symbol with
  | none =>
    simp only [hbar] at h
    cases h
    simp [hactive]
  | some bar =>
    simp only [hbar, if_pos hactive] at h
    obtain ⟨_, ht⟩ := StopState.observe_eq h
    simp only [Option.some.injEq, exists_eq_left']
    change t = _ at ht
    subst ht
    split
    · next hbreach => simp [hbreach]
    · next hnone => simp [StopState.status_followed, hactive, hnone]

/-- The test of a stop fails where an active stop waits for its threshold and cannot be armed. It still
has no threshold then, but it may have got a distance. -/
structure ArmingFails (histories : Register (List Bar)) (bars : Register Bar) (symbol : String)
    (s : StopState) (e : Failure) (t : StopState) : Prop where
  quoted : symbol ∈ bars.symbols
  active : s.status = .active
  waits : s.threshold = none
  arm : (StopState.arm (Bar.averageTrueRange ((histories.find? symbol).getD []) s.rule.lookback)).outcome s =
    (.error e, t)
  kept : t = s ∨ ∃ distance, t = { s with offset := some distance }

theorem failed_visit (h : (visit bars histories symbol).outcome book = (.error e, after)) :
    ∃ s t, book.states.find? symbol = some s ∧ ArmingFails histories bars symbol s e t ∧
      after = { book with states := book.states.put symbol t } := by
  rw [visit, Transition.outcome_get_bind] at h
  split at h
  · next s bar hs hbar =>
    split at h
    · next hactive =>
      rcases Transition.outcome_bind_eq_error.mp h with hstate | ⟨_, _, _, hreturn⟩
      · obtain ⟨hobserve, hafter⟩ := Prod.mk.inj hstate
        obtain ⟨hwaits, harm⟩ := StopState.failed_observe (Prod.ext hobserve rfl)
        have hquoted := Register.exists_find?_iff.mp ⟨bar, hbar⟩
        exact ⟨s, _, hs, ⟨hquoted, hactive, hwaits, harm, StopState.failed_arm harm⟩, hafter.symm⟩
      · cases hreturn
    · cases h
  · cases h

/-- What a pass leaves that fails at the stop of `symbol`, after the tests of the stops in `early`: of each
of these stops what its own test makes of it, of the failing one what the arming makes of it, and of all
others what they were. -/
structure Halted (bars : Register Bar) (histories : Register (List Bar)) (book : StopBook)
    (early : List String) (symbol : String) (e : Failure) (after : StopBook) : Prop where
  rest : after = { book with states := after.states }
  symbols : after.states.symbols = book.states.symbols
  tested : ∀ other ∈ early, ∀ s, book.states.find? other = some s → ∃ found t,
    test book.policy bars histories other s = .ok (found, t) ∧ after.states.find? other = some t
  failed : ∃ s t, book.states.find? symbol = some s ∧ ArmingFails histories bars symbol s e t ∧
    after.states.find? symbol = some t
  untested : ∀ other ∉ early, other ≠ symbol →
    after.states.find? other = book.states.find? other

theorem exists_halted (hn : book.states.symbols.Nodup)
    (h : (evaluate bars histories).outcome book = (.error e, after)) :
    ∃ early symbol late, stopOrder book.states.symbols book.priority = early ++ symbol :: late ∧
      Halted bars histories book early symbol e after := by
  rw [evaluate, Transition.outcome_get_bind] at h
  rcases Transition.outcome_bind_eq_error.mp h with hpass | ⟨_, _, _, hreturn⟩
  swap
  · cases hreturn
  obtain ⟨early, symbol, late, found, middle, horder, hearly, hvisit⟩ :=
    Transition.exists_of_outcome_mapM hpass
  have hdistinct := (stopOrder_perm book.states.symbols book.priority).nodup_iff.mpr hn
  rw [horder] at hdistinct
  have hnew : symbol ∉ early := fun hm =>
    List.disjoint_of_nodup_append hdistinct hm List.mem_cons_self
  have hpassed := passed_of_mapM hdistinct.of_append_left hearly
  obtain ⟨s, t, hs, hfails, rfl⟩ := failed_visit hvisit
  have hmem : symbol ∈ middle.states.symbols := Register.exists_find?_iff.mp ⟨s, hs⟩
  have hrest := hpassed.rest
  refine ⟨early, symbol, late, horder, ?_, ?_, ?_, ?_, ?_⟩
  · rw [hrest]
  · exact (Register.symbols_put_of_mem hmem).trans hpassed.symbols
  · intro other hother u hu
    obtain ⟨trigger, v, htest, hv, _⟩ := hpassed.tested other hother u hu
    refine ⟨trigger, v, htest, ?_⟩
    have hne : other ≠ symbol := fun he => hnew (he ▸ hother)
    exact (Register.find?_put_other _ _ hne).trans hv
  · exact ⟨s, t, (hpassed.untested symbol hnew).1.symm.trans hs, hfails, Register.find?_put_same _ _ _⟩
  · intro other hother hne
    exact (Register.find?_put_other _ _ hne).trans (hpassed.untested other hother).1

variable {early : List String}

theorem Halted.eq_book_iff (h : Halted bars histories book early symbol e after)
    (hn : book.states.symbols.Nodup) : after = book ↔
      (∀ other ∈ early, ∀ s, book.states.find? other = some s →
        ∃ found, test book.policy bars histories other s = .ok (found, s)) ∧
      after.states.find? symbol = book.states.find? symbol := by
  constructor
  · rintro rfl
    refine ⟨fun other hother s hs => ?_, rfl⟩
    obtain ⟨found, t, htest, ht⟩ := h.tested other hother s hs
    cases hs.symm.trans ht
    exact ⟨found, htest⟩
  · rintro ⟨hearly, hsame⟩
    have hstates : after.states = book.states := by
      refine Register.eq_of_find? hn h.symbols fun other => ?_
      by_cases hother : other ∈ early
      · cases hs : book.states.find? other with
        | none => rw [Register.find?_eq_none_iff, h.symbols, ← Register.find?_eq_none_iff, hs]
        | some s =>
          obtain ⟨found, htest⟩ := hearly other hother s hs
          obtain ⟨found', t, htest', ht⟩ := h.tested other hother s hs
          rw [htest] at htest'
          cases htest'
          exact ht
      · by_cases hne : other = symbol
        · rw [hne, hsame]
        · exact h.untested other hother hne
    rw [h.rest, hstates]

theorem Halted.triggered_iff (h : Halted bars histories book early symbol e after) {other : String}
    (hs : book.states.find? other = some s) (hactive : s.status = .active) :
    (∃ t, after.states.find? other = some t ∧ t.status ≠ .active) ↔
      other ∈ early ∧ ∃ bar, bars.find? other = some bar ∧ (s.breach? book.policy bar).isSome := by
  by_cases hother : other ∈ early
  · obtain ⟨found, t, htest, ht⟩ := h.tested other hother s hs
    rw [and_iff_right hother, ← status_of_test hactive htest, ht]
    simp
  · have hstays : ∃ t, after.states.find? other = some t ∧ t.status = .active := by
      by_cases hne : other = symbol
      · obtain ⟨s', t, hs', hfails, ht⟩ := h.failed
        refine ⟨t, hne ▸ ht, ?_⟩
        rcases hfails.kept with rfl | ⟨distance, rfl⟩
        · exact hfails.active
        · exact hfails.active
      · exact ⟨s, (h.untested other hother hne).trans hs, hactive⟩
    obtain ⟨t, ht, hstatus⟩ := hstays
    rw [ht]
    simp [hother, hstatus]

/-- A pass over a book of distinct symbols that fails does so at a stop that waits and cannot be armed,
and it keeps what it has done to the stops before that one. So the book is as before exactly if their
tests leave these stops as they are and the failing stop has kept its distance; and a stop that was active
no longer is exactly if it was tested before the failure against a bar that breaches it. -/
theorem failed_pass_loses_triggers (hn : book.states.symbols.Nodup)
    (h : (evaluate bars histories).outcome book = (.error e, after)) :
    ∃ early symbol late, stopOrder book.states.symbols book.priority = early ++ symbol :: late ∧
      Halted bars histories book early symbol e after ∧
      (after = book ↔ (∀ other ∈ early, ∀ s, book.states.find? other = some s →
          ∃ found, test book.policy bars histories other s = .ok (found, s)) ∧
        after.states.find? symbol = book.states.find? symbol) ∧
      ∀ other s, book.states.find? other = some s → s.status = .active →
        ((∃ t, after.states.find? other = some t ∧ t.status ≠ .active) ↔
          other ∈ early ∧ ∃ bar, bars.find? other = some bar ∧ (s.breach? book.policy bar).isSome) := by
  obtain ⟨early, symbol, late, horder, hhalted⟩ := exists_halted hn h
  exact ⟨early, symbol, late, horder, hhalted, hhalted.eq_book_iff hn,
    fun other s hs hactive => hhalted.triggered_iff hs hactive⟩

/-- Rules of a stop at 95 percent of the entry price, and of one whose distance would leave the range. -/
def mixedRules : Register StopRule := [("A", ⟨.fixed 0.05, 14⟩), ("B", ⟨.atr 1e17, 14⟩)]

def mixedBook : StopBook where
  rules := mixedRules
  states := [("A", { rule := ⟨.fixed 0.05, 14⟩, entry := 10000, peak := 10000, threshold := some 9500 }),
    ("B", { rule := ⟨.atr 1e17, 14⟩, entry := 10000, peak := 10000 })]

/-- A bar below the threshold of the first stop, and the first range of the second. -/
def mixedBars : Register Bar :=
  [("A", { close := 9400 }), ("B", { close := 10000, high := some 10100, low := some 9900 })]

def mixedHistories : Register (List Bar) := mixedBars.map fun entry => (entry.1, [entry.2])

theorem commit_enter_mixedBook : (["A", "B"].mapM fun symbol => enter symbol 10000 []).commit
    { rules := mixedRules } = .ok ([true, true], mixedBook) := by
  have hdistance : Money.scale 10000 (.real 0.05) = .ok 500 := by
    have hany : (Money.scale 10000 (.real 0.05)).toOption.any (· == 500) = true := by decide +kernel
    obtain ⟨n, hn, hcheck⟩ := exists_of_check hany
    rw [hn, eq_of_beq hcheck]
  have harm : (StopState.arm none).commit (.fresh ⟨.fixed 0.05, 14⟩ 10000) =
      .ok ((), { rule := ⟨.fixed 0.05, 14⟩, entry := 10000, peak := 10000, threshold := some 9500 }) := by
    simp only [StopState.arm, StopState.fresh, Transition.commit_bind, Transition.commit_get, ok_bind,
      Transition.commit_require, hdistance]
    rfl
  have hfirst : (enter "A" 10000 []).commit { rules := mixedRules } =
      .ok (true, { mixedBook with states := mixedBook.states.take 1 }) := by
    rw [commit_enter]
    change (StopState.arm none).commit (.fresh ⟨.fixed 0.05, 14⟩ 10000) >>= _ = _
    rw [harm]
    rfl
  rw [List.mapM_cons, Transition.commit_bind, hfirst]
  rfl

theorem mixedBook_fails : ∃ e after,
    (evaluate mixedBars mixedHistories).outcome mixedBook = (.error e, after) ∧
      (after.states.find? "A").map (·.status) = some .triggered := by
  have hchecked : ((evaluate mixedBars mixedHistories).outcome mixedBook).1.toOption.isNone = true ∧
      (((evaluate mixedBars mixedHistories).outcome mixedBook).2.states.find? "A").map (·.status) =
        some .triggered := by
    unfold evaluate
    simp only [stopOrder_eq_insertionSort]
    decide +kernel
  obtain ⟨hfails, hafter⟩ := hchecked
  rcases hout : (evaluate mixedBars mixedHistories).outcome mixedBook with ⟨e | triggers, after⟩
  · rw [hout] at hafter
    exact ⟨e, after, rfl, hafter⟩
  · rw [hout] at hfails
    cases hfails

/-- The first stop was tested before the failure, against a bar that breaches it. -/
theorem failed_pass_loses_triggers_mixed : ∃ early symbol late,
    stopOrder mixedBook.states.symbols mixedBook.priority = early ++ symbol :: late ∧ "A" ∈ early := by
  obtain ⟨e, after, hfails, htriggered⟩ := mixedBook_fails
  have hdistinct : mixedBook.states.symbols.Nodup := by decide
  obtain ⟨early, symbol, late, horder, _, _, hlost⟩ := failed_pass_loses_triggers hdistinct hfails
  obtain ⟨t, ht, hstatus⟩ := Option.map_eq_some_iff.mp htriggered
  have hnot : t.status ≠ .active := by
    rw [hstatus]
    decide
  exact ⟨early, symbol, late, horder, ((hlost "A" _ rfl rfl).mp ⟨t, ht, hnot⟩).1⟩

/-- Two entered stops, the first of them active; the pass fails at the second, and the first is triggered. -/
theorem failed_pass_loses_first_stop :
    (["A", "B"].mapM fun symbol => enter symbol 10000 []).commit { rules := mixedRules } =
        .ok ([true, true], mixedBook) ∧
      (mixedBook.states.find? "A").map (·.status) = some .active ∧
      ∃ e after, (evaluate mixedBars mixedHistories).outcome mixedBook = (.error e, after) ∧
        (after.states.find? "A").map (·.status) = some .triggered :=
  ⟨commit_enter_mixedBook, rfl, mixedBook_fails⟩

end StopBook

end PortfolioLab
