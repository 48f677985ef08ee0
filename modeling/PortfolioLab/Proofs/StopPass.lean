import PortfolioLab.Proofs.Rounding
import PortfolioLab.Proofs.Stops

/-!
# What a pass makes of each stop

The test of one stop reads its own state, bar and history, and writes its own state. So after a pass
over the book every stop is what its own test makes of it, and the pass reports a trigger for exactly
the stops whose test finds a breach.
-/

namespace PortfolioLab

namespace StopRule

/-- The distance of the threshold, given the positive range if there is one. -/
def distance (rule : StopRule) (range : Option Cents) : Option Cents :=
  match rule.kind with
  | .fixed _ => none
  | .trailing amount => (Money.toCents (.real amount)).toOption
  | .atr multiplier => range.map (Money.times · multiplier)
  | .trailingAtr multiplier => range.map (Money.times · multiplier)

def level (rule : StopRule) (entry peak : Cents) (distance : Option Cents) : Option Cents :=
  match rule.kind with
  | .fixed fraction => some (entry - Money.times entry fraction)
  | .atr _ => distance.map fun d => max (entry - d) 0
  | .trailing _ => distance.map fun d => max (peak - d) 0
  | .trailingAtr _ => distance.map fun d => max (peak - d) 0

variable {rule : StopRule} {entry peak peak' : Cents} {distance : Option Cents}

/-- The threshold of a rule that does not trail does not depend on the best price. -/
theorem level_congr (h : rule.kind.trails = true → peak = peak') :
    rule.level entry peak distance = rule.level entry peak' distance := by
  unfold level
  cases hkind : rule.kind with
  | fixed fraction => rfl
  | atr multiplier => rfl
  | trailing amount => rw [h (by rw [hkind]; rfl)]
  | trailingAtr multiplier => rw [h (by rw [hkind]; rfl)]

theorem level_of_trails (h : rule.kind.trails = true) :
    rule.level entry peak distance = distance.map fun d => max (peak - d) 0 := by
  unfold level
  cases hkind : rule.kind with
  | fixed fraction => simp [hkind, StopKind.trails] at h
  | atr multiplier => simp [hkind, StopKind.trails] at h
  | trailing amount => rfl
  | trailingAtr multiplier => rfl

/-- A rule that does not use the range does not read it. -/
theorem distance_congr {range range' : Option Cents} (h : rule.kind.usesRange = true → range = range') :
    rule.distance range = rule.distance range' := by
  unfold distance
  cases hkind : rule.kind with
  | fixed fraction => rfl
  | trailing amount => rfl
  | atr multiplier => rw [h (by rw [hkind]; rfl)]
  | trailingAtr multiplier => rw [h (by rw [hkind]; rfl)]

/-- Without a threshold, a rule waits for a later range. -/
theorem distance_or_of_waiting {first later : Option Cents}
    (h : rule.level entry peak (rule.distance first) = none) :
    rule.distance (first.or later) = rule.distance later := by
  unfold level distance at h
  unfold distance
  cases hkind : rule.kind with
  | fixed fraction => rfl
  | trailing amount => rfl
  | atr multiplier => cases first <;> simp_all
  | trailingAtr multiplier => cases first <;> simp_all

/-- With a threshold, a rule does not look at later ranges. -/
theorem distance_or_of_set {first later : Option Cents}
    (h : rule.level entry peak (rule.distance first) ≠ none) :
    rule.distance (first.or later) = rule.distance first := by
  unfold level distance at h
  unfold distance
  cases hkind : rule.kind with
  | fixed fraction => rfl
  | trailing amount => rfl
  | atr multiplier => cases first <;> simp_all
  | trailingAtr multiplier => cases first <;> simp_all

end StopRule

namespace StopState

/-- A stop with the threshold that its rule sets, or as it was if it has to wait for a positive range. -/
def armed (range : Option Cents) (s : StopState) : StopState :=
  let distance := s.rule.distance (range.filter (0 < ·))
  { s with
    offset := distance.or s.offset
    threshold := (s.rule.level s.entry s.peak distance).or s.threshold }

private theorem place_eq {reference : Cents} {result : Except Failure Cents} {s : StopState}
    {p : Unit × StopState}
    (h : Transition.commit (do
      let distance ← Transition.require result
      setOffset distance
      setBelow reference distance) s = .ok p) :
    ∃ distance, result = .ok distance ∧
      p.2 = { s with offset := some distance, threshold := some (max (reference - distance) 0) } := by
  rw [Transition.commit_bind, Transition.commit_require, bind_assoc] at h
  obtain ⟨distance, hdistance, h⟩ := bind_eq_ok.mp h
  rw [ok_bind, setOffset, Transition.commit_bind, Transition.commit_modify, ok_bind, setBelow,
    Transition.commit_bind, Transition.commit_require, bind_assoc] at h
  obtain ⟨level, hlevel, h⟩ := bind_eq_ok.mp h
  obtain ⟨rfl, _⟩ := Cents.eq_of_check hlevel
  cases h
  exact ⟨distance, hdistance, rfl⟩

/-- Arming from a range does nothing without a positive one. -/
private theorem placeRange_eq {reference : Cents} {multiplier : Float} {range : Option Cents}
    {s : StopState} {p : Unit × StopState}
    (h : Transition.commit (match range with
      | none => pure ()
      | some r => if 0 < r then do
          let distance ← Transition.require (Money.scale r (.real multiplier))
          setOffset distance
          setBelow reference distance
        else pure ()) s = .ok p) :
    p.2 = { s with
      offset := ((range.filter (0 < ·)).map (Money.times · multiplier)).or s.offset
      threshold := (((range.filter (0 < ·)).map (Money.times · multiplier)).map
        fun d => max (reference - d) 0).or s.threshold } := by
  cases range with
  | none =>
    cases h
    rfl
  | some r =>
    by_cases hr : 0 < r
    · simp only [hr, if_true] at h
      obtain ⟨distance, hdistance, hp⟩ := place_eq h
      simpa [Option.filter_some, hr, Money.scale_eq_times hdistance] using hp
    · simp only [hr, if_false] at h
      cases h
      simp [Option.filter_some, hr]

theorem arm_eq {range : Option Cents} {s : StopState} {p : Unit × StopState}
    (h : (arm range).commit s = .ok p) : p.2 = armed range s := by
  rw [arm, Transition.commit_bind, Transition.commit_get, ok_bind] at h
  dsimp only at h
  cases hkind : s.rule.kind with
  | fixed fraction =>
    simp only [hkind] at h
    rw [Transition.commit_bind, Transition.commit_require, bind_assoc] at h
    obtain ⟨distance, hdistance, h⟩ := bind_eq_ok.mp h
    rw [ok_bind, Transition.commit_bind, Transition.commit_require, bind_assoc] at h
    obtain ⟨level, hlevel, h⟩ := bind_eq_ok.mp h
    obtain ⟨rfl, _⟩ := Cents.eq_of_check hlevel
    cases h
    simp [armed, StopRule.level, StopRule.distance, hkind, Money.scale_eq_times hdistance]
  | trailing amount =>
    simp only [hkind] at h
    obtain ⟨distance, hdistance, hp⟩ := place_eq h
    simpa [armed, StopRule.level, StopRule.distance, hkind, hdistance, Except.toOption] using hp
  | atr multiplier =>
    simp only [hkind] at h
    simpa [armed, StopRule.level, StopRule.distance, hkind] using placeRange_eq h
  | trailingAtr multiplier =>
    simp only [hkind] at h
    simpa [armed, StopRule.level, StopRule.distance, hkind] using placeRange_eq h

/-- The distance that a stop is armed with is in range. -/
theorem inRange_of_arm {range : Option Cents} {s : StopState} {p : Unit × StopState}
    (h : (arm range).commit s = .ok p) : ∀ d ∈ p.2.offset, d ∈ s.offset ∨ Cents.InRange d := by
  have hplaced : ∀ {reference : Cents} {result : Except Failure Cents},
      (∀ d, result = .ok d → Cents.InRange d) → Transition.commit (do
        let distance ← Transition.require result
        setOffset distance
        setBelow reference distance) s = .ok p → ∀ d ∈ p.2.offset, d ∈ s.offset ∨ Cents.InRange d := by
    intro reference result hresult h d hd
    obtain ⟨distance, hdistance, hp⟩ := place_eq h
    rw [hp, Option.mem_some_iff] at hd
    exact .inr (hd ▸ hresult distance hdistance)
  rw [arm, Transition.commit_bind, Transition.commit_get, ok_bind] at h
  dsimp only at h
  split at h
  · rw [Transition.commit_bind, Transition.commit_require, bind_assoc] at h
    obtain ⟨distance, _, h⟩ := bind_eq_ok.mp h
    rw [ok_bind, Transition.commit_bind, Transition.commit_require, bind_assoc] at h
    obtain ⟨level, _, h⟩ := bind_eq_ok.mp h
    cases h
    exact fun d hd => .inl hd
  · exact hplaced (fun d hd => Money.inRange_of_toCents hd) h
  · split at h
    · cases h
      exact fun d hd => .inl hd
    · split at h
      · exact hplaced (fun d hd => Money.inRange_of_scale hd) h
      · cases h
        exact fun d hd => .inl hd
  · split at h
    · cases h
      exact fun d hd => .inl hd
    · split at h
      · exact hplaced (fun d hd => Money.inRange_of_scale hd) h
      · cases h
        exact fun d hd => .inl hd

def followed (history : List Bar) (bar : Bar) (s : StopState) : StopState :=
  ratchet bar (if s.threshold.isNone then armed (Bar.averageTrueRange history s.rule.lookback) s else s)

/-- What a bar makes of a stop: it is triggered, or it follows the bar, armed first if it waits. -/
theorem observe_cases {policy : GapPolicy} {history : List Bar} {bar : Bar} {s : StopState}
    {p : Option Breach × StopState} (h : (observe policy history bar).commit s = .ok p) :
    (∃ breach, s.breach? policy bar = some breach ∧ p = (some breach, { s with status := .triggered })) ∨
      s.breach? policy bar = none ∧ ∃ t, p = (none, ratchet bar t) ∧
        (s.threshold ≠ none ∧ t = s ∨ s.threshold = none ∧
          (arm (Bar.averageTrueRange history s.rule.lookback)).commit s = .ok ((), t)) := by
  rw [observe, Transition.commit_bind, Transition.commit_get, ok_bind] at h
  dsimp only at h
  cases hbreach : s.breach? policy bar with
  | some breach =>
    simp only [hbreach] at h
    cases h
    exact .inl ⟨breach, rfl, rfl⟩
  | none =>
    simp only [hbreach] at h
    split at h
    · next hnone =>
      rw [Transition.commit_bind] at h
      obtain ⟨q, hq, h⟩ := bind_eq_ok.mp h
      cases h
      exact .inr ⟨rfl, q.2, rfl, .inr ⟨Option.isNone_iff_eq_none.mp hnone, hq⟩⟩
    · next hset =>
      cases h
      exact .inr ⟨rfl, s, rfl, .inl ⟨fun hnone => hset (Option.isNone_iff_eq_none.mpr hnone), rfl⟩⟩

theorem observe_eq {policy : GapPolicy} {history : List Bar} {bar : Bar} {s : StopState}
    {p : Option Breach × StopState} (h : (observe policy history bar).commit s = .ok p) :
    p.1 = s.breach? policy bar ∧
      p.2 = if (s.breach? policy bar).isSome then { s with status := .triggered }
        else followed history bar s := by
  rcases observe_cases h with ⟨breach, hbreach, rfl⟩ | ⟨hnone, t, rfl, harmed⟩
  · simp [hbreach]
  · refine ⟨hnone.symm, ?_⟩
    rcases harmed with ⟨hset, rfl⟩ | ⟨hwaits, harm⟩
    · simp [hnone, followed, hset]
    · simp [hnone, followed, hwaits, ← arm_eq harm]

end StopState

namespace StopBook

variable {book after : StopBook} {bars : Register Bar} {histories : Register (List Bar)}
  {symbol : String}

/-- The test of one stop: of an active one against the bar of its symbol, if there is one. -/
def test (policy : GapPolicy) (bars : Register Bar) (histories : Register (List Bar))
    (symbol : String) (s : StopState) : Except Failure (Option Breach × StopState) :=
  match bars.find? symbol with
  | some bar =>
    if s.status = .active then
      (StopState.observe policy ((histories.find? symbol).getD []) bar).commit s
    else .ok (none, s)
  | none => .ok (none, s)

def triggerOf (symbol : String) (s : StopState) (found : Option Breach) : Option StopTrigger :=
  found.map (⟨symbol, s.rule.kind.name, ·⟩)

theorem commit_visit (bars : Register Bar) (histories : Register (List Bar)) (symbol : String)
    (book : StopBook) :
    (visit bars histories symbol).commit book = match book.states.find? symbol with
      | none => .ok (none, book)
      | some s => (test book.policy bars histories symbol s) >>= fun p =>
          .ok (triggerOf symbol s p.1, { book with states := book.states.put symbol p.2 }) := by
  rw [visit, Transition.commit_bind, Transition.commit_get, ok_bind]
  dsimp only
  cases hs : book.states.find? symbol with
  | none => rfl
  | some s =>
    have hself : { book with states := book.states.put symbol s } = book := by
      rw [Register.put_eq_self hs]
    cases hb : bars.find? symbol with
    | none => simp [test, hb, triggerOf, hself]
    | some bar =>
      by_cases hactive : s.status = .active
      · simp only [test, hb, hactive, if_true]
        rw [Transition.commit_bind, commit_onState, bind_assoc]
        rfl
      · simp [test, hb, hactive, triggerOf, hself]

/-- What the tests of the stops in `done` make of a book: of each of these stops its own test, of all
others nothing. -/
structure Passed (bars : Register Bar) (histories : Register (List Bar)) (book : StopBook)
    (done : List String) (triggers : List StopTrigger) (after : StopBook) : Prop where
  rest : after = { book with states := after.states }
  symbols : after.states.symbols = book.states.symbols
  tested : ∀ symbol ∈ done, ∀ s, book.states.find? symbol = some s → ∃ found t,
    test book.policy bars histories symbol s = .ok (found, t) ∧
      after.states.find? symbol = some t ∧
      triggers.filter (·.symbol = symbol) = (triggerOf symbol s found).toList
  untested : ∀ symbol ∉ done, after.states.find? symbol = book.states.find? symbol ∧
    triggers.filter (·.symbol = symbol) = []

private theorem Passed.nil (book : StopBook) : Passed bars histories book [] [] book :=
  ⟨rfl, rfl, fun _ h => absurd h List.not_mem_nil, fun _ _ => ⟨rfl, rfl⟩⟩

/-- One test, and then those of other stops. -/
private theorem Passed.cons {next : StopBook} {first : Option StopTrigger} {done : List String}
    {triggers : List StopTrigger}
    (hvisit : (visit bars histories symbol).commit book = .ok (first, next))
    (h : Passed bars histories next done triggers after) (hnew : symbol ∉ done) :
    Passed bars histories book (symbol :: done) (first.toList ++ triggers) after := by
  obtain ⟨hkept, hnone⟩ := h.untested symbol hnew
  rw [commit_visit] at hvisit
  cases hs : book.states.find? symbol with
  | none =>
    simp only [hs] at hvisit
    cases hvisit
    refine ⟨h.rest, h.symbols, ?_, ?_⟩
    · intro other hother s hfind
      rcases List.mem_cons.mp hother with rfl | hother
      · rw [hs] at hfind
        cases hfind
      · exact h.tested other hother s hfind
    · intro other hother
      exact h.untested other fun hm => hother (List.mem_cons_of_mem _ hm)
  | some s =>
    simp only [hs] at hvisit
    obtain ⟨⟨found, t⟩, htest, hnext⟩ := bind_eq_ok.mp hvisit
    cases hnext
    have hmem : symbol ∈ book.states.symbols := Register.exists_find?_iff.mp ⟨s, hs⟩
    -- the trigger of the first test is of its symbol
    have hfirst : ∀ other, (triggerOf symbol s found).toList.filter (·.symbol = other) =
        if symbol = other then (triggerOf symbol s found).toList else [] := by
      intro other
      cases found with
      | none => simp [triggerOf]
      | some breach =>
        by_cases ho : symbol = other <;> simp [triggerOf, ho]
    refine ⟨h.rest, h.symbols.trans (Register.symbols_put_of_mem hmem), ?_, ?_⟩
    · intro other hother u hu
      rw [List.filter_append, hfirst]
      by_cases ho : symbol = other
      · subst ho
        rw [hs] at hu
        cases hu
        refine ⟨found, t, htest, hkept.trans (Register.find?_put_same _ _ _), ?_⟩
        rw [if_pos rfl, hnone, List.append_nil]
      · have hin : other ∈ done := (List.mem_cons.mp hother).resolve_left fun he => ho he.symm
        rw [if_neg ho, List.nil_append]
        refine h.tested other hin u ?_
        rw [← hu]
        exact Register.find?_put_other _ _ fun he => ho he.symm
    · intro other hother
      have ho : symbol ≠ other := fun he => hother (he ▸ List.mem_cons_self)
      obtain ⟨hfind, hrest⟩ := h.untested other fun hm => hother (List.mem_cons_of_mem _ hm)
      rw [List.filter_append, hfirst, if_neg ho, hrest]
      exact ⟨hfind.trans (Register.find?_put_other _ _ fun he => ho he.symm), rfl⟩

theorem passed_of_mapM {done : List String} {found : List (Option StopTrigger)}
    (hn : done.Nodup) (h : (done.mapM (visit bars histories)).commit book = .ok (found, after)) :
    Passed bars histories book done (found.filterMap id) after := by
  -- over the stops in their order, the book being what the tests so far have left
  induction done generalizing book found with
  | nil =>
    cases h
    exact .nil _
  | cons symbol done ih =>
    obtain ⟨hnew, hn⟩ := List.nodup_cons.mp hn
    obtain ⟨first, rest, next, rfl, hvisit, hrest⟩ := Transition.commit_mapM_cons h
    have hpassed := Passed.cons hvisit (ih hn hrest) hnew
    cases first <;> exact hpassed

/-- A pass over a book of distinct symbols: every stop is what its own test makes of it. -/
theorem passed_of_evaluate {triggers : List StopTrigger} (hn : book.states.symbols.Nodup)
    (h : (evaluate bars histories).commit book = .ok (triggers, after)) :
    Passed bars histories book (stopOrder book.states.symbols book.priority) triggers after := by
  rw [evaluate, Transition.commit_bind, Transition.commit_get, ok_bind,
    Transition.commit_bind] at h
  obtain ⟨⟨found, last⟩, hfound, h⟩ := bind_eq_ok.mp h
  cases h
  exact passed_of_mapM ((stopOrder_perm _ _).nodup_iff.mpr hn) hfound

private theorem exists_of_mapM_visit {done : List String} (hn : done.Nodup)
    (h : ∀ symbol ∈ done, ∀ s, book.states.find? symbol = some s →
      ∃ r, test book.policy bars histories symbol s = .ok r) :
    ∃ r, (done.mapM (visit bars histories)).commit book = .ok r := by
  -- over the stops in their order: a test leaves those that are still to come as they are
  induction done generalizing book with
  | nil => exact ⟨_, rfl⟩
  | cons symbol done ih =>
    obtain ⟨hnew, hn⟩ := List.nodup_cons.mp hn
    obtain ⟨hfirst, hrest⟩ := List.forall_mem_cons.mp h
    obtain ⟨⟨found, next⟩, hvisit, hpolicy, hothers⟩ : ∃ p : Option StopTrigger × StopBook,
        (visit bars histories symbol).commit book = .ok p ∧ p.2.policy = book.policy ∧
          ∀ other, other ≠ symbol → p.2.states.find? other = book.states.find? other := by
      rw [commit_visit]
      cases hs : book.states.find? symbol with
      | none => exact ⟨_, rfl, rfl, fun _ _ => rfl⟩
      | some s =>
        obtain ⟨⟨found, t⟩, htest⟩ := hfirst s hs
        simp only [htest]
        exact ⟨_, rfl, rfl, fun _ ho => Register.find?_put_other _ _ ho⟩
    have hexists : ∃ r, (done.mapM (visit bars histories)).commit next = .ok r :=
      ih hn fun other hother s hs => by
        rw [hpolicy]
        exact hrest other hother s (hothers other (fun he => hnew (he ▸ hother)) ▸ hs)
    obtain ⟨⟨more, last⟩, hmore⟩ := hexists
    refine ⟨(found :: more, last), ?_⟩
    rw [List.mapM_cons, Transition.commit_bind, hvisit, ok_bind, Transition.commit_bind, hmore]
    rfl

/-- A pass succeeds exactly if the test of every stop does. -/
theorem exists_of_evaluate_iff (hn : book.states.symbols.Nodup) :
    (∃ r, (evaluate bars histories).commit book = .ok r) ↔ ∀ symbol s,
      book.states.find? symbol = some s → ∃ r, test book.policy bars histories symbol s = .ok r := by
  constructor
  · rintro ⟨⟨triggers, after⟩, hevaluate⟩ symbol s hs
    have hmem : symbol ∈ stopOrder book.states.symbols book.priority :=
      (stopOrder_perm _ _).mem_iff.mpr (Register.exists_find?_iff.mp ⟨s, hs⟩)
    obtain ⟨found, t, htest, _⟩ := (passed_of_evaluate hn hevaluate).tested symbol hmem s hs
    exact ⟨_, htest⟩
  · intro h
    have hdistinct := (stopOrder_perm book.states.symbols book.priority).nodup_iff.mpr hn
    obtain ⟨⟨found, after⟩, hfound⟩ := exists_of_mapM_visit hdistinct fun symbol _ s hs => h symbol s hs
    refine ⟨(found.filterMap id, after), ?_⟩
    rw [evaluate, Transition.commit_bind, Transition.commit_get, ok_bind, Transition.commit_bind, hfound]
    rfl

/-- A trigger is of a stop that was tested, and so of a bar. -/
theorem Passed.quoted {done : List String} {triggers : List StopTrigger} {trigger : StopTrigger}
    (h : Passed bars histories book done triggers after)
    (hdone : ∀ symbol ∈ done, symbol ∈ book.states.symbols) (hm : trigger ∈ triggers) :
    trigger.symbol ∈ bars.symbols := by
  have hfilter : trigger ∈ triggers.filter (·.symbol = trigger.symbol) :=
    List.mem_filter.mpr ⟨hm, decide_eq_true rfl⟩
  by_cases hin : trigger.symbol ∈ done
  · obtain ⟨s, hs⟩ := Register.exists_find?_iff.mpr (hdone _ hin)
    obtain ⟨found, t, htest, _, htriggers⟩ := h.tested _ hin s hs
    rw [← Register.isSome_find?_iff]
    cases hbar : bars.find? trigger.symbol with
    | some bar => rfl
    | none =>
      simp only [test, hbar] at htest
      cases htest
      rw [htriggers] at hfilter
      cases hfilter
  · rw [(h.untested _ hin).2] at hfilter
    cases hfilter

theorem eq_release_of_close {s : StopState} (h : (close symbol).commit book = .ok (s, after)) :
    after = book.release symbol := by
  rw [close, Transition.commit_bind, Transition.commit_get, ok_bind] at h
  dsimp only at h
  split at h
  · cases h
  · cases h
    rfl

end StopBook
end PortfolioLab
