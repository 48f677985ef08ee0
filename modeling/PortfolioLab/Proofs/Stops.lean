import PortfolioLab.Proofs.Amounts
import PortfolioLab.Proofs.Ordering
import PortfolioLab.Proofs.Registers
import PortfolioLab.Stop.Book

/-!
# Stops under a pass of tests

A stop keeps its rule and its entry price for life, and its status changes only with the bar that
breaches it. A pass over the book tests every stop once, so the symbols of the triggers it reports
are distinct and have stops, and every other stop is as active as before.
-/

namespace PortfolioLab

namespace StopState

variable {s : StopState}

structure Same (s t : StopState) : Prop where
  rule : t.rule = s.rule
  entry : t.entry = s.entry
  status : t.status = s.status

theorem Same.trans {t u : StopState} (h : Same s t) (h' : Same t u) : Same s u :=
  ⟨h'.rule.trans h.rule, h'.entry.trans h.entry, h'.status.trans h.status⟩

private theorem setBelow_keyed (reference distance : Cents) (s : StopState) :
    Keyed (fun p => Same s p.2) ((setBelow reference distance).commit s) := by
  refine (Keyed.commit_require (Cents.check_keyed _)).commit_bind fun level t ht => ?_
  obtain ⟨_, rfl⟩ := ht
  exact ⟨rfl, rfl, rfl⟩

private theorem place_keyed (reference : Cents) {distance : Except Failure Cents}
    (hd : Keyed (fun _ => True) distance) (s : StopState) :
    Keyed (fun p => Same s p.2) (Transition.commit (do
      let distance ← Transition.require distance
      setOffset distance
      setBelow reference distance) s) := by
  refine (Keyed.commit_require hd).commit_bind fun distance t ht => ?_
  obtain ⟨_, rfl⟩ := ht
  rw [Transition.commit_bind, setOffset, Transition.commit_modify, ok_bind]
  exact (setBelow_keyed reference distance _).imp fun p hp => ⟨hp.rule, hp.entry, hp.status⟩

theorem arm_keyed (range : Option Cents) (s : StopState) :
    Keyed (fun p => Same s p.2) ((arm range).commit s) := by
  have hdone : Keyed (fun p => Same s p.2) ((pure () : Transition StopState Unit).commit s) :=
    ⟨rfl, rfl, rfl⟩
  rw [arm, Transition.commit_bind, Transition.commit_get, ok_bind]
  dsimp only
  split
  · refine (Keyed.commit_require (Money.scale_keyed _ _)).commit_bind fun distance t ht => ?_
    obtain ⟨_, rfl⟩ := ht
    refine (Keyed.commit_require (Cents.check_keyed _)).commit_bind fun level u hu => ?_
    obtain ⟨_, rfl⟩ := hu
    exact ⟨rfl, rfl, rfl⟩
  · exact place_keyed _ (Money.toCents_keyed _) s
  · split
    · exact hdone
    · split
      · exact place_keyed _ (Money.scale_keyed _ _) s
      · exact hdone
  · split
    · exact hdone
    · split
      · exact place_keyed _ (Money.scale_keyed _ _) s
      · exact hdone

theorem same_ratchet (bar : Bar) (s : StopState) : Same s (ratchet bar s) := by
  unfold ratchet
  split
  · exact ⟨rfl, rfl, rfl⟩
  · dsimp only
    split
    · exact ⟨rfl, rfl, rfl⟩
    · split <;> exact ⟨rfl, rfl, rfl⟩

theorem observe_keyed (policy : GapPolicy) (history : List Bar) (bar : Bar) (s : StopState) :
    Keyed (fun p => p.2.entry = s.entry ∧ (p.1 = none → p.2.status = s.status))
      ((observe policy history bar).commit s) := by
  rw [observe, Transition.commit_bind, Transition.commit_get, ok_bind]
  dsimp only
  split
  · exact ⟨rfl, fun h => nomatch h⟩
  · have hfollow : ∀ t, Same s t → Keyed (fun p => p.2.entry = s.entry ∧
        (p.1 = none → p.2.status = s.status)) (Transition.commit (do
          modify (ratchet bar)
          return (none : Option Breach)) t) := fun t ht =>
      have hr := ht.trans (same_ratchet bar t)
      ⟨hr.entry, fun _ => hr.status⟩
    split
    · exact (arm_keyed _ s).commit_bind fun _ t ht => hfollow t ht
    · exact hfollow s ⟨rfl, rfl, rfl⟩

end StopState

namespace StopBook

variable {book : StopBook} {symbol : String}

theorem commit_onState {α : Type} (symbol : String) (state : StopState)
    (step : Transition StopState α) (book : StopBook) :
    (onState symbol state step).commit book = step.commit state >>= fun p =>
      .ok (p.1, { book with states := book.states.put symbol p.2 }) := by
  have h : (onState symbol state step).outcome book =
      ((step.outcome state).1, { book with states := book.states.put symbol (step.outcome state).2 }) :=
    rfl
  simp only [Transition.commit, h]
  rcases step.outcome state with ⟨a | e, t⟩ <;> rfl

/-- What the tests of the stops in `done` make of a book: the triggers are in the order of the tests,
each for a stop of the book, and a stop without trigger keeps its status. -/
structure Visited (book : StopBook) (done : List String) (triggers : List StopTrigger)
    (after : StopBook) : Prop where
  rules : after.rules = book.rules
  symbols : after.states.symbols = book.states.symbols
  kept : ∀ symbol t, after.states.find? symbol = some t →
    ∃ s, book.states.find? symbol = some s ∧ t.entry = s.entry ∧
      (symbol ∉ triggers.map (·.symbol) → t.status = s.status)
  tested : (triggers.map (·.symbol)).Sublist done
  stated : ∀ trigger ∈ triggers, trigger.symbol ∈ book.states.symbols

private theorem Visited.initial (book : StopBook) : Visited book [] [] book :=
  ⟨rfl, rfl, fun _ t h => ⟨t, h, rfl, fun _ => rfl⟩, .slnil, fun _ h => nomatch h⟩

private theorem Visited.skip {done : List String} {triggers : List StopTrigger} {after : StopBook}
    (h : Visited book done triggers after) (symbol : String) :
    Visited book (done ++ [symbol]) triggers after :=
  { h with tested := h.tested.trans (List.sublist_append_left _ _) }

/-- A test replaces the state of its symbol, and reports a trigger unless the status stays. -/
private theorem Visited.test {done : List String} {triggers : List StopTrigger} {after : StopBook}
    (h : Visited book done triggers after) {s t : StopState} {found : Option StopTrigger}
    (hs : after.states.find? symbol = some s) (he : t.entry = s.entry)
    (hf : ∀ trigger, found = some trigger → trigger.symbol = symbol)
    (ht : found = none → t.status = s.status) :
    Visited book (done ++ [symbol]) (triggers ++ found.toList)
      { after with states := after.states.put symbol t } := by
  have hmem : symbol ∈ after.states.symbols := Register.exists_find?_iff.mp ⟨s, hs⟩
  refine ⟨h.rules, (Register.symbols_put_of_mem hmem).trans h.symbols, ?_, ?_, ?_⟩
  · intro other u hu
    rw [Register.find?_put] at hu
    split at hu
    · next ho =>
      cases hu
      obtain ⟨s₀, hs₀, he₀, hstatus⟩ := h.kept symbol s hs
      refine ⟨s₀, by rw [ho, hs₀], he.trans he₀, fun hn => ?_⟩
      cases found with
      | none => rw [ht rfl, hstatus (by simpa [ho] using hn)]
      | some trigger => exact absurd (by simp [ho, hf trigger rfl]) hn
    · obtain ⟨s₀, hs₀, he₀, hstatus⟩ := h.kept other u hu
      refine ⟨s₀, hs₀, he₀, fun hn => hstatus fun hm => hn ?_⟩
      rw [List.map_append]
      exact List.mem_append_left _ hm
  · rw [List.map_append]
    refine h.tested.append ?_
    cases found with
    | none => exact List.nil_sublist _
    | some trigger => simp [hf trigger rfl]
  · intro trigger hm
    rcases List.mem_append.mp hm with hm | hm
    · exact h.stated trigger hm
    · rw [hf trigger (Option.mem_toList.mp hm), ← h.symbols]
      exact hmem

private theorem visit_keyed (bars : Register Bar) (histories : Register (List Bar))
    {done : List String} {triggers : List StopTrigger} {after : StopBook}
    (h : Visited book done triggers after) (symbol : String) :
    Keyed (fun p => Visited book (done ++ [symbol]) (triggers ++ p.1.toList) p.2)
      ((visit bars histories symbol).commit after) := by
  have hskip : Keyed (fun p => Visited book (done ++ [symbol]) (triggers ++ p.1.toList) p.2)
      ((pure none : Transition StopBook (Option StopTrigger)).commit after) := by
    simpa using h.skip symbol
  rw [visit, Transition.commit_bind, Transition.commit_get, ok_bind]
  dsimp only
  split
  · next s bar hs _ =>
    split
    · rw [Transition.commit_bind, commit_onState, bind_assoc]
      refine (StopState.observe_keyed _ _ bar s).bind fun p hp => ?_
      refine h.test hs hp.1 (fun trigger ht => ?_) fun hn => hp.2 ?_
      · obtain ⟨breach, _, rfl⟩ := Option.map_eq_some_iff.mp ht
        rfl
      · exact Option.map_eq_none_iff.mp hn
    · exact hskip
  · exact hskip

/-- A pass over the book. -/
theorem evaluate_keyed (bars : Register Bar) (histories : Register (List Bar)) (book : StopBook) :
    Keyed (fun p => Visited book (stopOrder book.states.symbols book.priority) p.1 p.2)
      ((evaluate bars histories).commit book) := by
  have hstep : ∀ done (found : List (Option StopTrigger)) symbol after,
      Visited book done (found.filterMap id) after →
      Keyed (fun p => Visited book (done ++ [symbol]) ((found ++ [p.1]).filterMap id) p.2)
        ((visit bars histories symbol).commit after) := by
    intro done found symbol after h
    refine (visit_keyed bars histories h symbol).imp fun p hp => ?_
    rw [List.filterMap_append]
    cases hp1 : p.1 <;> simpa [hp1] using hp
  rw [evaluate, Transition.commit_bind, Transition.commit_get, ok_bind]
  exact (Keyed.commit_mapM hstep (Visited.initial book) _).commit_bind fun found after h => h

theorem Visited.nodup {priority : List String} {triggers : List StopTrigger} {after : StopBook}
    (h : Visited book (stopOrder book.states.symbols priority) triggers after)
    (hn : book.states.symbols.Nodup) : (triggers.map (·.symbol)).Nodup :=
  ((stopOrder_perm _ _).nodup_iff.mpr hn).sublist h.tested

theorem close_keyed (h : symbol ∈ book.states.symbols) :
    Keyed (fun p => p.2 = book.release symbol) ((close symbol).commit book) := by
  obtain ⟨s, hs⟩ := Register.exists_find?_iff.mpr h
  rw [close, Transition.commit_bind, Transition.commit_get, ok_bind]
  simp only [hs]
  rfl

/-- Entering a position: without a rule for its symbol nothing happens, and with one its stop is
active and carries the entry price. -/
theorem enter_keyed (symbol : String) (entry : Cents) (history : List Bar) (book : StopBook) :
    Keyed (fun p => symbol ∉ book.rules.symbols ∧ p.2 = book ∨
        symbol ∈ book.rules.symbols ∧ ∃ s : StopState, s.entry = entry ∧ s.status = .active ∧
          p.2 = { book with states := book.states.put symbol s })
      ((enter symbol entry history).commit book) := by
  rw [enter, Transition.commit_bind, Transition.commit_get, ok_bind]
  dsimp only
  split
  · next hnone => exact .inl ⟨Register.find?_eq_none_iff.mp hnone, rfl⟩
  · next rule hsome =>
    have hrule := Register.exists_find?_iff.mp ⟨rule, hsome⟩
    refine (Keyed.commit_require (StopState.arm_keyed _ _)).commit_bind fun p after hp => ?_
    obtain ⟨hsame, rfl⟩ := hp
    exact .inr ⟨hrule, p.2, hsame.entry, hsame.status, rfl⟩

end StopBook
end PortfolioLab
