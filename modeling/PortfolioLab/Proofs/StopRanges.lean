import PortfolioLab.Proofs.StopLives
import PortfolioLab.Proofs.TradeRanges

/-!
# Ranges of stops

A stop checks its distance, but neither its best price nor its threshold. The best price is one of the
prices seen, and the threshold lies between zero and the larger of entry price and best price.
-/

namespace PortfolioLab

open Cents (InRange IsPrice)

structure Breach.Priced (b : Breach) : Prop where
  threshold : IsPrice b.threshold
  exitPrice : IsPrice b.exitPrice

namespace StopState

variable {s t : StopState} {bar : Bar}

/-- A stop in order whose best price and distance are in range. -/
structure Bounded (s : StopState) : Prop where
  orderly : s.Orderly
  peak : s.peak ≤ maxCents
  offset : ∀ d ∈ s.offset, d ≤ maxCents

theorem Bounded.isPrice_peak (h : s.Bounded) : IsPrice s.peak :=
  ⟨h.orderly.entry.trans h.orderly.peak, h.peak⟩

theorem Bounded.isPrice_offset (h : s.Bounded) : ∀ d ∈ s.offset, IsPrice d := fun d hd =>
  ⟨h.orderly.offset d hd, h.offset d hd⟩

theorem Bounded.isPrice_threshold (h : s.Bounded) : ∀ l ∈ s.threshold, IsPrice l := by
  intro l hl
  obtain ⟨hlow, hhigh⟩ := h.orderly.bounds hl
  exact ⟨hlow, hhigh.trans (max_le (h.orderly.peak.trans h.peak) h.peak)⟩

private theorem priced_of_breach? {policy : GapPolicy} {breach : Breach} (h : s.Bounded)
    (hbar : bar.Priced) (hbreach : s.breach? policy bar = some breach) : breach.Priced := by
  unfold breach? at hbreach
  cases hlevel : s.threshold with
  | none => simp [hlevel] at hbreach
  | some level =>
    have hprice := h.isPrice_threshold level hlevel
    simp only [hlevel] at hbreach
    split at hbreach
    · cases hbreach
      refine ⟨hprice, ?_⟩
      dsimp only
      split
      · exact hbar.gapReference
      · exact hprice
    · cases hbreach

private theorem peak_ratchet_le (bar : Bar) (s : StopState) :
    (ratchet bar s).peak ≤ max s.peak bar.best := by
  unfold ratchet
  split
  · exact le_max_left _ _
  · dsimp only
    split
    · exact le_rfl
    · split <;> exact le_rfl

private theorem offset_ratchet (bar : Bar) (s : StopState) : (ratchet bar s).offset = s.offset := by
  unfold ratchet
  split
  · rfl
  · dsimp only
    split
    · rfl
    · split <;> rfl

private theorem bounded_of_arm {range : Option Cents} {p : Unit × StopState} (hs : p.2.Orderly)
    (hpeak : s.peak ≤ maxCents) (hoffset : s.offset = none)
    (harm : (arm range).commit s = .ok p) : p.2.Bounded := by
  refine ⟨hs, ?_, fun d hd => ?_⟩
  · rw [arm_eq harm]
    exact hpeak
  · rcases inRange_of_arm harm d hd with hold | hnew
    · rw [hoffset] at hold
      cases hold
    · exact hnew.2

theorem Bounded.observe {policy : GapPolicy} {history : List Bar} {found : Option Breach}
    (h : s.Bounded) (hbar : bar.Priced) (hactive : s.status = .active)
    (hobserve : (observe policy history bar).commit s = .ok (found, t)) :
    t.Bounded ∧ ∀ breach ∈ found, breach.Priced := by
  have horderly := (h.orderly.survives_observe hactive hobserve).orderly
  rcases observe_cases hobserve with ⟨breach, hbreach, hp⟩ | ⟨_, u, hp, harmed⟩
  · cases hp
    refine ⟨⟨horderly, h.peak, h.offset⟩, fun b hb => ?_⟩
    rw [← Option.mem_some_iff.mp hb]
    exact priced_of_breach? h hbar hbreach
  · cases hp
    have hu : u.Bounded := by
      rcases harmed with ⟨_, rfl⟩ | ⟨hwaits, harm⟩
      · exact h
      · have hu := (h.orderly.armed (Bar.averageTrueRange history s.rule.lookback) hwaits).1
        rw [← arm_eq harm] at hu
        exact bounded_of_arm hu h.peak (h.orderly.offset_of_waiting hwaits) harm
    refine ⟨⟨horderly, ?_, ?_⟩, fun b hb => by cases hb⟩
    · exact (peak_ratchet_le bar u).trans (max_le hu.peak hbar.best.le_max)
    · rw [offset_ratchet]
      exact hu.offset

end StopState

namespace StopBook

variable {book after : StopBook} {bars : Register Bar} {histories : Register (List Bar)}

/-- Every stop of the book is bounded, and so will be those that its rules make. -/
structure Bounded (book : StopBook) : Prop where
  rules : book.rules.All StopRule.Accepted
  states : book.states.All StopState.Bounded

theorem Bounded.release (h : book.Bounded) (symbol : String) : (book.release symbol).Bounded :=
  ⟨h.rules, h.states.remove⟩

private theorem Bounded.visit (h : book.Bounded) (hbars : bars.All Bar.Priced) {symbol : String}
    {found : Option StopTrigger} (hvisit : (visit bars histories symbol).commit book = .ok (found, after)) :
    after.Bounded ∧ ∀ trigger ∈ found, trigger.breach.Priced := by
  rw [commit_visit] at hvisit
  cases hs : book.states.find? symbol with
  | none =>
    simp only [hs] at hvisit
    cases hvisit
    exact ⟨h, fun trigger ht => by cases ht⟩
  | some s =>
    simp only [hs] at hvisit
    obtain ⟨⟨breach, t⟩, htest, hafter⟩ := bind_eq_ok.mp hvisit
    cases hafter
    have hbounded := h.states.of_find? hs
    have hresult : t.Bounded ∧ ∀ b ∈ breach, b.Priced := by
      unfold test at htest
      split at htest
      · next bar hbar =>
        split at htest
        · next hactive => exact hbounded.observe (hbars.of_find? hbar) hactive htest
        · cases htest
          exact ⟨hbounded, fun b hb => by cases hb⟩
      · cases htest
        exact ⟨hbounded, fun b hb => by cases hb⟩
    refine ⟨⟨h.rules, h.states.put hresult.1⟩, fun trigger ht => ?_⟩
    obtain ⟨b, hb, rfl⟩ := Option.map_eq_some_iff.mp ht
    exact hresult.2 b hb

theorem Bounded.evaluate (h : book.Bounded) (hbars : bars.All Bar.Priced)
    {triggers : List StopTrigger}
    (hevaluate : (evaluate bars histories).commit book = .ok (triggers, after)) :
    after.Bounded ∧ ∀ trigger ∈ triggers, trigger.breach.Priced := by
  rw [StopBook.evaluate, Transition.commit_bind, Transition.commit_get, ok_bind,
    Transition.commit_bind] at hevaluate
  obtain ⟨⟨found, last⟩, hfound, hlast⟩ := bind_eq_ok.mp hevaluate
  cases hlast
  obtain ⟨hafter, hpriced⟩ := Transition.commit_mapM_keeps (I := Bounded)
    (Q := fun found : Option StopTrigger => ∀ trigger ∈ found, trigger.breach.Priced)
    (fun _ _ _ _ hb hvisit => hb.visit hbars hvisit) h hfound
  refine ⟨hafter, fun trigger ht => ?_⟩
  obtain ⟨found, hm, rfl⟩ := List.mem_filterMap.mp ht
  exact hpriced _ hm trigger rfl

theorem Bounded.enter (h : book.Bounded) {symbol : String} {entry : Cents} {history : List Bar}
    {entered : Bool} (hentry : IsPrice entry)
    (henter : (enter symbol entry history).commit book = .ok (entered, after)) : after.Bounded := by
  rw [commit_enter] at henter
  cases hrule : book.rules.find? symbol with
  | none =>
    simp only [hrule] at henter
    cases henter
    exact h
  | some rule =>
    simp only [hrule] at henter
    obtain ⟨p, harm, hafter⟩ := bind_eq_ok.mp henter
    cases hafter
    have horderly := StopState.orderly_entered
      (if rule.kind.usesRange then Bar.averageTrueRange history rule.lookback else none)
      (h.rules.of_find? hrule) hentry.nonneg
    rw [← StopState.arm_eq harm] at horderly
    exact ⟨h.rules, h.states.put (StopState.bounded_of_arm horderly hentry.le_max rfl harm)⟩

end StopBook

end PortfolioLab
