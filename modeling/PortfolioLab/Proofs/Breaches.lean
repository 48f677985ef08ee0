import PortfolioLab.Proofs.FirstBreach

/-!
# The prices that breach a stop

A bar is tested at its lowest price. Where a low is recorded this is the lowest price of the bar, and so
any recorded price at or below the threshold is a breach. A bar without a low is judged by its close; a
high at or below the threshold has the close below it, but the opening price may lie below the close and
goes unnoticed.
-/

namespace PortfolioLab

namespace Bar

variable {b : Bar} {level : Cents}

def prices (b : Bar) : List Cents := b.opening.toList ++ b.high.toList ++ b.low.toList ++ [b.close]

/-- The prices by which a bar is judged: all but the opening one of a bar without a low. -/
def judged (b : Bar) : List Cents :=
  (if b.low.isSome then b.opening.toList else []) ++ b.high.toList ++ b.low.toList ++ [b.close]

/-- No price is below the low or above the high, where these are recorded. -/
structure Consistent (b : Bar) : Prop where
  low_le_opening : ∀ low ∈ b.low, ∀ opening ∈ b.opening, low ≤ opening
  low_le_close : ∀ low ∈ b.low, low ≤ b.close
  opening_le_high : ∀ high ∈ b.high, ∀ opening ∈ b.opening, opening ≤ high
  close_le_high : ∀ high ∈ b.high, b.close ≤ high

theorem judged_eq_prices (h : b.low.isSome ∨ b.opening = none) : b.judged = b.prices := by
  rcases h with h | h
  · rw [judged, prices, if_pos h]
  · simp [judged, prices, h]

theorem worst_mem_judged (b : Bar) : b.worst ∈ b.judged := by
  unfold worst judged
  cases b.low <;> simp

/-- The lowest price known is the lowest of those by which the bar is judged. -/
theorem Consistent.worst_le (h : b.Consistent) {price : Cents} (hprice : price ∈ b.judged) :
    b.worst ≤ price := by
  simp only [judged, List.mem_append, List.mem_singleton, Option.mem_toList, or_assoc] at hprice
  cases hlow : b.low with
  | none =>
    have hworst : b.worst = b.close := by simp [worst, hlow]
    rw [hworst]
    rcases hprice with hopening | hhigh | hnone | rfl
    · simp [hlow] at hopening
    · exact h.close_le_high price hhigh
    · simp [hlow] at hnone
    · exact le_rfl
  | some low =>
    have hworst : b.worst = low := by simp [worst, hlow]
    have hclose := h.low_le_close low hlow
    rw [hworst]
    rcases hprice with hopening | hhigh | hsame | rfl
    · exact h.low_le_opening low hlow price (by simpa [hlow] using hopening)
    · exact hclose.trans (h.close_le_high price hhigh)
    · rw [hlow, Option.some.injEq] at hsame
      exact hsame.le
    · exact hclose

theorem Consistent.worst_le_iff (h : b.Consistent) :
    b.worst ≤ level ↔ ∃ price ∈ b.judged, price ≤ level :=
  ⟨fun hle => ⟨_, b.worst_mem_judged, hle⟩, fun ⟨_, hprice, hle⟩ => (h.worst_le hprice).trans hle⟩

end Bar

namespace StopBook

variable {book : StopBook} {bars : Register Bar} {histories : Register (List Bar)} {symbol : String}
  {s : StopState} {bar : Bar} {level : Cents}

/-- The test of a stop with a threshold succeeds: nothing has to be armed. -/
theorem test_of_armed {policy : GapPolicy} (hactive : s.status = .active)
    (hlevel : s.threshold = some level) (hbar : bars.find? symbol = some bar) :
    test policy bars histories symbol s = .ok (s.breach? policy bar,
      if (s.breach? policy bar).isSome then { s with status := .triggered }
      else StopState.ratchet bar s) := by
  simp only [test, hbar, if_pos hactive]
  rw [StopState.observe, Transition.commit_bind, Transition.commit_get, ok_bind]
  dsimp only
  cases s.breach? policy bar with
  | some breach => rfl
  | none =>
    rw [hlevel]
    rfl

/-- What triggers a stop. Take any active stop with a threshold, and a consistent bar of its symbol. A pass
over the book succeeds if the tests of all other stops do; and then the stop is triggered exactly if
some price by which the bar is judged is at or below the threshold. -/
theorem triggers_iff_judged (hn : book.states.symbols.Nodup)
    (hs : book.states.find? symbol = some s) (hactive : s.status = .active)
    (hlevel : s.threshold = some level) (hbar : bars.find? symbol = some bar)
    (hconsistent : bar.Consistent) :
    ((∃ r, (evaluate bars histories).commit book = .ok r) ↔ ∀ other t, other ≠ symbol →
      book.states.find? other = some t → ∃ r, test book.policy bars histories other t = .ok r) ∧
    ∀ triggers after, (evaluate bars histories).commit book = .ok (triggers, after) →
      ((∃ trigger ∈ triggers, trigger.symbol = symbol) ↔ ∃ price ∈ bar.judged, price ≤ level) ∧
      ((∃ price ∈ bar.judged, price ≤ level) →
        after.states.find? symbol = some { s with status := .triggered }) := by
  have htest : ∀ policy, test policy bars histories symbol s = .ok (s.breach? policy bar,
      if (s.breach? policy bar).isSome then { s with status := .triggered }
      else StopState.ratchet bar s) := fun policy => test_of_armed hactive hlevel hbar
  have hbreach : ∀ policy, (s.breach? policy bar).isSome ↔ ∃ price ∈ bar.judged, price ≤ level := by
    intro policy
    rw [StopState.isSome_breach?_iff, ← hconsistent.worst_le_iff, hlevel]
    simp
  constructor
  · rw [exists_of_evaluate_iff hn]
    refine ⟨fun h other t _ ht => h other t ht, fun h other t ht => ?_⟩
    by_cases ho : other = symbol
    · subst ho
      cases hs.symm.trans ht
      exact ⟨_, htest book.policy⟩
    · exact h other t ho ht
  · intro triggers after hevaluate
    have hmem : symbol ∈ stopOrder book.states.symbols book.priority :=
      (stopOrder_perm _ _).mem_iff.mpr (Register.exists_find?_iff.mp ⟨s, hs⟩)
    obtain ⟨found, t, hfound, ht, htriggers⟩ :=
      (passed_of_evaluate hn hevaluate).tested symbol hmem s hs
    rw [htest, Except.ok.injEq, Prod.mk.injEq] at hfound
    obtain ⟨rfl, rfl⟩ := hfound
    refine ⟨(exists_trigger_iff htriggers).trans (hbreach _), fun hprice => ?_⟩
    rwa [if_pos ((hbreach _).mpr hprice)] at ht

def oneStop : StopBook where
  rules := []
  states := [("A", { rule := ⟨.fixed 0.05, 14⟩, entry := 10000, peak := 10000, threshold := some 9500 })]

def recoveringBar : Bar := { close := 9700, opening := some 9400 }

/-- The bar opens below the threshold, and the stop stays as it is. -/
theorem low_opening_goes_unnoticed : recoveringBar.Consistent ∧
    (∃ price ∈ recoveringBar.prices, price ≤ 9500) ∧
    (evaluate [("A", recoveringBar)] []).commit oneStop = .ok ([], oneStop) := by
  refine ⟨⟨?_, ?_, ?_, ?_⟩, ⟨9400, by decide, by decide⟩, ?_⟩
  · exact fun _ h => nomatch h
  · exact fun _ h => nomatch h
  · exact fun _ h => nomatch h
  · exact fun _ h => nomatch h
  · unfold evaluate
    simp only [stopOrder_eq_insertionSort]
    rfl

def recoveringBarWithLow : Bar := { recoveringBar with low := some 9400 }

theorem triggers_iff_judged_recovering : ∃ triggers after,
    (evaluate [("A", recoveringBarWithLow)] []).commit oneStop = .ok (triggers, after) ∧
    ∃ trigger ∈ triggers, trigger.symbol = "A" := by
  have hconsistent : recoveringBarWithLow.Consistent := by
    refine ⟨?_, ?_, ?_, ?_⟩ <;> simp [recoveringBarWithLow, recoveringBar]
  have hothers : ∀ other t, other ≠ "A" → oneStop.states.find? other = some t →
      ∃ r, test oneStop.policy [("A", recoveringBarWithLow)] [] other t = .ok r := by
    intro other t ho ht
    rw [show oneStop.states.find? other = none from if_neg fun he => ho he.symm] at ht
    cases ht
  have hbar : Register.find? [("A", recoveringBarWithLow)] "A" = some recoveringBarWithLow := rfl
  have hdistinct : oneStop.states.symbols.Nodup := List.nodup_singleton _
  obtain ⟨hreturns, htriggers⟩ := triggers_iff_judged hdistinct rfl rfl rfl hbar hconsistent
  obtain ⟨⟨triggers, after⟩, hevaluate⟩ := hreturns.mpr hothers
  obtain ⟨hiff, _⟩ := htriggers triggers after hevaluate
  rw [Bar.judged_eq_prices (.inl rfl)] at hiff
  exact ⟨triggers, after, hevaluate, hiff.mpr ⟨9400, by decide, by decide⟩⟩

end StopBook
end PortfolioLab
