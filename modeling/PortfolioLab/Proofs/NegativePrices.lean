import PortfolioLab.Proofs.Bookkeeping
import PortfolioLab.Proofs.NearestCents
import PortfolioLab.Proofs.PriceTables
import PortfolioLab.Proofs.TradeRanges

/-!
# Negative prices

The sign of a price is looked at after its value has been rounded to a cent. So a negative value is refused
if it is below minus half a cent, and is the price zero otherwise. A run converts every price of its table,
so it does not end with a report if one of them is refused.
-/

namespace PortfolioLab

namespace Price

open Money

variable {v : Value} {d : Decimal} {n : ℤ}

/-- The failures that are declared for a value that is no price. -/
inductive Refused : Except Failure Price → Prop
  | invalidInput (cause : InvalidInput) : Refused (.error (.invalidInput cause))
  | outOfRange (cause : RangeFault) : Refused (.error (.outOfRange cause))

theorem ofValue_of_error {e : Failure} (h : toCents v = .error e) : ofValue v = .error e := by
  rw [ofValue, h, error_bind]

theorem ofValue_of_neg (h : toCents v = .ok n) (hn : n < 0) :
    ofValue v = .error (.invalidInput (.negativePrice n)) := by
  rw [ofValue, h, ok_bind, ofCents, dif_pos (inRange_of_toCents h), dif_neg (not_le.mpr hn)]
  rfl

theorem ofValue_of_nonneg (h : toCents v = .ok n) (hn : 0 ≤ n) :
    ∃ p, ofValue v = .ok p ∧ p.cents = n := by
  refine ⟨⟨n, inRange_of_toCents h, hn⟩, ?_, rfl⟩
  rw [ofValue, h, ok_bind, ofCents, dif_pos (inRange_of_toCents h), dif_pos hn]

/-! ## One value -/

/-- What rounds to an amount below zero is below minus half a cent. -/
theorem neg_of_isNearest_iff (h : IsNearest (d.value * 10 ^ (2 : ℤ)) n) : n < 0 ↔ d.value < -1 / 200 := by
  have hnear := abs_le.mp h.near
  norm_num at hnear
  constructor
  · intro hn
    have hle : (n : ℚ) ≤ -1 := by exact_mod_cast Int.le_sub_one_of_lt hn
    rcases hle.lt_or_eq with hless | heq
    · have hle' : (n : ℚ) ≤ -2 := by
        have hlt : n < -1 := by exact_mod_cast hless
        exact_mod_cast Int.le_sub_one_of_lt hlt
      linarith
    · -- half a cent below zero is a tie, which goes to zero and not to the odd neighbour
      by_contra hge
      have htie : |d.value * 10 ^ (2 : ℤ) - n| = 1 / 2 := by
        norm_num
        rw [heq, abs_of_nonneg] <;> linarith
      have heven := h.even htie
      have hone : n = -1 := by exact_mod_cast heq
      rw [hone] at heven
      exact absurd heven (by decide)
  · intro hd
    by_contra hn
    have hge : (0 : ℚ) ≤ n := by exact_mod_cast not_lt.mp hn
    linarith

/-- A value whose nearest cent is an amount in range below zero is refused, and so is one that is no
amount at all. -/
theorem error_of_lt (hv : Denotes v d) (hd : d.value < -1 / 200) : ∃ e, ofValue v = .error e := by
  cases hcents : toCents v with
  | error e => exact ⟨e, ofValue_of_error hcents⟩
  | ok n =>
    obtain ⟨_, hd', hnear, hrange⟩ := exists_of_toCents hcents
    cases hv.decimalOf_eq.symm.trans hd'
    exact ⟨_, ofValue_of_neg hcents ((neg_of_isNearest_iff hnear).mpr hd)⟩

theorem refused_iff_of_lt (hv : Denotes v d) (hd : d.value < -1 / 200) :
    Refused (surface (ofValue v)) ↔ ¬ Oversized v ∧ v.isShown = true := by
  rw [← declared_toCents_iff]
  cases hcents : toCents v with
  | error e =>
    rw [ofValue_of_error hcents, surface_error, surface_error]
    constructor
    · intro h
      cases hsurfaced : e.surfaced <;> rw [hsurfaced] at h <;> cases h <;> constructor
    · intro h
      cases hsurfaced : e.surfaced <;> rw [hsurfaced] at h <;> cases h <;> constructor
  | ok n =>
    obtain ⟨_, hd', hnear, hrange⟩ := exists_of_toCents hcents
    cases hv.decimalOf_eq.symm.trans hd'
    have hneg := (neg_of_isNearest_iff hnear).mpr hd
    have hshown : isShownInt n = true :=
      isShownInt_of_lt (k := 100) (by decide) ((Cents.abs_le_of_inRange hrange).trans_lt (by norm_num))
    rw [ofValue_of_neg hcents hneg, surface_error, Failure.surfaced, InvalidInput.isShown, if_pos hshown]
    exact iff_of_true (.invalidInput _) (.amount hrange)

/-- A value between minus half a cent and zero is the price zero. -/
theorem ofValue_of_half_cent (hv : Denotes v d) (hlow : -1 / 200 ≤ d.value) (hneg : d.value < 0) :
    ∃ p, ofValue v = .ok p ∧ p.cents = 0 := by
  have hnear : IsNearest (d.value * 10 ^ (2 : ℤ)) 0 := by
    constructor
    · norm_num
      rw [abs_of_neg (by linarith)]
      linarith
    · exact fun _ => ⟨0, rfl⟩
  exact ofValue_of_nonneg (toCents_of_isNearest hv.decimalOf_eq hnear Cents.inRange_zero) le_rfl

end Price

namespace Money

theorem Denotes.not_isMissing {v : Value} {d : Decimal} (hv : Denotes v d) : ¬ v.IsMissing :=
  fun hmissing => hmissing.decimalOf_ne d hv.decimalOf_eq

end Money

/-! ## Runs -/

namespace PriceSchedule

open Money (Denotes)

variable {v : Value} {d : Decimal} {row : PriceRow}

/-- A bar has a price for each cell of its row that stands for a number. -/
theorem exists_price_of_barOf {bar : Bar} (h : barOf row = .ok bar) (hcell : v ∈ row.cells)
    (hv : Denotes v d) : ∃ p, Price.ofValue v = .ok p := by
  have hoptional : ∀ {cell found}, optionalCents cell = .ok found → v ∈ cell.toList →
      ∃ p, Price.ofValue v = .ok p := by
    intro cell found hfound hmem
    have hmem' : v ∈ cell := Option.mem_toList.mp hmem
    rcases optionalCents_cases hfound with ⟨hmissing, _⟩ | ⟨w, p, rfl, _, hp, _⟩
    · exact absurd (hmissing v hmem') hv.not_isMissing
    · exact ⟨p, Option.mem_some_iff.mp hmem' ▸ hp⟩
  obtain ⟨⟨p, hclose, _⟩, hopening, hhigh, hlow⟩ := of_barOf h
  simp only [PriceRow.cells, List.mem_cons, List.mem_append, or_assoc] at hcell
  rcases hcell with rfl | hm | hm | hm
  · exact ⟨p, hclose⟩
  · exact hoptional hopening hm
  · exact hoptional hhigh hm
  · exact hoptional hlow hm

end PriceSchedule

namespace Backtest

open Money (Denotes)

variable {v : Value} {d : Decimal} {t : Table} {prices : PriceInput}

/-- A run fails if its table has a price that is refused. -/
theorem simulate_of_refused (ht : PriceSchedule.tableOf prices = .ok t)
    (hcell : ∃ row ∈ PriceSchedule.tableRows t, v ∈ row.cells) (hv : Denotes v d)
    (hrefused : ∃ e, Price.ofValue v = .error e) (settings : RunSettings) (model : CostModel)
    (weights : WeightInput) (initialCash : Option Value) (stops : StopAssignment) :
    ∃ e, simulate settings model weights prices initialCash stops = .error e := by
  cases hrun : simulate settings model weights prices initialCash stops with
  | error e => exact ⟨e, rfl⟩
  | ok report =>
    obtain ⟨row, hrow, hcell⟩ := hcell
    obtain ⟨setup, haccepted, _⟩ := exists_setup hrun
    have hrows := (PriceSchedule.rows_of_ofInput ht haccepted.prices).1
    have hmem : row ∈ setup.prices := by
      rw [hrows]
      exact List.mem_mergeSort.mpr hrow
    obtain ⟨bar, hbar⟩ := PriceSchedule.exists_barOf_of_periods haccepted.bars hmem
    obtain ⟨p, hp⟩ := PriceSchedule.exists_price_of_barOf hbar hcell hv
    obtain ⟨e, he⟩ := hrefused
    rw [hp] at he
    cases he

/-- A negative value is no price exactly if it is below minus half a cent. It is refused then, with a
declared failure if its size can be judged and it can be shown, and so no run over a table with such a
price ends with a report. A negative value that is not as far from zero is the price zero. -/
theorem negative_prices_beyond_half_cent (hv : Denotes v d) (hneg : d.value < 0) :
    ((∃ e, Price.ofValue v = .error e) ↔ d.value < -1 / 200) ∧
      (Price.Refused (surface (Price.ofValue v)) ↔
        d.value < -1 / 200 ∧ ¬ Money.Oversized v ∧ v.isShown = true) ∧
      (∀ p, Price.ofValue v = .ok p → p.cents = 0) ∧
      (d.value < -1 / 200 → ∀ prices t, PriceSchedule.tableOf prices = .ok t →
        (∃ row ∈ PriceSchedule.tableRows t, v ∈ row.cells) →
        ∀ settings model weights initialCash stops,
          ∃ e, simulate settings model weights prices initialCash stops = .error e) := by
  rcases lt_or_ge d.value (-1 / 200) with hlow | hclose
  · obtain ⟨e, he⟩ := Price.error_of_lt hv hlow
    refine ⟨iff_of_true ⟨e, he⟩ hlow, ?_, ?_, ?_⟩
    · rw [Price.refused_iff_of_lt hv hlow, and_iff_right hlow]
    · intro p hp
      rw [hp] at he
      cases he
    · intro _ prices t ht hcell
      exact simulate_of_refused ht hcell hv ⟨e, he⟩
  · obtain ⟨p, hp, hzero⟩ := Price.ofValue_of_half_cent hv hclose hneg
    have hnot := not_lt.mpr hclose
    rw [hp]
    refine ⟨iff_of_false (fun ⟨_, he⟩ => nomatch he) hnot, ?_, ?_, fun hlow => absurd hlow hnot⟩
    · exact iff_of_false (fun h => nomatch h) fun h => hnot h.1
    · intro q hq
      cases hq
      exact hzero

/-- A closing price on the second day of the sample, of a symbol without weight. -/
def oddPrice (price : Value) : List (List Value) := [[.text "2024-01-02", .text "C", price]]

theorem negative_prices_beyond_half_cent_one_cent :
    (Denotes (.real (-0.01)) ⟨true, 1, -2⟩ ∧
      Price.Refused (surface (Price.ofValue (.real (-0.01)))) ∧
      ∃ e, sample .zero (oddPrice (.real (-0.01))) [] = .error e) ∧
    Denotes (.decimal (.finite ⟨true, 1, -2⟩)) ⟨true, 1, -2⟩ ∧
      Price.Refused (surface (Price.ofValue (.decimal (.finite ⟨true, 1, -2⟩)))) ∧
      ∃ e, sample .zero (oddPrice (.decimal (.finite ⟨true, 1, -2⟩))) [] = .error e := by
  have hvalue : (⟨true, 1, -2⟩ : Decimal).value = -1 / 100 := by norm_num [Decimal.value, Decimal.signed]
  have hlow : (⟨true, 1, -2⟩ : Decimal).value < -1 / 200 := by norm_num [hvalue]
  have hrefused : ∀ v t, samplePrices (oddPrice v) = .table t →
      (∃ row ∈ PriceSchedule.tableRows t, v ∈ row.cells) → Denotes v ⟨true, 1, -2⟩ → v.isShown = true →
      Price.Refused (surface (Price.ofValue v)) ∧ ∃ e, sample .zero (oddPrice v) [] = .error e := by
    intro v t ht hcell hv hshown
    have hsize : ¬ Money.Oversized v := by
      refine Money.not_oversized_of_le hv.decimalOf_eq (e := 0) (by norm_num) ?_
      norm_num [hvalue, abs_of_neg]
    obtain ⟨_, hrefused, _, hruns⟩ := negative_prices_beyond_half_cent hv (by norm_num [hvalue])
    refine ⟨hrefused.mpr ⟨hlow, hsize, hshown⟩, ?_⟩
    exact hruns hlow (samplePrices (oddPrice v)) t (by rw [ht]; rfl) hcell _ _ _ _ _
  have hdouble : Denotes (.real (-0.01)) ⟨true, 1, -2⟩ := .real (by decide +kernel)
  have hdecimal : Denotes (.decimal (.finite ⟨true, 1, -2⟩)) ⟨true, 1, -2⟩ := .decimal _
  refine ⟨⟨hdouble, hrefused _ _ rfl ?_ hdouble rfl⟩, hdecimal, hrefused _ _ rfl ?_ hdecimal rfl⟩ <;>
  refine ⟨_, List.mem_of_getElem? (i := 4) rfl, List.mem_cons_self⟩

/-- Minus four tenths of a cent are the price zero, in a run too, whether they come as a double or as a
decimal. -/
theorem negative_price_passes :
    (Denotes (.real (-0.004)) ⟨true, 4, -3⟩ ∧
      (∃ p, Price.ofValue (.real (-0.004)) = .ok p ∧ p.cents = 0) ∧
      ∃ report, sample .zero (oddPrice (.real (-0.004))) [] = .ok report) ∧
    Denotes (.decimal (.finite ⟨true, 4, -3⟩)) ⟨true, 4, -3⟩ ∧
      (∃ p, Price.ofValue (.decimal (.finite ⟨true, 4, -3⟩)) = .ok p ∧ p.cents = 0) ∧
      ∃ report, sample .zero (oddPrice (.decimal (.finite ⟨true, 4, -3⟩))) [] = .ok report := by
  have hvalue : (⟨true, 4, -3⟩ : Decimal).value = -4 / 1000 := by norm_num [Decimal.value, Decimal.signed]
  have hzero : ∀ v, Denotes v ⟨true, 4, -3⟩ → ∃ p, Price.ofValue v = .ok p ∧ p.cents = 0 := fun v hv =>
    Price.ofValue_of_half_cent hv (by norm_num [hvalue]) (by norm_num [hvalue])
  have hreports :
      (sample .zero (oddPrice (.real (-0.004))) []).toOption.any (fun _ => true) = true ∧
      (sample .zero (oddPrice (.decimal (.finite ⟨true, 4, -3⟩))) []).toOption.any (fun _ => true) = true := by
    unfold sample simulate PriceSchedule.ofInput PriceSchedule.ofRows WeightSchedule.ofInput
      WeightSchedule.ofMapping allSymbols Run.ofPeriods Run.step Run.record Run.takeStock
      Account.rebalance Account.orders Account.concerned Account.runStops StopBook.evaluate
      SymbolReturns.ofSchedule sampleWeights samplePrices oddPrice
    simp only [ascending_eq_insertionSort, stopOrder_eq_insertionSort,
      WeightSchedule.sortByTime_eq_insertionSort,
      mergeSort_eq_insertionSort PriceSchedule.rowLe_trans PriceSchedule.rowLe_total]
    decide +kernel
  obtain ⟨report, hreport, _⟩ := exists_of_check hreports.1
  obtain ⟨report', hreport', _⟩ := exists_of_check hreports.2
  have hdouble : Denotes (.real (-0.004)) ⟨true, 4, -3⟩ := .real (by decide +kernel)
  have hdecimal : Denotes (.decimal (.finite ⟨true, 4, -3⟩)) ⟨true, 4, -3⟩ := .decimal _
  exact ⟨⟨hdouble, hzero _ hdouble, report, hreport⟩, hdecimal, hzero _ hdecimal, report', hreport'⟩

end Backtest
end PortfolioLab
