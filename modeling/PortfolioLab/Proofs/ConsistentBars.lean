import PortfolioLab.Proofs.Breaches
import PortfolioLab.Proofs.Conversions
import PortfolioLab.Proofs.NearestDoubles
import PortfolioLab.Proofs.PriceChecks
import PortfolioLab.Proofs.TradeRanges

/-!
# Consistent bars

The prices of a row are checked as doubles and become cents as decimals. Doubles in one order stand for
decimals in that order, and rounding to a cent keeps it, so a bar is consistent unless two of its cells
stand for different decimals by the same double. Such cells are not both doubles, and one of them has more
than fifteen digits.
-/

namespace PortfolioLab

open Money (decimalOf toCents)

variable {v w : Value} {row : PriceRow} {bar : Bar}

/-- The cells of a row of which the first must not be above the second. -/
inductive PriceRow.Bounds (row : PriceRow) : Value → Value → Prop
  | low_opening {low opening : Value} (hl : low ∈ row.low) (ho : opening ∈ row.opening) :
      Bounds row low opening
  | low_close {low : Value} (hl : low ∈ row.low) : Bounds row low row.close
  | opening_high {opening high : Value} (ho : opening ∈ row.opening) (hh : high ∈ row.high) :
      Bounds row opening high
  | close_high {high : Value} (hh : high ∈ row.high) : Bounds row row.close high

/-- Two cells that hold the same double, although the first is more cents than the second. One of them has
more than fifteen digits. -/
structure Value.Blurred (v w : Value) : Prop where
  double : ∃ x, v.cellNumber = .ok x ∧ w.cellNumber = .ok x
  cents : ∃ n m, toCents v = .ok n ∧ toCents w = .ok m ∧ m < n
  digits : ∃ d e, decimalOf v = .ok d ∧ decimalOf w = .ok e ∧
    (10 ^ 15 ≤ d.coefficient ∨ 10 ^ 15 ≤ e.coefficient)

/-- Two doubles are not blurred. -/
theorem Value.Blurred.not_real (h : v.Blurred w) : ¬ ((∃ x, v = .real x) ∧ ∃ y, w = .real y) := by
  rintro ⟨⟨x, rfl⟩, y, rfl⟩
  obtain ⟨_, hx, hy⟩ := h.double
  obtain ⟨n, m, hn, hm, hlt⟩ := h.cents
  cases hx
  cases hy
  rw [hn] at hm
  cases hm
  exact lt_irrefl _ hlt

/-! ## Pairs of cells -/

namespace Binary64

variable {r : ℚ → ℚ → Prop} {pick : Float → Float → Float} {x y : Float} {a b : Dyadic}

/-- A choice of one of two doubles, of which the first may be not-a-number, that stands in a relation to
both. -/
def Picks (r : ℚ → ℚ → Prop) (pick : Float → Float → Float) : Prop :=
  ∀ {x y b}, x.isInf = false → decode? y = some b →
    ∃ c, decode? (pick x y) = some c ∧ r c.value b.value ∧ ∀ a, decode? x = some a → r c.value a.value

private theorem exists_picked {test : Prop} [Decidable test] (hr : ∀ q, r q q) (hx : x.isInf = false)
    (hy : decode? y = some b)
    (htest : ∀ a, decode? x = some a → if test then r b.value a.value else r a.value b.value) :
    ∃ c, decode? (if x.isNaN then y else if y.isNaN then x else if test then y else x) = some c ∧
      r c.value b.value ∧ ∀ a, decode? x = some a → r c.value a.value := by
  have hnumber := isNaN_of_decode? hy
  cases hnan : x.isNaN with
  | true =>
    refine ⟨b, hy, hr _, fun a ha => ?_⟩
    exact absurd hnan (ne_true_of_eq_false (isNaN_of_decode? ha))
  | false =>
    obtain ⟨a, ha⟩ := exists_decode?_of_bounded hx hnan
    have hchosen := htest a ha
    rw [if_neg Bool.false_ne_true, if_neg (ne_true_of_eq_false hnumber)]
    by_cases h : test
    · rw [if_pos h] at hchosen ⊢
      exact ⟨b, hy, hr _, fun a' ha' => Option.some.inj (ha.symm.trans ha') ▸ hchosen⟩
    · rw [if_neg h] at hchosen ⊢
      exact ⟨a, ha, hchosen, fun a' ha' => Option.some.inj (ha.symm.trans ha') ▸ hr _⟩

theorem picks_lesser : Picks (· ≤ ·) PriceSchedule.lesser := by
  intro x y b hx hy
  refine exists_picked (fun q => le_refl q) hx hy fun a ha => ?_
  split
  · next hlt => exact ((lt_iff_value_lt hy ha).mp hlt).le
  · next hle => exact not_lt.mp (mt (lt_iff_value_lt hy ha).mpr hle)

theorem picks_greater : Picks (· ≥ ·) PriceSchedule.greater := by
  intro x y b hx hy
  refine exists_picked (fun q => le_refl q) hx hy fun a ha => ?_
  split
  · next hlt => exact ((lt_iff_value_lt ha hy).mp hlt).le
  · next hle => exact not_lt.mp (mt (lt_iff_value_lt ha hy).mpr hle)

end Binary64

namespace PriceRow.Checked

open Binary64 (decode? Picks lt_iff_value_lt)

/-- A low or high is compared with a double on one side of the opening and the closing price. -/
private theorem decode?_limit {r : ℚ → ℚ → Prop} {pick : Float → Float → Float} (hpick : Picks r pick)
    (hr : ∀ q, r q q) (h : row.Checked) : ∃ c, decode? (row.limit pick) = some c ∧
      (∀ a, decode? row.close.double = some a → r c.value a.value) ∧
      ∀ v ∈ row.opening, ∀ a, decode? v.double = some a → r c.value a.value := by
  obtain ⟨b, hb⟩ := Binary64.exists_decode?_of_isFinite h.close
  unfold PriceRow.limit
  cases hopening : row.opening with
  | none =>
    refine ⟨b, hb, fun a ha => ?_, fun v hv => nomatch hv⟩
    exact Option.some.inj (hb.symm.trans ha) ▸ hr _
  | some v =>
    have hcell : v ∈ row.cells := by simp [cells, hopening]
    obtain ⟨c, hc, hclose, hv⟩ := hpick (h.bounded v hcell) hb
    refine ⟨c, hc, fun a ha => Option.some.inj (hb.symm.trans ha) ▸ hclose, fun w hw => ?_⟩
    cases hw
    exact hv

/-- In a row that has passed the checks, cells that hold numbers are in order as doubles. -/
theorem value_le {a b : Binary64.Dyadic} (h : row.Checked) (hpair : row.Bounds v w)
    (hv : decode? v.double = some a) (hw : decode? w.double = some b) : a.value ≤ b.value := by
  obtain ⟨floor, hfloor, hclose, hopening⟩ := h.decode?_limit Binary64.picks_lesser fun q => le_refl q
  obtain ⟨roof, hroof, hclose', hopening'⟩ := h.decode?_limit Binary64.picks_greater fun q => le_refl q
  cases hpair with
  | low_opening hl ho =>
    have hle := h.low v hl
    rw [lt_iff_value_lt hfloor hv, not_lt] at hle
    exact hle.trans (hopening w ho b hw)
  | low_close hl =>
    have hle := h.low v hl
    rw [lt_iff_value_lt hfloor hv, not_lt] at hle
    exact hle.trans (hclose b hw)
  | opening_high ho hh =>
    have hle := h.high w hh
    rw [lt_iff_value_lt hw hroof, not_lt] at hle
    exact (hopening' v ho a hv).trans hle
  | close_high hh =>
    have hle := h.high w hh
    rw [lt_iff_value_lt hw hroof, not_lt] at hle
    exact (hclose' a hv).trans hle

end PriceRow.Checked

theorem Value.blurred_of_lt {n m : Cents} (hv : v.cellNumber = .ok v.double)
    (hw : w.cellNumber = .ok w.double) (hle : ∀ a b, Binary64.decode? v.double = some a →
      Binary64.decode? w.double = some b → a.value ≤ b.value)
    (hvb : v.double.isInf = false) (hwb : w.double.isInf = false)
    (hn : toCents v = .ok n) (hm : toCents w = .ok m) (hnonneg : 0 ≤ m) (hlt : m < n) : v.Blurred w := by
  obtain ⟨d, hd, hdn, _⟩ := Money.exists_of_toCents hn
  obtain ⟨e, he, hem, _⟩ := Money.exists_of_toCents hm
  have hbelow : e.value < d.value := by
    by_contra hnot
    refine hlt.not_ge (hdn.mono hem ?_)
    have hscale : (0 : ℚ) < 10 ^ (2 : ℤ) := by positivity
    exact mul_le_mul_of_nonneg_right (not_lt.mp hnot) hscale.le
  have hlarge : 1 / 200 ≤ d.value := by
    have hone : (1 : ℚ) ≤ n := by exact_mod_cast Int.add_one_le_of_lt (hnonneg.trans_lt hlt)
    have hnear := (abs_le.mp hdn.near).1
    norm_num at hnear
    linarith
  obtain ⟨a, ha, hcovers⟩ := (Value.rounds_cellNumber hv hd).resolve_left (by simp [hvb])
  obtain ⟨b, hb, hcovers'⟩ := (Value.rounds_cellNumber hw he).resolve_left (by simp [hwb])
  have hra := Binary64.regular_of_decode? ha
  have hrb := Binary64.regular_of_decode? hb
  -- doubles in the other order would stand for decimals in that order
  have hvalues : a.value = b.value := by
    refine le_antisymm (hle a b ha hb) ?_
    by_contra h
    exact hbelow.not_ge (hcovers.le hra hrb hcovers' (not_le.mp h))
  have hsame : a = b := hra.eq_of_value_eq hrb hvalues (hcovers.value_ne_zero hra hlarge)
  subst hsame
  have hdouble := Binary64.eq_of_decode? ha hb
  refine ⟨⟨_, hv, hdouble ▸ hw⟩, ⟨n, m, hn, hm, hlt⟩, d, e, hd, he, ?_⟩
  by_contra hfew
  rw [not_or, not_le, not_le] at hfew
  exact hbelow.not_ge (hcovers.le_of_few_digits hra hcovers' hfew.1 hfew.2 hlarge)

/-! ## Bars -/

theorem Price.toCents_of_ofValue {p : Price} (h : Price.ofValue v = .ok p) : toCents v = .ok p.cents := by
  obtain ⟨n, hn, h⟩ := bind_eq_ok.mp h
  unfold Price.ofCents at h
  split at h
  · split at h
    · cases h
      exact hn
    · cases h
  · cases h

theorem Value.IsMissing.toCents_ne (h : v.IsMissing) (n : Cents) : toCents v ≠ .ok n := by
  intro hn
  obtain ⟨d, hd, _⟩ := Money.exists_of_toCents hn
  exact h.decimalOf_ne d hd

theorem PriceRow.Bounds.mem_cells (h : row.Bounds v w) : v ∈ row.cells ∧ w ∈ row.cells := by
  simp only [cells, List.mem_cons, List.mem_append, Option.mem_toList]
  cases h with
  | low_opening hl ho => exact ⟨.inr (.inr hl), .inr (.inl (.inl ho))⟩
  | low_close hl => exact ⟨.inr (.inr hl), .inl rfl⟩
  | opening_high ho hh => exact ⟨.inr (.inl (.inl ho)), .inr (.inl (.inr hh))⟩
  | close_high hh => exact ⟨.inl rfl, .inr (.inl (.inr hh))⟩

namespace PriceSchedule

/-- A bar has a price for each cell that is an amount, and no others. -/
theorem mem_found_iff {cell : Option Value} {found : Option Cents} (h : optionalCents cell = .ok found)
    (n : Cents) : n ∈ found ↔ ∃ v ∈ cell, toCents v = .ok n := by
  rcases optionalCents_cases h with ⟨hmissing, rfl⟩ | ⟨v, p, rfl, _, hp, rfl⟩
  · refine iff_of_false (fun hn => nomatch hn) ?_
    rintro ⟨v, hv, hn⟩
    exact (hmissing v hv).toCents_ne n hn
  · have hcents := Price.toCents_of_ofValue hp
    constructor
    · intro hn
      cases hn
      exact ⟨v, rfl, hcents⟩
    · rintro ⟨w, hw, hn⟩
      cases hw
      cases hcents.symm.trans hn
      rfl

/-- Cells that are not blurred are in order in cents. -/
theorem cents_le {n m : Cents} (hchecked : row.Checked) (hpair : row.Bounds v w) (hclear : ¬ v.Blurred w)
    (hn : toCents v = .ok n) (hm : toCents w = .ok m) (hnonneg : 0 ≤ m) : n ≤ m := by
  obtain ⟨hv, hw⟩ := hpair.mem_cells
  by_contra hlt
  exact hclear (Value.blurred_of_lt (hchecked.reads v hv) (hchecked.reads w hw)
    (fun a b ha hb => hchecked.value_le hpair ha hb) (hchecked.bounded v hv) (hchecked.bounded w hw) hn hm
    hnonneg (not_le.mp hlt))

/-- A bar is consistent exactly if its row has no blurred pair of cells. -/
theorem consistent_iff (hchecked : row.Checked) (hbar : barOf row = .ok bar) :
    bar.Consistent ↔ ∀ v w, row.Bounds v w → ¬ v.Blurred w := by
  obtain ⟨⟨p, hclose, hprice⟩, hopening, hhigh, hlow⟩ := of_barOf hbar
  have hcents := Price.toCents_of_ofValue hclose
  rw [← hprice] at hcents
  have hpriced := priced_of_barOf hbar
  constructor
  · intro hconsistent v w hpair hblurred
    obtain ⟨n, m, hn, hm, hlt⟩ := hblurred.cents
    refine hlt.not_ge ?_
    cases hpair with
    | low_opening hl ho =>
      exact hconsistent.low_le_opening n ((mem_found_iff hlow n).mpr ⟨v, hl, hn⟩) m
        ((mem_found_iff hopening m).mpr ⟨w, ho, hm⟩)
    | low_close hl =>
      cases hcents.symm.trans hm
      exact hconsistent.low_le_close n ((mem_found_iff hlow n).mpr ⟨v, hl, hn⟩)
    | opening_high ho hh =>
      exact hconsistent.opening_le_high m ((mem_found_iff hhigh m).mpr ⟨w, hh, hm⟩) n
        ((mem_found_iff hopening n).mpr ⟨v, ho, hn⟩)
    | close_high hh =>
      cases hcents.symm.trans hn
      exact hconsistent.close_le_high m ((mem_found_iff hhigh m).mpr ⟨w, hh, hm⟩)
  · intro hclear
    refine ⟨fun n hn m hm => ?_, fun n hn => ?_, fun m hm n hn => ?_, fun m hm => ?_⟩
    · obtain ⟨v, hl, hv⟩ := (mem_found_iff hlow n).mp hn
      obtain ⟨w, ho, hw⟩ := (mem_found_iff hopening m).mp hm
      have hpair := PriceRow.Bounds.low_opening hl ho
      exact cents_le hchecked hpair (hclear v w hpair) hv hw (hpriced.opening m hm).nonneg
    · obtain ⟨v, hl, hv⟩ := (mem_found_iff hlow n).mp hn
      have hpair := PriceRow.Bounds.low_close hl
      exact cents_le hchecked hpair (hclear v _ hpair) hv hcents hpriced.close.nonneg
    · obtain ⟨v, ho, hv⟩ := (mem_found_iff hopening n).mp hn
      obtain ⟨w, hh, hw⟩ := (mem_found_iff hhigh m).mp hm
      have hpair := PriceRow.Bounds.opening_high ho hh
      exact cents_le hchecked hpair (hclear v w hpair) hv hw (hpriced.high m hm).nonneg
    · obtain ⟨w, hh, hw⟩ := (mem_found_iff hhigh m).mp hm
      have hpair := PriceRow.Bounds.close_high hh
      exact cents_le hchecked hpair (hclear _ w hpair) hcents hw (hpriced.high m hm).nonneg

variable {input : PriceInput} {rows : PriceSchedule} {bars : List PeriodBars}

/-- Every bar is made of a row that passed the checks, and it is consistent exactly if no two cells of this
row are blurred. So it is consistent if the cells are doubles, and if none has more than fifteen digits. -/
theorem bars_consistent_unless_blurred (hrows : ofInput input = .ok rows)
    (hbars : rows.periods = .ok bars) :
    ∀ p ∈ bars, ∀ entry ∈ p.bars, ∃ row ∈ rows, barOf row = .ok entry.2 ∧
      (entry.2.Consistent ↔ ∀ v w, row.Bounds v w → ¬ v.Blurred w) ∧
      ((∀ v ∈ row.cells, v.IsMissing ∨ ∃ x, v = .real x) → entry.2.Consistent) ∧
      ((∀ v ∈ row.cells, ∀ d, decimalOf v = .ok d → d.coefficient < 10 ^ 15) → entry.2.Consistent) := by
  intro p hp entry hentry
  obtain ⟨row, hrow, hbar⟩ := all_periods hbars p hp entry hentry
  have hiff := consistent_iff (checked_of_ofInput hrows row hrow) hbar
  refine ⟨row, hrow, hbar, hiff, fun hreal => ?_, fun hshort => ?_⟩
  · refine hiff.mpr fun v w hpair hblurred => hblurred.not_real ?_
    obtain ⟨hv, hw⟩ := hpair.mem_cells
    obtain ⟨n, m, hn, hm, _⟩ := hblurred.cents
    exact ⟨(hreal v hv).resolve_left fun h => h.toCents_ne n hn,
      (hreal w hw).resolve_left fun h => h.toCents_ne m hm⟩
  · refine hiff.mpr fun v w hpair hblurred => ?_
    obtain ⟨hv, hw⟩ := hpair.mem_cells
    obtain ⟨d, e, hd, he, hdigits⟩ := hblurred.digits
    rcases hdigits with hmany | hmany
    · exact hmany.not_gt (hshort v hv d hd)
    · exact hmany.not_gt (hshort w hw e he)

/-! ## Two blurred rows -/

def oneRow (high close : Value) : Table where
  columns := ["event_time", "symbol", "high", "close"]
  rows := [[.text "2024-01-02", .text "A", high, close]]

/-- The bars of a table of one row. -/
private theorem exists_bars {high close : Value} {bar : Bar}
    (h : (ofInput (.table (oneRow high close)) >>= periods).toOption.any
      (fun bars => bars.any fun p => p.bars.any fun entry => entry.2 = bar) = true) :
    ∃ rows bars, ofInput (.table (oneRow high close)) = .ok rows ∧ periods rows = .ok bars ∧
      ∃ p ∈ bars, ∃ entry ∈ p.bars, entry.2 = bar := by
  obtain ⟨bars, hmade, hany⟩ := exists_of_check h
  obtain ⟨rows, hrows, hbars⟩ := bind_eq_ok.mp hmade
  obtain ⟨p, hp, hentry⟩ := List.any_eq_true.mp hany
  obtain ⟨entry, hentry, hbar⟩ := List.any_eq_true.mp hentry
  exact ⟨rows, bars, hrows, hbars, p, hp, entry, hentry, of_decide_eq_true hbar⟩

/-- Two whole numbers of dollars that are one double. -/
theorem bars_consistent_unless_blurred_whole : ∃ rows bars,
    ofInput (.table (oneRow (.int 9007199254740992) (.int 9007199254740993))) = .ok rows ∧
      periods rows = .ok bars ∧ ∃ row ∈ rows, ∃ v w, row.Bounds v w ∧ v.Blurred w := by
  have hmade : (ofInput (.table (oneRow (.int 9007199254740992) (.int 9007199254740993))) >>=
      periods).toOption.any (fun bars => bars.any fun p => p.bars.any fun entry =>
        entry.2 = { close := 900719925474099300, high := some 900719925474099200 }) = true := by
    unfold ofInput ofRows
    simp only [mergeSort_eq_insertionSort rowLe_trans rowLe_total]
    decide +kernel
  obtain ⟨rows, bars, hrows, hbars, p, hp, entry, hentry, hbar⟩ := exists_bars hmade
  obtain ⟨row, hrow, _, hiff, _⟩ := bars_consistent_unless_blurred hrows hbars p hp entry hentry
  refine ⟨rows, bars, hrows, hbars, row, hrow, ?_⟩
  by_contra hclear
  have hconsistent := hiff.mpr fun v w hpair hblurred => hclear ⟨v, w, hpair, hblurred⟩
  rw [hbar] at hconsistent
  exact absurd (hconsistent.close_le_high _ rfl) (by decide)

/-- A high of twelve and a half cents below a close that is a trace more than this becomes a high of twelve
cents and a close of thirteen. -/
theorem high_below_close_passes : ∃ rows bars,
    ofInput (.table (oneRow (.text "0.125") (.text "0.1250000000000000001"))) = .ok rows ∧
      periods rows = .ok bars ∧ ∃ p ∈ bars, ∃ entry ∈ p.bars, ¬ entry.2.Consistent := by
  have hmade : (ofInput (.table (oneRow (.text "0.125") (.text "0.1250000000000000001"))) >>=
      periods).toOption.any (fun bars => bars.any fun p => p.bars.any fun entry =>
        entry.2 = { close := 13, high := some 12 }) = true := by
    unfold ofInput ofRows
    simp only [mergeSort_eq_insertionSort rowLe_trans rowLe_total]
    decide +kernel
  obtain ⟨rows, bars, hrows, hbars, p, hp, entry, hentry, hbar⟩ := exists_bars hmade
  refine ⟨rows, bars, hrows, hbars, p, hp, entry, hentry, fun hconsistent => ?_⟩
  rw [hbar] at hconsistent
  exact absurd (hconsistent.close_le_high _ rfl) (by decide)

end PriceSchedule
end PortfolioLab
