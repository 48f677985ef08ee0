import PortfolioLab.Proofs.Rounding
import PortfolioLab.Proofs.Schedules

/-!
# Ranges of prices, positions and trades

A price is not negative and fits into a signed 64-bit word, and the amounts of a position and a trade
fit into one. Most of them are checked where they are written; the average entry price is not, and lies
between zero and the cost.
-/

namespace PortfolioLab

/-! ## Prices -/

namespace Cents

structure IsPrice (n : Int) : Prop where
  nonneg : 0 ≤ n
  le_max : n ≤ maxCents

theorem IsPrice.inRange {n : Int} (h : IsPrice n) : InRange n :=
  ⟨Int.le_trans (by decide) h.nonneg, h.le_max⟩

theorem isPrice_zero : IsPrice 0 := ⟨le_rfl, by decide⟩

theorem inRange_zero : InRange 0 := isPrice_zero.inRange

theorem IsPrice.max {n m : Int} (hn : IsPrice n) (hm : IsPrice m) : IsPrice (max n m) :=
  ⟨hn.nonneg.trans (le_max_left _ _), max_le hn.le_max hm.le_max⟩

theorem inRange_divHalfEven {n d : Int} (hd : 0 < d) (hn : InRange n) :
    InRange (divHalfEven n d) := by
  obtain ⟨hlow, hhigh⟩ := hn
  have hlow' : minCents * d ≤ n := by
    have hscaled : minCents * d ≤ minCents * 1 :=
      mul_le_mul_of_nonpos_left (by omega) (by decide)
    omega
  have hhigh' : n ≤ maxCents * d := by
    have hscaled : maxCents * 1 ≤ maxCents * d :=
      mul_le_mul_of_nonneg_left (by omega) (by decide)
    omega
  exact ⟨le_divHalfEven hd hlow', divHalfEven_le hd hhigh'⟩

end Cents

open Cents (InRange IsPrice)

structure Bar.Priced (b : Bar) : Prop where
  close : IsPrice b.close
  opening : ∀ p ∈ b.opening, IsPrice p
  high : ∀ p ∈ b.high, IsPrice p
  low : ∀ p ∈ b.low, IsPrice p

theorem Bar.Priced.best {b : Bar} (h : b.Priced) : IsPrice b.best := by
  unfold Bar.best
  cases hhigh : b.high with
  | none => exact h.close
  | some p => exact h.high p hhigh

theorem Bar.Priced.gapReference {b : Bar} (h : b.Priced) : IsPrice b.gapReference := by
  unfold Bar.gapReference
  cases hopening : b.opening with
  | some p => exact h.opening p hopening
  | none =>
    cases hhigh : b.high with
    | none => exact h.close
    | some p => exact h.high p hhigh

/-- A cell that counts as missing: one that is empty, or that holds not-a-number. -/
inductive Value.IsMissing : Value → Prop
  | null : IsMissing .null
  | notANumber {x : Float} (h : x.isNaN = true) : IsMissing (.real x)

/-- A missing cell is no amount. -/
theorem Value.IsMissing.decimalOf_ne {v : Value} (h : v.IsMissing) (d : Decimal) :
    Money.decimalOf v ≠ .ok d := by
  intro hd
  cases h with
  | null => cases hd
  | notANumber hnan =>
    simp only [Money.decimalOf] at hd
    split at hd
    · next hshortest =>
      obtain ⟨_, hdecode, _⟩ := Option.map_eq_some_iff.mp hshortest
      exact absurd hnan (ne_true_of_eq_false (Binary64.isNaN_of_decode? hdecode))
    · cases hd

namespace PriceSchedule

theorem isPrice_cents (p : Price) : IsPrice p.cents := ⟨p.nonneg, p.inRange.2⟩

/-- The cell of an absent column gives no price, and neither does a missing cell; any other gives the
price that it is. -/
theorem optionalCents_cases {cell : Option Value} {found : Option Cents}
    (h : optionalCents cell = .ok found) :
    (∀ v ∈ cell, v.IsMissing) ∧ found = none ∨
      ∃ v p, cell = some v ∧ ¬ v.IsMissing ∧ Price.ofValue v = .ok p ∧ found = some p.cents := by
  unfold optionalCents at h
  split at h
  · cases h
    exact .inl ⟨by simp, rfl⟩
  · cases h
    exact .inl ⟨fun _ hv => Option.mem_some_iff.mp hv ▸ .null, rfl⟩
  · next x =>
    split at h
    · next hnan =>
      cases h
      exact .inl ⟨fun _ hv => Option.mem_some_iff.mp hv ▸ .notANumber hnan, rfl⟩
    · next hnumber =>
      obtain ⟨p, hp, hfound⟩ := bind_eq_ok.mp h
      cases hfound
      exact .inr ⟨_, p, rfl, fun hmissing => by cases hmissing with | notANumber h => exact hnumber h,
        hp, rfl⟩
  · next v hnull hreal =>
    obtain ⟨p, hp, hfound⟩ := bind_eq_ok.mp h
    cases hfound
    refine .inr ⟨v, p, rfl, fun hmissing => ?_, hp, rfl⟩
    cases hmissing with
    | null => exact hnull rfl
    | notANumber _ => exact hreal _ rfl

/-- What the prices of a bar are made of. -/
theorem of_barOf {row : PriceRow} {bar : Bar} (h : barOf row = .ok bar) :
    (∃ p, Price.ofValue row.close = .ok p ∧ bar.close = p.cents) ∧
      optionalCents row.opening = .ok bar.opening ∧ optionalCents row.high = .ok bar.high ∧
        optionalCents row.low = .ok bar.low := by
  obtain ⟨close, hclose, h⟩ := bind_eq_ok.mp h
  obtain ⟨opening, hopening, h⟩ := bind_eq_ok.mp h
  obtain ⟨high, hhigh, h⟩ := bind_eq_ok.mp h
  obtain ⟨low, hlow, h⟩ := bind_eq_ok.mp h
  cases h
  exact ⟨⟨close, hclose, rfl⟩, hopening, hhigh, hlow⟩

theorem priced_of_barOf {row : PriceRow} {bar : Bar} (h : barOf row = .ok bar) : bar.Priced := by
  have hoptional : ∀ {cell found}, optionalCents cell = .ok found → ∀ n ∈ found, IsPrice n := by
    intro cell found hcell n hn
    rcases optionalCents_cases hcell with ⟨_, rfl⟩ | ⟨_, p, _, _, _, rfl⟩
    · cases hn
    · rw [← Option.mem_some_iff.mp hn]
      exact isPrice_cents p
  obtain ⟨⟨p, _, hp⟩, hopening, hhigh, hlow⟩ := of_barOf h
  exact ⟨hp ▸ isPrice_cents p, hoptional hopening, hoptional hhigh, hoptional hlow⟩

private theorem all_addBar {P : Bar → Prop} {periods : List PeriodBars} {row : PriceRow} {bar : Bar}
    (h : ∀ p ∈ periods, p.bars.All P) (hbar : P bar) :
    ∀ p ∈ addBar periods row bar, p.bars.All P := by
  have hnew : Register.All P [(row.symbol, bar)] :=
    Register.all_cons.mpr ⟨hbar, Register.all_nil⟩
  fun_induction PriceSchedule.addBar periods row bar with
  | case1 => exact List.forall_mem_singleton.mpr hnew
  | case2 last heq =>
    exact List.forall_mem_singleton.mpr ((h last List.mem_cons_self).put hbar)
  | case3 last hne =>
    exact List.forall_mem_cons.mpr ⟨h last List.mem_cons_self, List.forall_mem_singleton.mpr hnew⟩
  | case4 first rest _ ih =>
    exact List.forall_mem_cons.mpr ⟨h first List.mem_cons_self,
      ih fun p hp => h p (List.mem_cons_of_mem _ hp)⟩

/-- Every bar of a period is the bar of a row. -/
theorem all_periods {rows : PriceSchedule} {bars : List PeriodBars} (h : rows.periods = .ok bars) :
    ∀ p ∈ bars, p.bars.All fun bar => ∃ row ∈ rows, barOf row = .ok bar := by
  refine foldlM_keeps (I := fun periods : List PeriodBars =>
      ∀ p ∈ periods, p.bars.All fun bar => ∃ row ∈ rows, barOf row = .ok bar)
    (fun periods row hrow periods' hperiods hadd => ?_) (fun p hp => absurd hp List.not_mem_nil) h
  obtain ⟨bar, hbar, hadd⟩ := bind_eq_ok.mp hadd
  cases hadd
  exact all_addBar hperiods ⟨row, hrow, hbar⟩

/-- Every row of a schedule that has periods has a bar. -/
theorem exists_barOf_of_periods {rows : PriceSchedule} {bars : List PeriodBars}
    (h : rows.periods = .ok bars) {row : PriceRow} (hrow : row ∈ rows) : ∃ bar, barOf row = .ok bar := by
  obtain ⟨periods, after, hstep⟩ := exists_step_of_foldlM h row hrow
  obtain ⟨bar, hbar, _⟩ := bind_eq_ok.mp hstep
  exact ⟨bar, hbar⟩

theorem priced_periods {rows : PriceSchedule} {bars : List PeriodBars} (h : rows.periods = .ok bars) :
    ∀ p ∈ bars, p.bars.All Bar.Priced := by
  intro p hp entry hentry
  obtain ⟨row, _, hbar⟩ := all_periods h p hp entry hentry
  exact priced_of_barOf hbar

end PriceSchedule

/-! ## Positions and trades -/

structure Position.InRange (p : Position) : Prop where
  quantity : 0 ≤ p.quantity
  averageEntry : Cents.InRange p.averageEntry
  totalCost : Cents.InRange p.totalCost
  realizedProfit : Cents.InRange p.realizedProfit

namespace Position

theorem inRange_fresh : InRange {} :=
  ⟨le_rfl, Cents.inRange_zero, Cents.inRange_zero, Cents.inRange_zero⟩

variable {p : Position} {quantity price : Int} {r : Unit × Position}

theorem InRange.buy (h : p.InRange) (hq : 0 < quantity)
    (hbuy : (buy quantity price).commit p = .ok r) : r.2.InRange := by
  rw [commit_buy] at hbuy
  obtain ⟨cost, hcost, hbuy⟩ := bind_eq_ok.mp hbuy
  obtain ⟨average, haverage, hbuy⟩ := bind_eq_ok.mp hbuy
  cases hbuy
  obtain ⟨rfl, hrange⟩ := Cents.eq_of_check hcost
  have hquantity := h.quantity
  have hpos : 0 < p.quantity + quantity := by omega
  rw [Cents.divide_of_ne_zero _ hpos.ne'] at haverage
  cases haverage
  exact ⟨hpos.le, Cents.inRange_divHalfEven hpos hrange, hrange, h.realizedProfit⟩

theorem InRange.sell (h : p.InRange) (hsell : (sell quantity price).commit p = .ok r) :
    r.2.InRange := by
  rw [commit_sell] at hsell
  obtain ⟨realized, hrealized, hsell⟩ := bind_eq_ok.mp hsell
  obtain ⟨cost, hcost, hsell⟩ := bind_eq_ok.mp hsell
  cases hsell
  obtain ⟨rfl, hrealizedRange⟩ := Cents.eq_of_check hrealized
  obtain ⟨rfl, hcostRange⟩ := Cents.eq_of_check hcost
  refine ⟨?_, ?_, hcostRange, hrealizedRange⟩
  · dsimp only
    omega
  · dsimp only
    split
    · exact Cents.inRange_zero
    · exact h.averageEntry

theorem InRange.fill (h : p.InRange) (hfill : (fill quantity price).commit p = .ok r) :
    r.2.InRange := by
  unfold Position.fill at hfill
  split at hfill
  · next hq => exact h.buy hq hfill
  · split at hfill
    · exact h.sell hfill
    · cases hfill
      exact h

end Position

structure Trade.InRange (t : Trade) : Prop where
  price : Cents.InRange t.price
  fee : Cents.InRange t.fee
  notional : ∃ n, t.notional = .ok n ∧ Cents.InRange n

theorem CostModel.inRange_of_fee {m : CostModel} {notional : Int} {fee : Cents}
    (h : m.fee notional = .ok fee) : Cents.InRange fee := by
  obtain ⟨parts, _, h⟩ := bind_eq_ok.mp h
  obtain ⟨rfl, hrange⟩ := Cents.eq_of_check h
  exact hrange

theorem Account.inRange_of_settle {model : CostModel} {cash : Cents} {position : Position}
    {symbol : String} {time : Instant} {quantity price : Int} {reason : TradeReason}
    {r : Cents × Position × Trade} (hposition : position.InRange) (hprice : Cents.InRange price)
    (h : settle model cash position symbol time quantity price reason = .ok r) :
    Cents.InRange r.1 ∧ r.2.1.InRange ∧ r.2.2.InRange := by
  obtain ⟨fee, hfee, h⟩ := bind_eq_ok.mp h
  obtain ⟨notional, hnotional, h⟩ := bind_eq_ok.mp h
  obtain ⟨rest, hrest, h⟩ := bind_eq_ok.mp h
  obtain ⟨⟨_, filled⟩, hfill, h⟩ := bind_eq_ok.mp h
  cases h
  obtain ⟨rfl, hrange⟩ := Cents.eq_of_check hnotional
  exact ⟨((Cents.sum_keyed _).of_ok hrest).2.1, hposition.fill hfill,
    hprice, CostModel.inRange_of_fee hfee, _, Cents.check_of_inRange hrange, hrange⟩

end PortfolioLab
