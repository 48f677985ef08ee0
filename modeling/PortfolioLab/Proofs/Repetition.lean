import PortfolioLab.Proofs.Targets

/-!
# A rebalance without costs, repeated

Without costs a rebalance keeps the equity, and so the targets. A purchase that falls short leaves less
cash than one unit costs, and later purchases only spend more of it: the same rebalance, repeated, finds
nothing to sell and nothing that it can buy.
-/

namespace PortfolioLab

/-! ## Purchases without costs -/

namespace CostModel

theorem total_partsOf_zero (gross : Int) : (zero.partsOf gross).total = 0 := by
  by_cases h : gross = 0
  · rw [h]
    rfl
  · have hrate : rateOf gross 0 = 0 := by
      rw [rateOf, Int.natCast_zero, mul_zero]
      exact divHalfEven_zero 10000
    rw [total_partsOf h]
    simp [zero, hrate]

theorem eq_zero_of_fee {notional : Int} {fee : Cents} (h : zero.fee notional = .ok fee) : fee = 0 := by
  obtain ⟨_, _, rfl⟩ := fee_eq_ok_iff.mp h
  exact total_partsOf_zero _

theorem fee_zero {notional : Int} (h : Cents.InRange notional) : zero.fee notional = .ok 0 :=
  fee_eq_ok_iff.mpr ⟨h, by decide, (total_partsOf_zero _).symm⟩

theorem Exhausted.cash_lt {price requested bought cash : Int}
    (h : zero.Exhausted price requested bought cash) : cash < price := by
  obtain ⟨full, paid, hfull, hpaid, hcash⟩ := h
  rw [eq_zero_of_fee hfull, eq_zero_of_fee hpaid] at hcash
  linarith

theorem affordable_zero_eq_zero {quantity price cash : Int} (hq : 0 < quantity) (hp : 0 < price)
    (hrange : Cents.InRange (quantity * price)) (hcash : cash < price) :
    zero.affordable quantity price cash = .ok 0 := by
  have hvalue : price ≤ quantity * price := le_mul_of_one_le_left hp.le hq
  have hcut : cut price cash 0 < 1 := cut_lt hp Int.one_pos (by linarith)
  have hsign : 0 ≤ cut price cash 0 := le_max_right _ _
  rw [affordable_eq hq.le hp (fee_zero hrange), if_neg (by omega)]
  exact congrArg Except.ok (by omega)

end CostModel

namespace Account

variable {a a' sold : Account} {time : Instant} {equity : Cents} {targets : Targets}
  {bars : Register Bar} {stopped : List String} {symbol : String} {price : Cents} {os : List Order}
  {o : Order}

structure Order.Buys (o : Order) : Prop where
  quantity : 0 < o.quantity
  price : 0 < o.price
  value : Cents.InRange (o.quantity * o.price)

theorem buy_eq_self (ho : o.Buys) (hcash : a.cash < o.price) (time : Instant) :
    buy .zero time a o = .ok a := by
  unfold buy
  rw [CostModel.affordable_zero_eq_zero ho.quantity ho.price ho.value hcash]
  rfl

/-! ## The second rebalance -/

namespace Passes

variable (h : Passes .zero time targets bars stopped a equity os sold a') (ha : a.Marked bars)
  (hl : LongOnly targets) (hb : Quoted bars)

include h ha hl hb

theorem netWorth_eq : a'.netWorth = equity := by
  obtain ⟨new, _, hfees, hworth⟩ := h.charged ha hl hb
  have hfree : (new.map (·.fee)).sum = 0 := List.sum_eq_zero fun fee hm => by
    obtain ⟨t, ht, rfl⟩ := List.mem_map.mp hm
    exact CostModel.eq_zero_of_fee (hfees t ht)
  rw [hworth, hfree, sub_zero, (netWorth_of_equity h.valued).1]

/-- A symbol holds its target, or misses some of it and has a price above the cash that is left. -/
theorem held_or_cash_lt (hm : symbol ∈ concerned targets a) (ht : Tradable bars stopped symbol price) :
    a'.held symbol = target equity targets symbol price ∨
      a'.held symbol < target equity targets symbol price ∧ a'.cash < price := by
  obtain ⟨hsold, hbought⟩ := h.held_target ha hl hb hm ht
  rcases le_or_gt (target equity targets symbol price) (a.held symbol) with hle | hlt
  · exact .inl (hsold hle)
  · obtain ⟨_, hhigh, hfull | hshort⟩ := hbought hlt
    · exact .inl hfull
    · exact hhigh.eq_or_lt.imp_right fun hmissing => ⟨hmissing, hshort.cash_lt⟩

theorem mem_concerned_of_after (hm : symbol ∈ concerned targets a') : symbol ∈ concerned targets a := by
  by_cases hs : symbol ∈ os.map (·.symbol)
  · obtain ⟨o, ho, rfl⟩ := List.mem_map.mp hs
    exact mem_concerned_of_orders h.orders o ho
  · have hsame : symbol ∈ a'.positions.symbols ↔ symbol ∈ a.positions.symbols := by
      rw [← Register.isSome_find?_iff, ← Register.isSome_find?_iff, h.find?_other ha hl hb hs]
    rw [mem_concerned, hsame] at hm
    exact mem_concerned.mpr hm

/-- The shares are those of the first rebalance, and can be computed again. -/
theorem exists_orders_after : ∃ rest, a'.orders equity targets bars stopped = .ok rest := by
  have hfound : ∀ symbol ∈ concerned targets a',
      ∃ r, orderFor equity targets bars stopped a' symbol = .ok r := by
    intro symbol hm
    obtain ⟨r, horder, _⟩ := exists_orderFor h.orders (h.mem_concerned_of_after ha hl hb hm)
    exact exists_orderFor_of horder a'
  obtain ⟨found, hfound⟩ := exists_mapM hfound
  exact ⟨found.filterMap id, bind_eq_ok.mpr ⟨found, hfound, rfl⟩⟩

/-- What is still missing is to be bought, and the cash does not pay for one unit of it. -/
theorem orders_after {rest : List Order} (hrest : a'.orders equity targets bars stopped = .ok rest)
    (ho : o ∈ rest) : o.Buys ∧ a'.cash < o.price := by
  obtain ⟨hm, ht, hquantity, hne⟩ := (mem_orders_iff hb hrest).mp ho
  have hconcerned := h.mem_concerned_of_after ha hl hb hm
  obtain ⟨hlt, hcash⟩ := (h.held_or_cash_lt ha hl hb hconcerned ht).resolve_left fun he => hne (by omega)
  have hpos : 0 < o.quantity := by omega
  have hheld := (h.long ha hl hb).held_nonneg o.symbol
  exact ⟨⟨hpos, ht.positive, h.inRange_of_le_target hb hconcerned ht hpos.le (by omega)⟩, hcash⟩

/-- The same rebalance changes nothing, if the equity can be computed again. -/
theorem rebalance_after {worth : Cents} (hworth : a'.equity = .ok worth) (later : Instant) :
    rebalance .zero later targets bars stopped a' = .ok a' := by
  obtain rfl : worth = equity := (netWorth_of_equity hworth).1.trans (h.netWorth_eq ha hl hb)
  obtain ⟨rest, hrest⟩ := h.exists_orders_after ha hl hb
  have hsells : rest.filter (·.quantity < 0) = [] := List.filter_eq_nil_iff.mpr fun o ho => by
    have hbuys := (h.orders_after ha hl hb hrest ho).1
    simpa using hbuys.quantity.le
  have hbuys : (rest.filter (0 < ·.quantity)).foldlM (buy .zero later) a' = .ok a' := by
    refine foldlM_eq_self fun o ho => ?_
    obtain ⟨hbuys, hcash⟩ := h.orders_after ha hl hb hrest (List.mem_filter.mp ho).1
    exact buy_eq_self hbuys hcash later
  refine bind_eq_ok.mpr ⟨worth, hworth, ?_⟩
  rw [if_neg (not_le.mpr h.positive)]
  refine bind_eq_ok.mpr ⟨rest, hrest, bind_eq_ok.mpr ⟨a', ?_, hbuys⟩⟩
  rw [hsells]
  rfl

end Passes

/-- Without costs, a rebalance that returned does nothing when it is repeated with the same targets, bars
and stopped symbols: it only works out the equity again, and returns the account as it is. The equity can
be worked out if no last close is negative. It is what it was before the first rebalance, and a symbol that
misses some of its target costs more than the cash that is left. -/
theorem rebalance_idempotent (ha : a.Marked bars) (hl : LongOnly targets) (hb : Quoted bars)
    (h : rebalance .zero time targets bars stopped a = .ok a') (later : Instant) :
    rebalance .zero later targets bars stopped a' = (a'.equity.map fun _ => a') ∧
      ((∀ symbol price, a.lastClose.find? symbol = some price → 0 ≤ price) →
        rebalance .zero later targets bars stopped a' = .ok a') ∧
      ∀ equity, a.equity = .ok equity → 0 < equity → a'.netWorth = equity ∧
        ∀ symbol price, symbol ∈ targets.symbols ∨ symbol ∈ a.positions.symbols →
          Tradable bars stopped symbol price →
          a'.held symbol = target equity targets symbol price ∨
            a'.held symbol < target equity targets symbol price ∧ a'.cash < price := by
  obtain ⟨equity, hequity, ⟨hnone, rfl⟩ | ⟨os, sold, h⟩⟩ := passes_of_rebalance h
  · have hagain : rebalance .zero later targets bars stopped a' = .ok a' := by
      refine bind_eq_ok.mpr ⟨equity, hequity, ?_⟩
      rw [if_pos hnone]
      rfl
    refine ⟨by rw [hagain, hequity]; rfl, fun _ => hagain, fun worth hworth hpos => ?_⟩
    cases hequity.symm.trans hworth
    exact absurd hpos (not_lt.mpr hnone)
  · refine ⟨?_, fun hclosing => h.rebalance_after ha hl hb (h.equity_after ha hl hb hclosing) later,
      fun worth hworth _ => ?_⟩
    · cases hworth : a'.equity with
      | ok worth => exact h.rebalance_after ha hl hb hworth later
      | error e =>
        unfold rebalance
        rw [hworth]
        rfl
    · cases hequity.symm.trans hworth
      exact ⟨h.netWorth_eq ha hl hb, fun symbol price hm ht =>
        h.held_or_cash_lt ha hl hb (mem_concerned.mpr hm) ht⟩

def overTargets : Targets := [("A", 0.5), ("B", 0.75)]

/-- The second symbol is bought as far as the cash goes, and 15 units of it are still missing. -/
theorem rebalance_idempotent_capped : ∃ a',
    rebalance .zero ⟨0⟩ overTargets threeBars [] twoHeld = .ok a' ∧ a'.held "B" = 38 ∧
      target 2150 overTargets "B" 30 = 53 ∧
      rebalance .zero ⟨1⟩ overTargets threeBars [] a' = .ok a' := by
  have hrun : (rebalance .zero ⟨0⟩ overTargets threeBars [] twoHeld).toOption.any
      (·.held "B" = 38) = true := by
    unfold rebalance orders concerned
    simp only [ascending_eq_insertionSort]
    decide +kernel
  obtain ⟨a', h, hheld⟩ := exists_of_check hrun
  have hlong : LongOnly overTargets := longOnly_of_forall_mem (by decide +kernel)
  have hclosing : ∀ symbol price, twoHeld.lastClose.find? symbol = some price → 0 ≤ price :=
    fun symbol price hprice =>
      (show ∀ entry ∈ twoHeld.lastClose, 0 ≤ entry.2 by decide) (symbol, price) (Register.mem_of_find? hprice)
  obtain ⟨_, hagain, _⟩ := rebalance_idempotent marked_twoHeld hlong quoted_threeBars h ⟨1⟩
  exact ⟨a', h, of_decide_eq_true hheld, by decide +kernel, hagain hclosing⟩

end Account
end PortfolioLab
