import PortfolioLab.Proofs.Orders
import PortfolioLab.Proofs.Purchases

/-!
# A rebalance and its targets

A rebalance sells down to the targets exactly, and buys towards them as far as the cash goes. It leaves
alone what cannot be traded, and costs the account the fees of its trades.
-/

namespace PortfolioLab.Account

variable {a a' sold : Account} {model : CostModel} {time : Instant} {equity : Cents} {targets : Targets}
  {bars : Register Bar} {stopped : List String} {symbol : String} {price : Cents} {os : List Order}

/-- An account whose positions are long, and whose last closes are those of the bars. -/
structure Marked (bars : Register Bar) (a : Account) : Prop where
  long : a.Long
  closes : ∀ symbol bar, bars.find? symbol = some bar → a.lastClose.find? symbol = some bar.close

theorem Marked.lastClose (h : a.Marked bars) (ht : Tradable bars stopped symbol price) :
    a.lastClose.find? symbol = some price := by
  obtain ⟨bar, hbar, rfl⟩ := ht.quoted
  exact h.closes symbol bar hbar

structure Passes (model : CostModel) (time : Instant) (targets : Targets) (bars : Register Bar)
    (stopped : List String) (a : Account) (equity : Cents) (os : List Order) (sold a' : Account) :
    Prop where
  positive : 0 < equity
  valued : a.equity = .ok equity
  orders : a.orders equity targets bars stopped = .ok os
  sells : (os.filter (·.quantity < 0)).foldlM (sell model time) a = .ok sold
  buys : (os.filter (0 < ·.quantity)).foldlM (buy model time) sold = .ok a'

theorem passes_of_rebalance (h : rebalance model time targets bars stopped a = .ok a') :
    ∃ equity, a.equity = .ok equity ∧
      ((equity ≤ 0 ∧ a' = a) ∨ ∃ os sold, Passes model time targets bars stopped a equity os sold a') := by
  obtain ⟨equity, hequity, h⟩ := bind_eq_ok.mp h
  refine ⟨equity, hequity, ?_⟩
  split at h
  · next hnone =>
    cases h
    exact .inl ⟨hnone, rfl⟩
  · next hsome =>
    obtain ⟨os, horders, h⟩ := bind_eq_ok.mp h
    obtain ⟨sold, hsells, hbuys⟩ := bind_eq_ok.mp h
    exact .inr ⟨os, sold, not_le.mp hsome, hequity, horders, hsells, hbuys⟩

namespace Passes

variable (h : Passes model time targets bars stopped a equity os sold a')

include h

/-- There is one order for a symbol: it is in one of the two passes. -/
theorem symbol_notMem_filter {o : Order} {p : Order → Bool} (ho : o ∈ os) (hp : p o = false) :
    o.symbol ∉ (os.filter p).map (·.symbol) := by
  intro hm
  obtain ⟨other, hother, he⟩ := List.mem_map.mp hm
  obtain ⟨hmem, hpass⟩ := List.mem_filter.mp hother
  obtain rfl := List.inj_on_of_nodup_map (nodup_of_orders h.orders) hmem ho he
  rw [hp] at hpass
  cases hpass

variable (ha : a.Marked bars) (hl : LongOnly targets) (hb : Quoted bars)

include hl hb

theorem covered {o : Order} (ho : o ∈ os) : 0 ≤ a.held o.symbol + o.quantity := by
  obtain ⟨hm, ht, hquantity, _⟩ := (mem_orders_iff hb h.orders).mp ho
  have htarget := target_nonneg h.positive.le hl hb h.orders hm ht
  omega

omit hl in
/-- What does not exceed the target is worth an amount. -/
theorem inRange_of_le_target {quantity : Int} (hm : symbol ∈ concerned targets a)
    (ht : Tradable bars stopped symbol price) (hpos : 0 ≤ quantity)
    (hle : quantity ≤ target equity targets symbol price) : Cents.InRange (quantity * price) := by
  refine ⟨le_trans (by decide) (mul_nonneg hpos ht.positive.le), ?_⟩
  calc quantity * price ≤ target equity targets symbol price * price :=
        mul_le_mul_of_nonneg_right hle ht.positive.le
    _ ≤ share equity targets symbol := Int.ediv_mul_le _ ht.positive.ne'
    _ ≤ maxCents := (Money.inRange_of_scale (share_of_orders hb h.orders hm ht)).2

include ha

theorem carriedSells : Carried model (fun o q => q = o.quantity) (os.filter (·.quantity < 0)) a sold := by
  have hsub : ∀ o ∈ os.filter (·.quantity < 0), o ∈ os := fun o ho => (List.mem_filter.mp ho).1
  refine carried_of_foldlM (fun o _ a a' _ hcovered hsell => ?_)
    ((nodup_of_orders h.orders).sublist (List.filter_sublist.map _)) ha.long (fun o ho => ?_)
    (fun o ho => h.covered hl hb (hsub o ho)) h.sells
  · obtain ⟨fee, hfee, hcash, hposted⟩ := sell_posts hcovered hsell
    exact .inr ⟨_, hposted, rfl, rfl, hfee, rfl, hcash⟩
  · exact ha.lastClose ((mem_orders_iff hb h.orders).mp (hsub o ho)).2.1

theorem carriedBuys : Carried model (fun o q => 0 ≤ q ∧ q ≤ o.quantity) (os.filter (0 < ·.quantity))
    sold a' := by
  have hsells := h.carriedSells ha hl hb
  have hmem : ∀ o ∈ os.filter (0 < ·.quantity), o ∈ os ∧ 0 < o.quantity := fun o ho => by
    simpa using ho
  refine carried_of_foldlM (fun o ho a a' hlong _ hbuy => ?_)
    ((nodup_of_orders h.orders).sublist (List.filter_sublist.map _)) hsells.long (fun o ho => ?_)
    (fun o ho => ?_) h.buys
  · obtain ⟨quantity, haffordable, hnone | ⟨hpos, fee, hfee, hcash, hposted⟩⟩ :=
      buy_posts (hlong.held_nonneg _) hbuy
    · exact .inl ⟨hnone.2, le_rfl, (hmem o ho).2.le⟩
    · have hbuys := (CostModel.affordable_keyed _ _ _).of_ok haffordable
      obtain ⟨_, hlimit, _⟩ := hbuys.resolve_left hpos.ne'
      exact .inr ⟨_, hposted, rfl, rfl, hfee, ⟨hpos.le, hlimit⟩, hcash⟩
  · rw [hsells.lastClose]
    exact ha.lastClose ((mem_orders_iff hb h.orders).mp (hmem o ho).1).2.1
  · exact add_nonneg (hsells.long.held_nonneg _) (hmem o ho).2.le

theorem find?_other (hs : symbol ∉ os.map (·.symbol)) :
    a'.positions.find? symbol = a.positions.find? symbol := by
  have hnot : ∀ p : Order → Bool, symbol ∉ (os.filter p).map (·.symbol) := fun p hm =>
    hs ((List.filter_sublist.map _).subset hm)
  rw [(h.carriedBuys ha hl hb).others symbol (hnot _), (h.carriedSells ha hl hb).others symbol (hnot _)]

/-- A sale is made in full, and a purchase as far as the cash goes. -/
theorem held_order {o : Order} (ho : o ∈ os) :
    (o.quantity < 0 → a'.held o.symbol = a.held o.symbol + o.quantity) ∧
    (0 < o.quantity → a.held o.symbol ≤ a'.held o.symbol ∧
      a'.held o.symbol ≤ a.held o.symbol + o.quantity ∧
      (a'.held o.symbol = a.held o.symbol + o.quantity ∨
        model.Exhausted o.price o.quantity (a'.held o.symbol - a.held o.symbol) a'.cash)) := by
  have hsells := h.carriedSells ha hl hb
  have hbuys := h.carriedBuys ha hl hb
  constructor
  · intro hsale
    have hmoved := hsells.moved o (List.mem_filter.mpr ⟨ho, decide_eq_true hsale⟩)
    have hkept := held_congr (hbuys.others _
      (h.symbol_notMem_filter ho (decide_eq_false (not_lt.mpr hsale.le))))
    omega
  · intro hpurchase
    have hmem : o ∈ os.filter (0 < ·.quantity) := List.mem_filter.mpr ⟨ho, decide_eq_true hpurchase⟩
    have hkept := held_congr (hsells.others _
      (h.symbol_notMem_filter ho (decide_eq_false (not_lt.mpr hpurchase.le))))
    have hpriced : ∀ other ∈ os.filter (0 < ·.quantity), 0 < other.quantity ∧ 0 < other.price := by
      intro other hother
      obtain ⟨hother, hpos⟩ := List.mem_filter.mp hother
      exact ⟨of_decide_eq_true hpos, ((mem_orders_iff hb h.orders).mp hother).2.1.positive⟩
    have hmoved := hbuys.moved o hmem
    have hspent := (buys_spend ((nodup_of_orders h.orders).sublist (List.filter_sublist.map _)) hpriced
      hsells.long h.buys).2.2 o hmem
    rw [hkept] at hmoved hspent
    exact ⟨by omega, by omega, hspent⟩

/-- A symbol that can be traded is sold down to its target, or bought towards it. -/
theorem held_target (hm : symbol ∈ concerned targets a) (ht : Tradable bars stopped symbol price) :
    (target equity targets symbol price ≤ a.held symbol →
      a'.held symbol = target equity targets symbol price) ∧
    (a.held symbol < target equity targets symbol price →
      a.held symbol ≤ a'.held symbol ∧ a'.held symbol ≤ target equity targets symbol price ∧
      (a'.held symbol = target equity targets symbol price ∨
        model.Exhausted price (target equity targets symbol price - a.held symbol)
          (a'.held symbol - a.held symbol) a'.cash)) := by
  by_cases heq : target equity targets symbol price = a.held symbol
  · -- there is no order, and what is held is the target
    have hnone : symbol ∉ os.map (·.symbol) := by
      intro hmap
      obtain ⟨o, ho, rfl⟩ := List.mem_map.mp hmap
      obtain ⟨_, ht', hquantity, hne⟩ := (mem_orders_iff hb h.orders).mp ho
      obtain rfl := ht.eq ht'
      omega
    have hkept := held_congr (h.find?_other ha hl hb hnone)
    exact ⟨fun _ => hkept.trans heq.symm, fun hlt => absurd heq hlt.ne'⟩
  · have ho : ⟨symbol, target equity targets symbol price - a.held symbol, price⟩ ∈ os :=
      (mem_orders_iff hb h.orders).mpr ⟨hm, ht, rfl, sub_ne_zero.mpr heq⟩
    obtain ⟨hsale, hpurchase⟩ := h.held_order ha hl hb ho
    dsimp only at hsale hpurchase
    rw [add_sub_cancel] at hsale hpurchase
    exact ⟨fun hle => hsale (sub_neg.mpr (lt_of_le_of_ne hle heq)),
      fun hlt => hpurchase (sub_pos.mpr hlt)⟩

theorem charged : Charged model a a' :=
  (h.carriedSells ha hl hb).charged.trans (h.carriedBuys ha hl hb).charged

theorem long : a'.Long := (h.carriedBuys ha hl hb).long

theorem lastClose : a'.lastClose = a.lastClose :=
  (h.carriedBuys ha hl hb).lastClose.trans (h.carriedSells ha hl hb).lastClose

theorem eq_or_inRange : a' = a ∨ Cents.InRange a'.cash ∧ Cents.InRange equity := by
  cases os with
  | nil =>
    cases h.sells
    cases h.buys
    exact .inl rfl
  | cons o os =>
    obtain ⟨hm, ht, _⟩ := (mem_orders_iff hb h.orders).mp List.mem_cons_self
    have hequity := Money.inRange_units_of_scale (share_of_orders hb h.orders hm ht)
    rcases (h.carriedBuys ha hl hb).cash with rfl | hcash
    · exact (h.carriedSells ha hl hb).cash.imp_right fun hcash => ⟨hcash, hequity⟩
    · exact .inr ⟨hcash, hequity⟩

/-- A position that was bought or sold is worth no more than the share of its symbol. -/
theorem valued_position (hclosing : ∀ symbol price, a.lastClose.find? symbol = some price → 0 ≤ price)
    {position : Position} (hp : a'.positions.find? symbol = some position) :
    symbol ∈ a.lastClose.symbols ∧ Cents.InRange (valueAt a.lastClose symbol position) ∧
      0 ≤ valueAt a.lastClose symbol position := by
  by_cases hs : symbol ∈ os.map (·.symbol)
  · obtain ⟨o, ho, rfl⟩ := List.mem_map.mp hs
    obtain ⟨hm, ht, _⟩ := (mem_orders_iff hb h.orders).mp ho
    have hprice := ha.lastClose ht
    have hpos := (h.long ha hl hb).positive _ _ hp
    have hheld : position.quantity ≤ target equity targets o.symbol o.price := by
      have hmoved := h.held_target ha hl hb hm ht
      rw [held_of_find? hp] at hmoved
      omega
    rw [valueAt, hprice]
    exact ⟨Register.exists_find?_iff.mp ⟨_, hprice⟩, h.inRange_of_le_target hb hm ht hpos.le hheld,
      mul_nonneg hpos.le ht.positive.le⟩
  · rw [h.find?_other ha hl hb hs] at hp
    obtain ⟨hmem, hrange⟩ := (netWorth_of_equity h.valued).2 _ (Register.mem_of_find? hp)
    obtain ⟨price, hprice⟩ := Register.exists_find?_iff.mpr hmem
    refine ⟨hmem, hrange, ?_⟩
    rw [valueAt, hprice]
    exact mul_nonneg (ha.long.positive _ _ hp).le (hclosing _ _ hprice)

/-- The equity after the rebalance can be computed: it is the equity before less the fees. -/
theorem equity_after (hclosing : ∀ symbol price, a.lastClose.find? symbol = some price → 0 ≤ price) :
    a'.equity = .ok a'.netWorth := by
  rcases h.eq_or_inRange ha hl hb with rfl | ⟨hcash, hequity⟩
  · rw [h.valued, (netWorth_of_equity h.valued).1]
  have hlong := h.long ha hl hb
  have hvalued : ∀ entry ∈ a'.positions, entry.1 ∈ a'.lastClose.symbols ∧
      Cents.InRange (valueAt a'.lastClose entry.1 entry.2) ∧
      0 ≤ valueAt a'.lastClose entry.1 entry.2 := by
    intro entry hm
    rw [h.lastClose ha hl hb]
    exact h.valued_position ha hl hb hclosing ((Register.find?_eq_some_iff hlong.distinct).mpr hm)
  have hsign := fun entry hm => (hvalued entry hm).2.2
  obtain ⟨new, _, hfees, hworth⟩ := h.charged ha hl hb
  have hpaid : 0 ≤ (new.map (·.fee)).sum := List.sum_nonneg fun fee hm => by
    obtain ⟨t, ht, rfl⟩ := List.mem_map.mp hm
    exact CostModel.fee_nonneg (hfees t ht)
  have hupper : a'.netWorth ≤ equity := by
    rw [hworth, ← (netWorth_of_equity h.valued).1]
    exact sub_le_self _ hpaid
  have hlower : a'.cash ≤ a'.netWorth := le_add_of_nonneg_right (Register.amount_nonneg hsign)
  exact equity_eq_netWorth (fun entry hm => ⟨(hvalued entry hm).1, (hvalued entry hm).2.1⟩) hsign hcash
    ⟨hcash.1.trans hlower, hupper.trans hequity.2⟩

end Passes

/-- A rebalance that returns, of an account whose last closes are those of the bars. Without positive
equity it changes nothing. Otherwise take any symbol of targets or positions that can be traded: what is
held beyond its target is sold, so that the target is held and no position is left if that is zero; and
what is missing to its target is bought, in part only if the cash that is left does not pay for one unit
more. All other positions stay as they are. The trades that were added are charged by the cost model, and
their fees are all that the equity loses. -/
theorem rebalance_reaches_targets (ha : a.Marked bars) (hl : LongOnly targets) (hb : Quoted bars)
    (h : rebalance model time targets bars stopped a = .ok a') :
    ∃ equity, a.equity = .ok equity ∧ (equity ≤ 0 → a' = a) ∧ (0 < equity →
      (∀ symbol price, symbol ∈ targets.symbols ∨ symbol ∈ a.positions.symbols →
        Tradable bars stopped symbol price →
        (target equity targets symbol price ≤ a.held symbol →
          a'.held symbol = target equity targets symbol price ∧
          (target equity targets symbol price = 0 → symbol ∉ a'.positions.symbols)) ∧
        (a.held symbol < target equity targets symbol price →
          a.held symbol ≤ a'.held symbol ∧ a'.held symbol ≤ target equity targets symbol price ∧
          (a'.held symbol = target equity targets symbol price ∨
            model.Exhausted price (target equity targets symbol price - a.held symbol)
              (a'.held symbol - a.held symbol) a'.cash))) ∧
      (∀ symbol, (∀ price, Tradable bars stopped symbol price →
          ¬ (symbol ∈ targets.symbols ∨ symbol ∈ a.positions.symbols)) →
        a'.positions.find? symbol = a.positions.find? symbol) ∧
      ∃ new, a'.trades = a.trades ++ new ∧
        (∀ t ∈ new, model.fee (t.quantity * t.price) = .ok t.fee) ∧
        a'.lastClose = a.lastClose ∧ a'.netWorth = equity - (new.map (·.fee)).sum ∧
        (∀ later, a'.equity = .ok later → later = equity - (new.map (·.fee)).sum) ∧
        ((∀ symbol price, a.lastClose.find? symbol = some price → 0 ≤ price) →
          a'.equity = .ok (equity - (new.map (·.fee)).sum))) := by
  obtain ⟨equity, hequity, hnone | ⟨os, sold, h⟩⟩ := passes_of_rebalance h
  · exact ⟨equity, hequity, fun _ => hnone.2, fun hpos => absurd hpos (not_lt.mpr hnone.1)⟩
  refine ⟨equity, hequity, fun hle => absurd h.positive (not_lt.mpr hle), fun _ => ⟨?_, ?_, ?_⟩⟩
  · intro symbol price hm ht
    obtain ⟨hsold, hbought⟩ := h.held_target ha hl hb (mem_concerned.mpr hm) ht
    refine ⟨fun hle => ⟨hsold hle, fun hzero hmem => ?_⟩, hbought⟩
    exact (h.long ha hl hb).mem_iff.mp hmem ((hsold hle).trans hzero)
  · intro symbol hnot
    refine h.find?_other ha hl hb fun hs => ?_
    obtain ⟨o, ho, rfl⟩ := List.mem_map.mp hs
    obtain ⟨hm, ht, _⟩ := (mem_orders_iff hb h.orders).mp ho
    exact hnot _ ht (mem_concerned.mp hm)
  · obtain ⟨new, htrades, hfees, hworth⟩ := h.charged ha hl hb
    rw [← (netWorth_of_equity h.valued).1] at hworth
    refine ⟨new, htrades, hfees, h.lastClose ha hl hb, hworth, fun later hlater => ?_, fun hclosing => ?_⟩
    · rw [(netWorth_of_equity hlater).1, hworth]
    · rw [h.equity_after ha hl hb hclosing, hworth]

def threeBars : Register Bar := [("A", { close := 100 }), ("B", { close := 30 }), ("C", { close := 50 })]

def twoHeld : Account where
  cash := 1000
  positions := [("A", ⟨10, 100, 1000, 0⟩), ("C", ⟨3, 50, 150, 0⟩)]
  lastClose := [("A", 100), ("B", 30), ("C", 50)]

def twoTargets : Targets := [("A", 0.25), ("B", 0.75)]

theorem longOnly_of_forall_mem (h : ∀ entry ∈ targets, entry.2.isFinite ∧ ¬ entry.2 < 0) :
    LongOnly targets := fun symbol w hw => h (symbol, w) (Register.mem_of_find? hw)

theorem marked_twoHeld : twoHeld.Marked threeBars where
  long := by
    refine ⟨by decide, fun symbol position hp => ?_⟩
    simp only [twoHeld, Register.find?] at hp
    split_ifs at hp <;> cases hp <;> decide
  closes := by
    intro symbol bar hbar
    simp only [threeBars, Register.find?] at hbar
    simp only [twoHeld, Register.find?]
    split_ifs at hbar ⊢ <;> cases hbar <;> rfl

theorem longOnly_twoTargets : LongOnly twoTargets :=
  longOnly_of_forall_mem (by decide +kernel)

theorem quoted_threeBars : Quoted threeBars := fun _ _ hbar =>
  (show ∀ entry ∈ threeBars, 0 ≤ entry.2.close by decide) _ (Register.mem_of_find? hbar)

/-- At a cost of five percent the account sells five units of the first symbol and all of the third, and
buys what the cash pays for of the 53 units of the second. -/
theorem rebalance_reaches_targets_mixed : ∃ a',
    rebalance ⟨500, 0, 0⟩ ⟨0⟩ twoTargets threeBars [] twoHeld = .ok a' ∧ a'.held "A" = 5 ∧
      "C" ∉ a'.positions.symbols ∧ 0 ≤ a'.held "B" ∧ a'.held "B" ≤ 53 := by
  have hrun : (rebalance ⟨500, 0, 0⟩ ⟨0⟩ twoTargets threeBars [] twoHeld).toOption.any
      (fun _ => true) = true := by
    unfold rebalance orders concerned
    simp only [ascending_eq_insertionSort]
    decide +kernel
  obtain ⟨a', h, -⟩ := exists_of_check hrun
  obtain ⟨equity, hequity, _, hreached⟩ :=
    rebalance_reaches_targets marked_twoHeld longOnly_twoTargets quoted_threeBars h
  obtain rfl : 2150 = equity := Except.ok.inj hequity
  obtain ⟨hheld, _⟩ := hreached (by decide)
  have htradable : ∀ symbol price, (∃ bar, threeBars.find? symbol = some bar ∧ bar.close = price) →
      0 < price → Tradable threeBars [] symbol price := fun _ _ hquoted hpos =>
    ⟨List.not_mem_nil, hquoted, hpos⟩
  have hA := hheld "A" 100 (.inl (by decide)) (htradable _ _ ⟨_, rfl, rfl⟩ (by decide))
  have hB := hheld "B" 30 (.inl (by decide)) (htradable _ _ ⟨_, rfl, rfl⟩ (by decide))
  have hC := hheld "C" 50 (.inr (by decide)) (htradable _ _ ⟨_, rfl, rfl⟩ (by decide))
  rw [show target 2150 twoTargets "A" 100 = 5 by decide +kernel] at hA
  rw [show target 2150 twoTargets "B" 30 = 53 by decide +kernel] at hB
  rw [show target 2150 twoTargets "C" 50 = 0 by decide +kernel] at hC
  obtain ⟨hlow, hhigh, _⟩ := hB.2 (by decide)
  exact ⟨a', h, (hA.1 (by decide)).1, (hC.1 (by decide)).2 rfl, hlow, hhigh⟩

end PortfolioLab.Account
