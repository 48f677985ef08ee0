import PortfolioLab.Proofs.NetWorth
import PortfolioLab.Proofs.Purchases
import PortfolioLab.Proofs.Surroundings

/-!
# Orders and their fills

An order asks for what its symbol misses to the target, at the close. Orders that are carried out one
after the other move the positions of their own symbols, and cost the fees of their trades.
-/

namespace PortfolioLab.Account

variable {a a' : Account} {model : CostModel} {time : Instant} {equity : Cents} {targets : Targets}
  {bars : Register Bar} {stopped : List String} {symbol : String} {price : Cents} {o : Order}
  {os : List Order}

/-! ## What the orders ask for -/

/-- A symbol that can be traded at a price: it was not stopped, and its bar closes there, above zero. -/
structure Tradable (bars : Register Bar) (stopped : List String) (symbol : String) (price : Cents) :
    Prop where
  spared : symbol ∉ stopped
  quoted : ∃ bar, bars.find? symbol = some bar ∧ bar.close = price
  positive : 0 < price

theorem Tradable.eq {price' : Cents} (h : Tradable bars stopped symbol price)
    (h' : Tradable bars stopped symbol price') : price = price' := by
  obtain ⟨bar, hbar, rfl⟩ := h.quoted
  obtain ⟨bar', hbar', rfl⟩ := h'.quoted
  rw [Option.some.inj (hbar.symm.trans hbar')]

/-- The share of a symbol in the equity, by its weight if it has one. -/
def share (equity : Cents) (targets : Targets) (symbol : String) : Int :=
  Money.times equity ((targets.find? symbol).getD 0)

def target (equity : Cents) (targets : Targets) (symbol : String) (price : Cents) : Int :=
  share equity targets symbol / price

/-- A symbol that can be traded has an order unless its target is held, and no other has one. -/
theorem orderFor_eq_ok {found : Option Order} (hb : Quoted bars)
    (h : orderFor equity targets bars stopped a symbol = .ok found) :
    (found = none ∧ ∀ price, ¬ Tradable bars stopped symbol price) ∨
      ∃ price, Tradable bars stopped symbol price ∧
        Money.scale equity (.real ((targets.find? symbol).getD 0)) = .ok (share equity targets symbol) ∧
        found = if target equity targets symbol price = a.held symbol then none
          else some ⟨symbol, target equity targets symbol price - a.held symbol, price⟩ := by
  unfold orderFor at h
  split at h
  · next hstopped =>
    cases h
    exact .inl ⟨rfl, fun price ht => ht.spared (by simpa using hstopped)⟩
  · next hspared =>
    split at h
    · next hbar =>
      cases h
      refine .inl ⟨rfl, fun price ht => ?_⟩
      obtain ⟨bar, hbar', _⟩ := ht.quoted
      cases hbar.symm.trans hbar'
    · next bar hbar =>
      split at h
      · next hclose =>
        cases h
        refine .inl ⟨rfl, fun price ht => ?_⟩
        obtain ⟨bar', hbar', hprice⟩ := ht.quoted
        cases hbar.symm.trans hbar'
        exact absurd ht.positive (by rw [← hprice, hclose]; exact lt_irrefl 0)
      · next hclose =>
        obtain ⟨value, hvalue, h⟩ := bind_eq_ok.mp h
        have hpositive : 0 < bar.close := lt_of_le_of_ne (hb symbol bar hbar) (Ne.symm hclose)
        obtain rfl : value = share equity targets symbol := Money.scale_eq_times hvalue
        refine .inr ⟨bar.close, ⟨by simpa using hspared, ⟨bar, hbar, rfl⟩, hpositive⟩, hvalue, ?_⟩
        rw [Int.fdiv_eq_ediv_of_nonneg _ hpositive.le] at h
        exact (Except.ok.inj h).symm

theorem forall₂_orderFor (h : a.orders equity targets bars stopped = .ok os) :
    ∃ found, os = found.filterMap id ∧ List.Forall₂
      (fun symbol r => orderFor equity targets bars stopped a symbol = .ok r) (concerned targets a) found := by
  obtain ⟨found, hfound, h⟩ := bind_eq_ok.mp h
  cases h
  exact ⟨found, rfl, forall₂_of_mapM hfound⟩

theorem exists_orderFor (h : a.orders equity targets bars stopped = .ok os)
    (hm : symbol ∈ concerned targets a) :
    ∃ r, orderFor equity targets bars stopped a symbol = .ok r ∧ ∀ o, r = some o → o ∈ os := by
  obtain ⟨found, rfl, hfound⟩ := forall₂_orderFor h
  obtain ⟨r, hr, horder⟩ := exists_of_forall₂ hfound.flip symbol hm
  exact ⟨r, horder, fun o ho => List.mem_filterMap.mpr ⟨r, hr, ho⟩⟩

/-- Whether an order can be worked out does not depend on what is held. -/
theorem exists_orderFor_of {r : Option Order} (h : orderFor equity targets bars stopped a symbol = .ok r)
    (a' : Account) : ∃ r', orderFor equity targets bars stopped a' symbol = .ok r' := by
  unfold orderFor at h ⊢
  by_cases hstopped : stopped.contains symbol
  · exact ⟨none, if_pos hstopped⟩
  · rw [if_neg hstopped] at h ⊢
    cases hbar : bars.find? symbol with
    | none => exact ⟨none, rfl⟩
    | some bar =>
      simp only [hbar] at h
      by_cases hclose : bar.close = 0
      · exact ⟨none, if_pos hclose⟩
      · rw [if_neg hclose] at h
        obtain ⟨value, hvalue, _⟩ := bind_eq_ok.mp h
        dsimp only
        rw [if_neg hclose, hvalue]
        exact ⟨_, rfl⟩

/-- The orders, each by what it asks for. -/
theorem mem_orders_iff (hb : Quoted bars) (h : a.orders equity targets bars stopped = .ok os) :
    o ∈ os ↔ o.symbol ∈ concerned targets a ∧ Tradable bars stopped o.symbol o.price ∧
      o.quantity = target equity targets o.symbol o.price - a.held o.symbol ∧ o.quantity ≠ 0 := by
  constructor
  · intro ho
    have hconcerned := mem_concerned_of_orders h o ho
    obtain ⟨found, rfl, hfound⟩ := forall₂_orderFor h
    obtain ⟨_, hr, rfl⟩ := List.mem_filterMap.mp ho
    obtain ⟨symbol, _, horder⟩ := exists_of_forall₂ hfound _ hr
    rcases orderFor_eq_ok hb horder with ⟨hnone, _⟩ | ⟨price, ht, _, hsome⟩
    · cases hnone
    · split at hsome
      · cases hsome
      · next hne =>
        cases hsome
        exact ⟨hconcerned, ht, rfl, fun hzero => hne (Int.sub_eq_zero.mp hzero)⟩
  · rintro ⟨hconcerned, ht, hquantity, hne⟩
    obtain ⟨r, horder, hmem⟩ := exists_orderFor h hconcerned
    rcases orderFor_eq_ok hb horder with ⟨_, hnot⟩ | ⟨price, ht', _, hr⟩
    · exact absurd ht (hnot _)
    · obtain rfl := ht.eq ht'
      rw [if_neg fun he => hne (by rw [hquantity, he, Int.sub_self])] at hr
      refine hmem o (hr.trans ?_)
      rw [← hquantity]

theorem share_of_orders (hb : Quoted bars) (h : a.orders equity targets bars stopped = .ok os)
    (hm : symbol ∈ concerned targets a) (ht : Tradable bars stopped symbol price) :
    Money.scale equity (.real ((targets.find? symbol).getD 0)) = .ok (share equity targets symbol) := by
  obtain ⟨r, horder, _⟩ := exists_orderFor h hm
  rcases orderFor_eq_ok hb horder with ⟨_, hnot⟩ | ⟨_, _, hshare, _⟩
  · exact absurd ht (hnot _)
  · exact hshare

theorem nodup_of_orders (h : a.orders equity targets bars stopped = .ok os) :
    (os.map (·.symbol)).Nodup :=
  ((orders_priced equity targets bars stopped a).of_ok h).1.imp ne_of_lt

theorem target_nonneg (he : 0 ≤ equity) (hl : LongOnly targets) (hb : Quoted bars)
    (h : a.orders equity targets bars stopped = .ok os) (hm : symbol ∈ concerned targets a)
    (ht : Tradable bars stopped symbol price) : 0 ≤ target equity targets symbol price := by
  obtain ⟨hfinite, hsign⟩ := weight_nonneg hl symbol
  exact Int.ediv_nonneg (Money.scale_nonneg he hfinite hsign (share_of_orders hb h hm ht)) ht.positive.le

/-! ## Orders carried out -/

theorem sell_posts (hcovered : 0 ≤ a.held o.symbol + o.quantity) (h : sell model time a o = .ok a') :
    ∃ fee, model.fee (o.quantity * o.price) = .ok fee ∧ Cents.InRange a'.cash ∧
      Posted ⟨o.symbol, time, o.quantity, o.price, fee, .rebalance⟩ a a' := by
  obtain ⟨position, cash, rest, trade, hp, hsettle, hcases⟩ := sell_cases h
  have hrange : Cents.InRange cash := inRange_cash_of_settle hsettle
  obtain ⟨fee, hfee, hcash, hrest, rfl⟩ := (settle_keyed _ _ _ _ _ _ _ _).of_ok hsettle
  have hrest : rest.quantity = a.held o.symbol + o.quantity := by
    rw [held_of_find? hp] at hcovered ⊢
    exact hrest hcovered
  rcases hcases with ⟨hzero, rfl⟩ | ⟨hne, rfl⟩
  · exact ⟨fee, hfee, hrange, hcash, rfl, rfl, .inl ⟨rfl, hrest.symm.trans hzero⟩⟩
  · exact ⟨fee, hfee, hrange, hcash, rfl, rfl, .inr ⟨rest, rfl, hrest, by omega⟩⟩

/-- A purchase is of what can be afforded, and nothing happens if that is nothing. -/
theorem buy_posts (hheld : 0 ≤ a.held o.symbol) (h : buy model time a o = .ok a') :
    ∃ quantity, model.affordable o.quantity o.price a.cash = .ok quantity ∧
      ((quantity = 0 ∧ a' = a) ∨ 0 < quantity ∧ ∃ fee, model.fee (quantity * o.price) = .ok fee ∧
        Cents.InRange a'.cash ∧ Posted ⟨o.symbol, time, quantity, o.price, fee, .rebalance⟩ a a') := by
  obtain ⟨quantity, haffordable, hnone | ⟨hne, cash, position, trade, next, hsettle, rfl, h⟩⟩ :=
    buy_cases h
  · exact ⟨quantity, haffordable, .inl hnone⟩
  have hpos := (((CostModel.affordable_keyed _ _ _).of_ok haffordable).resolve_left hne).1
  have hrange : Cents.InRange cash := inRange_cash_of_settle hsettle
  obtain ⟨fee, hfee, hcash, hposition, rfl⟩ := (settle_keyed _ _ _ _ _ _ _ _).of_ok hsettle
  have hposition : position.quantity = a.held o.symbol + quantity := by
    rw [quantity_getD] at hposition
    exact hposition (by omega)
  refine ⟨quantity, haffordable, .inr ⟨hpos, fee, hfee, ?_⟩⟩
  rcases h with h | rfl
  · -- a new position: its stop is entered after the trade
    obtain ⟨book, rfl⟩ := enterStop_cases h
    exact ⟨hrange, hcash, rfl, rfl, .inr ⟨position, rfl, hposition, by omega⟩⟩
  · exact ⟨hrange, hcash, rfl, rfl, .inr ⟨position, rfl, hposition, by omega⟩⟩

/-- The trades that the second account has and the first has not: each is charged by the model, and their
fees are what the second account is worth less. -/
def Charged (model : CostModel) (a a' : Account) : Prop :=
  ∃ new, a'.trades = a.trades ++ new ∧ (∀ t ∈ new, model.fee (t.quantity * t.price) = .ok t.fee) ∧
    a'.netWorth = a.netWorth - (new.map (·.fee)).sum

theorem Charged.refl (model : CostModel) (a : Account) : Charged model a a :=
  ⟨[], by simp, fun _ hm => absurd hm List.not_mem_nil, by simp⟩

theorem Charged.trans {a'' : Account} (h : Charged model a a') (h' : Charged model a' a'') :
    Charged model a a'' := by
  obtain ⟨ts, htrades, hfees, hworth⟩ := h
  obtain ⟨us, htrades', hfees', hworth'⟩ := h'
  refine ⟨ts ++ us, by rw [htrades', htrades, List.append_assoc], fun t ht => ?_, ?_⟩
  · exact (List.mem_append.mp ht).elim (hfees t) (hfees' t)
  · rw [hworth', hworth, List.map_append, List.sum_append, Int.sub_sub]

theorem Charged.of_posted {t : Trade} (h : Posted t a a') (ha : a.Long)
    (hprice : a.lastClose.find? t.symbol = some t.price)
    (hfee : model.fee (t.quantity * t.price) = .ok t.fee) : Charged model a a' := by
  refine ⟨[t], h.trades, fun u hu => ?_, ?_⟩
  · rwa [List.mem_singleton.mp hu]
  · rw [h.netWorth ha hprice]
    simp

/-- One order carried out: a trade in its symbol at its price, of a quantity that is allowed, or nothing
if that is allowed. -/
def Fulfils (model : CostModel) (allowed : Order → Int → Prop) (o : Order) (a a' : Account) : Prop :=
  (a' = a ∧ allowed o 0) ∨ ∃ t, Posted t a a' ∧ t.symbol = o.symbol ∧ t.price = o.price ∧
    model.fee (t.quantity * t.price) = .ok t.fee ∧ allowed o t.quantity ∧ Cents.InRange a'.cash

/-- The account after orders were carried out one after the other, each by a quantity that is allowed. -/
structure Carried (model : CostModel) (allowed : Order → Int → Prop) (os : List Order)
    (a a' : Account) : Prop where
  lastClose : a'.lastClose = a.lastClose
  long : a'.Long
  moved : ∀ o ∈ os, allowed o (a'.held o.symbol - a.held o.symbol)
  others : ∀ symbol, symbol ∉ os.map (·.symbol) →
    a'.positions.find? symbol = a.positions.find? symbol
  charged : Charged model a a'
  cash : a' = a ∨ Cents.InRange a'.cash

variable {allowed : Order → Int → Prop}

theorem Carried.nil (ha : a.Long) : Carried model allowed [] a a :=
  ⟨rfl, ha, fun _ hm => absurd hm List.not_mem_nil, fun _ _ => rfl, .refl model a, .inl rfl⟩

theorem Fulfils.carried (h : Fulfils model allowed o a a') (ha : a.Long)
    (hprice : a.lastClose.find? o.symbol = some o.price) : Carried model allowed [o] a a' := by
  rcases h with ⟨rfl, hnone⟩ | ⟨t, ht, hsymbol, htprice, hfee, hallowed, hcash⟩
  · refine ⟨rfl, ha, fun other ho => ?_, fun _ _ => rfl, .refl model a', .inl rfl⟩
    rwa [List.mem_singleton.mp ho, Int.sub_self]
  · rw [← hsymbol, ← htprice] at hprice
    refine ⟨ht.lastClose, ht.long ha, fun other ho => ?_, fun symbol hs => ?_,
      .of_posted ht ha hprice hfee, .inr hcash⟩
    · rw [List.mem_singleton.mp ho, ← hsymbol, ht.held_same, add_sub_cancel_left]
      exact hallowed
    · exact ht.find?_other fun he => hs (by simp [he, hsymbol])

theorem Carried.append {next : Account} {more : List Order} (h : Carried model allowed os a next)
    (h' : Carried model allowed more next a')
    (hn : ∀ o ∈ os, o.symbol ∉ more.map (·.symbol)) (hn' : ∀ o ∈ more, o.symbol ∉ os.map (·.symbol)) :
    Carried model allowed (os ++ more) a a' where
  lastClose := h'.lastClose.trans h.lastClose
  long := h'.long
  moved o ho := by
    rcases List.mem_append.mp ho with ho | ho
    · rw [held_congr (h'.others _ (hn o ho))]
      exact h.moved o ho
    · rw [← held_congr (h.others _ (hn' o ho))]
      exact h'.moved o ho
  others symbol hs := by
    rw [List.map_append, List.mem_append, not_or] at hs
    exact (h'.others symbol hs.2).trans (h.others symbol hs.1)
  charged := h.charged.trans h'.charged
  cash := by
    rcases h'.cash with rfl | hcash
    · exact h.cash
    · exact .inr hcash

/-- Orders for distinct symbols, none of which sells more than is held, are carried out if each is. -/
theorem carried_of_foldlM {f : Account → Order → Except Failure Account}
    (hf : ∀ o ∈ os, ∀ a a', a.Long → 0 ≤ a.held o.symbol + o.quantity → f a o = .ok a' →
      Fulfils model allowed o a a')
    (hn : (os.map (·.symbol)).Nodup) (ha : a.Long)
    (hprice : ∀ o ∈ os, a.lastClose.find? o.symbol = some o.price)
    (hcovered : ∀ o ∈ os, 0 ≤ a.held o.symbol + o.quantity) (h : os.foldlM f a = .ok a') :
    Carried model allowed os a a' := by
  induction os generalizing a with
  | nil =>
    cases h
    exact .nil ha
  | cons o os ih =>
    obtain ⟨hnot, hn⟩ := List.nodup_cons.mp hn
    obtain ⟨hfo, hf⟩ := List.forall_mem_cons.mp hf
    obtain ⟨hpriceo, hprice⟩ := List.forall_mem_cons.mp hprice
    obtain ⟨hcoveredo, hcovered⟩ := List.forall_mem_cons.mp hcovered
    rw [List.foldlM_cons] at h
    obtain ⟨next, hfirst, h⟩ := bind_eq_ok.mp h
    have hone := (hfo a next ha hcoveredo hfirst).carried ha hpriceo
    have hother : ∀ other ∈ os, other.symbol ∉ [o].map (·.symbol) := by
      intro other ho hm
      rw [List.map_singleton, List.mem_singleton] at hm
      exact hnot (List.mem_map.mpr ⟨other, ho, hm⟩)
    have hrest := ih hf hn hone.long (fun other ho => hone.lastClose ▸ hprice other ho)
      (fun other ho => by
        rw [held_congr (hone.others _ (hother other ho))]
        exact hcovered other ho) h
    exact hone.append hrest (by simpa using hnot) hother

/-! ## The cash that purchases leave -/

/-- One purchase spends cash, and is in full unless the cash is exhausted. -/
theorem buy_spends (ha : a.Long) (hq : 0 < o.quantity) (hp : 0 < o.price)
    (h : buy model time a o = .ok a') :
    a'.Long ∧ a'.cash ≤ a.cash ∧ (∀ symbol, symbol ≠ o.symbol → a'.held symbol = a.held symbol) ∧
      (a'.held o.symbol = a.held o.symbol + o.quantity ∨
        model.Exhausted o.price o.quantity (a'.held o.symbol - a.held o.symbol) a'.cash) := by
  obtain ⟨quantity, haffordable, hbought⟩ := buy_posts (ha.held_nonneg _) h
  obtain ⟨full, hfull⟩ := CostModel.exists_fee_of_affordable hq haffordable
  have hshort := CostModel.eq_or_lt_of_affordable hq.le hp hfull haffordable
  rcases hbought with ⟨rfl, rfl⟩ | ⟨hpos, paid, hpaid, _, hposted⟩
  · refine ⟨ha, le_rfl, fun _ _ => rfl, .inr ⟨full, 0, hfull, ?_, ?_⟩⟩
    · rw [sub_self, zero_mul]
      rfl
    · have hnext := hshort.resolve_left hq.ne
      linarith
  · have hcash : a'.cash = a.cash - (quantity * o.price + paid) := hposted.cash
    have hspent : 0 ≤ quantity * o.price + paid :=
      add_nonneg (mul_pos hpos hp).le (CostModel.fee_nonneg hpaid)
    have hheld : a'.held o.symbol = a.held o.symbol + quantity := hposted.held_same
    rw [hcash, hheld, add_sub_cancel_left]
    refine ⟨hposted.long ha, sub_le_self _ hspent, fun _ hs => hposted.held_other hs, ?_⟩
    rcases hshort with rfl | hnext
    · exact .inl rfl
    · exact .inr ⟨full, paid, hfull, hpaid, by linarith⟩

/-- Purchases, one after the other: each is in full, unless the cash that is left in the end does not pay
for one unit more. -/
theorem buys_spend (hn : (os.map (·.symbol)).Nodup) (hos : ∀ o ∈ os, 0 < o.quantity ∧ 0 < o.price)
    (ha : a.Long) (h : os.foldlM (buy model time) a = .ok a') :
    a'.cash ≤ a.cash ∧ (∀ symbol, symbol ∉ os.map (·.symbol) → a'.held symbol = a.held symbol) ∧
      ∀ o ∈ os, a'.held o.symbol = a.held o.symbol + o.quantity ∨
        model.Exhausted o.price o.quantity (a'.held o.symbol - a.held o.symbol) a'.cash := by
  induction os generalizing a with
  | nil =>
    cases h
    exact ⟨le_rfl, fun _ _ => rfl, fun _ hm => absurd hm List.not_mem_nil⟩
  | cons o os ih =>
    obtain ⟨hnot, hn⟩ := List.nodup_cons.mp hn
    obtain ⟨ho, hos⟩ := List.forall_mem_cons.mp hos
    rw [List.foldlM_cons] at h
    obtain ⟨next, hfirst, hrest⟩ := bind_eq_ok.mp h
    obtain ⟨hlong, hcash, hothers, hfull⟩ := buy_spends ha ho.1 ho.2 hfirst
    obtain ⟨hcash', hothers', hfull'⟩ := ih hn hos hlong hrest
    refine ⟨hcash'.trans hcash, fun symbol hs => ?_, List.forall_mem_cons.mpr ⟨?_, fun other hm => ?_⟩⟩
    · rw [List.map_cons, List.mem_cons, not_or] at hs
      rw [hothers' symbol hs.2, hothers symbol hs.1]
    · -- the later purchases leave this position alone, and only spend more
      rw [hothers' o.symbol hnot]
      refine hfull.imp_right fun ⟨full, paid, hfee, hpaid, hshort⟩ => ?_
      exact ⟨full, paid, hfee, hpaid, hcash'.trans_lt hshort⟩
    · have hne : other.symbol ≠ o.symbol := fun he => hnot (List.mem_map.mpr ⟨other, hm, he⟩)
      rw [← hothers other.symbol hne]
      exact hfull' other hm

end PortfolioLab.Account
