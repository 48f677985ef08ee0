import PortfolioLab.Backtest.Rebalance
import PortfolioLab.Proofs.Balance
import PortfolioLab.Proofs.Settlement
import PortfolioLab.Proofs.Stops

/-!
# The phases of a period keep the account sound

Each way of trading posts one trade, so the stop phase and the rebalance keep the balance and the
stops of an account, and none of their look-ups fails. The stops that a pass triggers are distinct,
and so are the symbols of the orders, so one exit or sale does not take away the position of the next.
-/

namespace PortfolioLab.Account

open TradeLog

variable {initial : Int} {a : Account} {model : CostModel} {time : Instant}

/-! ## The stop phase -/

theorem leave_keyed {pending : List String} {trigger : StopTrigger} {book : StopBook}
    (h : a.Sound initial (trigger.symbol :: pending)) (hb : a.book = some book)
    (hm : trigger.symbol ∈ book.states.symbols) :
    Keyed (fun a' => a'.Sound initial pending ∧ Grows time a a' ∧
      a'.book = some (book.release trigger.symbol)) (leave model time a trigger) := by
  have hheld := (((h.inStep book hb).covered _).mp hm).1
  obtain ⟨position, hp⟩ := Register.exists_find?_iff.mpr hheld
  have hpos := h.balanced.positive _ _ hp
  simp only [leave, hp, hb]
  refine (settle_keyed model a.cash position trigger.symbol time _ _ .stop).bind fun r hr => ?_
  obtain ⟨cash, filled, trade⟩ := r
  obtain ⟨fee, _, hcash, hq, rfl⟩ := hr
  refine (StopBook.close_keyed hm).bind fun r hr => ?_
  obtain ⟨_, after⟩ := r
  cases hr
  have hposted : ∀ events, Posted ⟨trigger.symbol, time, -position.quantity, trigger.breach.exitPrice,
      fee, .stop⟩ a { a with
        cash, book := some (book.release trigger.symbol)
        positions := a.positions.remove trigger.symbol
        trades := a.trades ++ [_], events := a.events ++ events } := fun events =>
    ⟨hcash, rfl, rfl, .inl ⟨rfl, by rw [held_of_find? hp]; exact Int.add_right_neg _⟩⟩
  refine ⟨h.closed (hposted _) rfl (by rw [hb]; rfl) (Int.neg_neg_of_pos hpos) hheld, ?_, rfl⟩
  exact .of_posted (hposted _) rfl (by rw [hb]; rfl) ⟨_, rfl, by simp⟩

/-- After a pass over its book an account is sound but for the stops that were triggered. -/
theorem Sound.tested {book after : StopBook} {done : List String} {triggers : List StopTrigger}
    (h : a.Sound initial []) (hb : a.book = some book)
    (hv : StopBook.Visited book done triggers after) :
    Sound initial (triggers.map (·.symbol)) { a with book := some after } := by
  have hstep := h.inStep book hb
  refine ⟨{ h.balanced with }, fun b hb' => ?_⟩
  cases hb'
  refine ⟨hv.symbols ▸ hstep.distinct, fun symbol => ?_, fun symbol s hs hn => ?_,
    fun symbol s hs => ?_⟩
  · rw [hv.symbols, hv.rules]
    exact hstep.covered symbol
  · obtain ⟨s₀, hs₀, _, hstatus⟩ := hv.kept symbol s hs
    rw [hstatus hn]
    exact hstep.active symbol s₀ hs₀ List.not_mem_nil
  · obtain ⟨s₀, hs₀, hentry, _⟩ := hv.kept symbol s hs
    rw [hentry]
    exact hstep.entry symbol s₀ hs₀

/-- An account in the middle of the stop phase that started from `a`: the triggers of `rest` are still
to be left, and the book has their stops. -/
private structure Leaving (initial : Int) (time : Instant) (a : Account) (rest : List StopTrigger)
    (a' : Account) : Prop where
  sound : a'.Sound initial (rest.map (·.symbol))
  grows : Grows time a a'
  distinct : (rest.map (·.symbol)).Nodup
  stated : ∃ book, a'.book = some book ∧ ∀ trigger ∈ rest, trigger.symbol ∈ book.states.symbols

private theorem Leaving.step {trigger : StopTrigger} {rest : List StopTrigger} {a' : Account}
    (h : Leaving initial time a (trigger :: rest) a') :
    Keyed (Leaving initial time a rest) (leave model time a' trigger) := by
  obtain ⟨hnot, hn⟩ := List.nodup_cons.mp h.distinct
  obtain ⟨book, hb, hm⟩ := h.stated
  refine (leave_keyed h.sound hb (hm trigger List.mem_cons_self)).imp fun a'' ⟨hs, hg, hb'⟩ => ?_
  refine ⟨hs, h.grows.trans hg, hn, _, hb', fun other ho => ?_⟩
  -- the next triggers are of other symbols, so their stops are still there
  have hne : other.symbol ≠ trigger.symbol := fun he =>
    hnot (List.mem_map.mpr ⟨other, ho, he⟩)
  exact Register.mem_symbols_remove.mpr ⟨hne, hm other (List.mem_cons_of_mem _ ho)⟩

/-- The stop phase leaves no stop pending. -/
theorem runStops_keyed (bars : Register Bar) (h : a.Sound initial []) :
    Keyed (fun r => r.1.Sound initial [] ∧ Grows time a r.1) (runStops model time bars a) := by
  unfold runStops
  split
  · exact ⟨h, .refl time a⟩
  · next book hb =>
    refine (StopBook.evaluate_keyed bars a.histories book).bind fun r hv => ?_
    obtain ⟨triggers, after⟩ := r
    have hgrows : Grows time a { a with book := some after } :=
      ⟨rfl, by rw [hb]; exact congrArg some hv.rules, ⟨[], by simp⟩, ⟨[], by simp⟩⟩
    have hfirst : Leaving initial time a triggers { a with book := some after } :=
      ⟨h.tested hb hv, hgrows, hv.nodup (h.inStep book hb).distinct, after, rfl,
        fun trigger ht => hv.symbols ▸ hv.stated trigger ht⟩
    refine (Keyed.foldlM hfirst fun trigger rest a' => Leaving.step).bind fun a' ha' => ?_
    exact ⟨ha'.sound, ha'.grows⟩

/-! ## The orders of a rebalance -/

/-- Target weights that a schedule lets through: finite, and not below zero. -/
def LongOnly (targets : Targets) : Prop :=
  ∀ symbol w, targets.find? symbol = some w → w.isFinite ∧ ¬ w < 0

/-- Bars whose closes are not negative. -/
def Quoted (bars : Register Bar) : Prop := ∀ symbol bar, bars.find? symbol = some bar → 0 ≤ bar.close

/-- An order that an account can carry out: it sells no more than is held, and its symbol has a bar. -/
structure Order.Fits (bars : Register Bar) (a : Account) (o : Order) : Prop where
  covered : 0 ≤ a.held o.symbol + o.quantity
  quoted : o.symbol ∈ bars.symbols

theorem equity_keyed (h : ∀ symbol ∈ a.positions.symbols, symbol ∈ a.lastClose.symbols) :
    Keyed (fun _ => True) a.equity := by
  refine (Keyed.foldlM (I := fun rest (_ : Cents) => ∀ entry ∈ rest, entry.1 ∈ a.lastClose.symbols)
    (fun entry he => h _ (List.mem_map.mpr ⟨entry, he, rfl⟩)) ?_).any
  rintro ⟨symbol, position⟩ rest total hrest
  obtain ⟨price, hprice⟩ := Register.exists_find?_iff.mpr (hrest _ List.mem_cons_self)
  simp only [hprice]
  refine (Cents.check_keyed _).bind fun value _ => (Cents.sum_keyed _).imp fun _ _ => ?_
  exact fun entry he => hrest entry (List.mem_cons_of_mem _ he)

theorem weight_nonneg {targets : Targets} (h : LongOnly targets) (symbol : String) :
    ((targets.find? symbol).getD 0).isFinite ∧ ¬ (targets.find? symbol).getD 0 < 0 := by
  cases hw : targets.find? symbol with
  | none => decide +kernel
  | some w => exact h symbol w hw

private theorem orderFor_keyed {equity : Cents} {targets : Targets} {bars : Register Bar}
    (he : 0 ≤ equity) (hl : LongOnly targets) (hb : Quoted bars) (stopped : List String)
    (symbol : String) :
    Keyed (fun found => ∀ o, found = some o → o.symbol = symbol ∧ o.Fits bars a)
      (orderFor equity targets bars stopped a symbol) := by
  have hnone : Keyed (fun found => ∀ o : Order, found = some o → o.symbol = symbol ∧ o.Fits bars a)
      (.ok none) := fun _ h => nomatch h
  obtain ⟨hfinite, hsign⟩ := weight_nonneg hl symbol
  unfold orderFor
  split
  · exact hnone
  · split
    · exact hnone
    · next bar hbar =>
      split
      · exact hnone
      · refine (Money.scale_keyed _ _).bind_ok fun value hscale => ?_
        intro o ho
        split at ho
        · cases ho
        · cases ho
          have hvalue : 0 ≤ value := Money.scale_nonneg he hfinite hsign hscale
          have htarget : 0 ≤ value.fdiv bar.close := Int.fdiv_nonneg hvalue (hb symbol bar hbar)
          refine ⟨rfl, ?_, Register.exists_find?_iff.mp ⟨bar, hbar⟩⟩
          show 0 ≤ a.held symbol + (value.fdiv bar.close - a.held symbol)
          omega

theorem orders_of_found {P : Order → Prop} {symbols : List String} {found : List (Option Order)}
    (h : List.Forall₂ (fun symbol r => ∀ o, r = some o → o.symbol = symbol ∧ P o) symbols found) :
    ((found.filterMap id).map (·.symbol)).Sublist symbols ∧ ∀ o ∈ found.filterMap id, P o := by
  induction h with
  | nil => simp
  | @cons symbol r symbols found hr _ ih =>
    cases r with
    | none => exact ⟨ih.1.cons symbol, ih.2⟩
    | some o =>
      obtain ⟨rfl, ho⟩ := hr o rfl
      refine ⟨ih.1.cons_cons _, fun other hm => ?_⟩
      rcases List.mem_cons.mp hm with rfl | hm
      · exact ho
      · exact ih.2 other hm

/-- The orders are for distinct symbols, and each can be carried out. -/
theorem orders_keyed {equity : Cents} {targets : Targets} {bars : Register Bar}
    (he : 0 ≤ equity) (hl : LongOnly targets) (hb : Quoted bars) (stopped : List String) :
    Keyed (fun os => (os.map (·.symbol)).Nodup ∧ ∀ o ∈ os, Order.Fits bars a o)
      (orders equity targets bars stopped a) := by
  refine (Keyed.mapM fun symbol _ => orderFor_keyed he hl hb stopped symbol).bind fun found h => ?_
  obtain ⟨hsub, hfits⟩ := orders_of_found h
  exact ⟨(nodup_ascending (nodup_eraseDups _)).sublist hsub, hfits⟩

/-! ## The trades of a rebalance -/

/-- A sale that succeeded: a position was settled, and closed if nothing is left of it. -/
theorem sell_cases {order : Order} {a' : Account} (h : sell model time a order = .ok a') :
    ∃ position cash rest trade, a.positions.find? order.symbol = some position ∧
      settle model a.cash position order.symbol time order.quantity order.price .rebalance =
        .ok (cash, rest, trade) ∧
      ((rest.quantity = 0 ∧ a' = { a with
          cash, trades := a.trades ++ [trade], positions := a.positions.remove order.symbol
          book := a.book.map (StopBook.release order.symbol) }) ∨
        rest.quantity ≠ 0 ∧ a' = { a with
          cash, trades := a.trades ++ [trade], positions := a.positions.put order.symbol rest }) := by
  unfold sell at h
  cases hp : a.positions.find? order.symbol with
  | none =>
    simp only [hp] at h
    cases h
  | some position =>
    simp only [hp] at h
    obtain ⟨⟨cash, rest, trade⟩, hsettle, h⟩ := bind_eq_ok.mp h
    refine ⟨position, cash, rest, trade, rfl, hsettle, ?_⟩
    have ha := Except.ok.inj h
    split at ha
    · next hzero => exact .inl ⟨hzero, ha.symm⟩
    · next hne => exact .inr ⟨hne, ha.symm⟩

/-- Entering a stop changes the book and nothing else. -/
theorem enterStop_cases {symbol : String} {price : Cents} {a' : Account}
    (h : enterStop symbol price a = .ok a') : ∃ book, a' = { a with book } := by
  unfold enterStop at h
  split at h
  · exact ⟨a.book, (Except.ok.inj h).symm⟩
  · obtain ⟨⟨_, book⟩, _, h⟩ := bind_eq_ok.mp h
    exact ⟨some book, (Except.ok.inj h).symm⟩

/-- A purchase that succeeded: nothing could be afforded, or a position was settled, and got its stop if
it is new. -/
theorem buy_cases {order : Order} {a' : Account} (h : buy model time a order = .ok a') :
    ∃ quantity, model.affordable order.quantity order.price a.cash = .ok quantity ∧
      ((quantity = 0 ∧ a' = a) ∨ quantity ≠ 0 ∧ ∃ cash position trade next,
        settle model a.cash ((a.positions.find? order.symbol).getD {}) order.symbol time quantity
          order.price .rebalance = .ok (cash, position, trade) ∧
        next = { a with
          cash, trades := a.trades ++ [trade]
          positions := a.positions.put order.symbol position } ∧
        (enterStop order.symbol order.price next = .ok a' ∨ a' = next)) := by
  obtain ⟨quantity, haffordable, h⟩ := bind_eq_ok.mp h
  refine ⟨quantity, haffordable, ?_⟩
  by_cases hzero : quantity = 0
  · rw [if_pos hzero] at h
    exact .inl ⟨hzero, (Except.ok.inj h).symm⟩
  · rw [if_neg hzero] at h
    obtain ⟨⟨cash, position, trade⟩, hsettle, h⟩ := bind_eq_ok.mp h
    refine .inr ⟨hzero, cash, position, trade, _, hsettle, rfl, ?_⟩
    dsimp only at h
    split at h
    · exact .inl h
    · exact .inr (Except.ok.inj h).symm

theorem sell_keyed {order : Order} (h : a.Sound initial []) (hq : order.quantity < 0)
    (hcovered : 0 ≤ a.held order.symbol + order.quantity) :
    Keyed (fun a' => a'.Sound initial [] ∧ Grows time a a' ∧
      ∀ symbol, symbol ≠ order.symbol → a'.held symbol = a.held symbol)
      (sell model time a order) := by
  have hm : order.symbol ∈ a.positions.symbols := by
    by_contra hn
    rw [held_of_not_mem hn] at hcovered
    omega
  obtain ⟨position, hp⟩ := Register.exists_find?_iff.mpr hm
  rw [held_of_find? hp] at hcovered
  simp only [sell, hp]
  refine (settle_keyed model a.cash position order.symbol time _ _ .rebalance).bind fun r hr => ?_
  obtain ⟨cash, rest, trade⟩ := r
  obtain ⟨fee, _, hcash, hrest, rfl⟩ := hr
  have hrest : rest.quantity = a.held order.symbol + order.quantity := by
    rw [held_of_find? hp]
    exact hrest hcovered
  rw [Keyed.pure_iff]
  split
  · next hzero =>
    have ht : Posted ⟨order.symbol, time, order.quantity, order.price, fee, .rebalance⟩ a { a with
        cash, trades := a.trades ++ [_], positions := a.positions.remove order.symbol
        book := a.book.map (StopBook.release order.symbol) } :=
      ⟨hcash, rfl, rfl, .inl ⟨rfl, hrest.symm.trans hzero⟩⟩
    refine ⟨(h.weaken _).closed ht rfl rfl hq hm, ?_, fun symbol hs => ht.held_other hs⟩
    exact .of_posted ht rfl (by cases a.book <;> rfl) ⟨[], by simp⟩
  · next hne =>
    have hleft : 0 < rest.quantity := by
      rw [hrest, held_of_find? hp] at hne ⊢
      omega
    have ht : Posted ⟨order.symbol, time, order.quantity, order.price, fee, .rebalance⟩ a { a with
        cash, trades := a.trades ++ [_], positions := a.positions.put order.symbol rest } :=
      ⟨hcash, rfl, rfl, .inr ⟨rest, rfl, hrest, hleft⟩⟩
    have ha := ht.balanced h.balanced (Int.ne_of_lt hq) (h.balanced.priced _ hm)
      fun hpos => absurd hpos (Int.lt_asymm hq)
    refine ⟨h.kept ht ha rfl rfl hm, ?_, fun symbol hs => ht.held_other hs⟩
    exact .of_posted ht rfl rfl ⟨[], by simp⟩

/-- A position that a trade has just opened gets its stop. -/
private theorem enterStop_keyed {t : Trade} {a' : Account} {p : Position} (h : a.Sound initial [])
    (ht : Posted t a a') (ha : a'.Balanced initial) (hp : a'.positions = a.positions.put t.symbol p)
    (hbook : a'.book = a.book) (hm : t.symbol ∉ a.positions.symbols) (hq : 0 < t.quantity) :
    Keyed (fun a'' => a''.Sound initial [] ∧ Grows time a' a'') (enterStop t.symbol t.price a') := by
  unfold enterStop
  split
  · next hnone => exact ⟨⟨ha, fun book hb => by simp [hnone] at hb⟩, .refl time a'⟩
  · next book hb =>
    have hstep := h.inStep book (hbook ▸ hb)
    refine (StopBook.enter_keyed t.symbol t.price _ book).bind fun r hr => ?_
    obtain ⟨_, after⟩ := r
    have ht' : Posted t a { a' with book := some after } := { ht with }
    have ha' : Balanced initial { a' with book := some after } := { ha with }
    have hgrows : after.rules = book.rules → Grows time a' { a' with book := some after } :=
      fun hrules => ⟨rfl, by rw [hb]; exact congrArg some hrules, ⟨[], by simp⟩, ⟨[], by simp⟩⟩
    rcases hr with ⟨hr, hafter⟩ | ⟨hr, s, hs, hactive, hafter⟩
    · cases hafter
      refine ⟨⟨ha', fun b hb' => ?_⟩, hgrows rfl⟩
      cases hb'
      exact ht'.inStep_kept ha' hp (.inr hr) hstep
    · cases hafter
      refine ⟨⟨ha', fun b hb' => ?_⟩, hgrows rfl⟩
      cases hb'
      exact ht'.inStep_entered h.balanced ha' hp hm hq hr hs hactive hstep

theorem buy_keyed {order : Order} (h : a.Sound initial [])
    (hquoted : order.symbol ∈ a.lastClose.symbols) :
    Keyed (fun a' => a'.Sound initial [] ∧ Grows time a a') (buy model time a order) := by
  refine (CostModel.affordable_keyed order.quantity order.price a.cash).bind fun quantity hbuys => ?_
  split
  · exact ⟨h, .refl time a⟩
  · next hne =>
    obtain ⟨hpos, _, fee, hfee, hfits⟩ := hbuys.resolve_left hne
    have hnonneg := h.balanced.held_nonneg order.symbol
    refine (settle_keyed model a.cash _ order.symbol time _ _ .rebalance).bind fun r hr => ?_
    obtain ⟨cash, position, trade⟩ := r
    obtain ⟨fee', hfee', hcash, hposition, rfl⟩ := hr
    cases hfee.symm.trans hfee'
    have hposition : position.quantity = a.held order.symbol + quantity := by
      rw [quantity_getD] at hposition
      exact hposition (by omega)
    have ht : Posted ⟨order.symbol, time, quantity, order.price, fee, .rebalance⟩ a { a with
        cash, trades := a.trades ++ [_], positions := a.positions.put order.symbol position } :=
      ⟨hcash, rfl, rfl, .inr ⟨position, rfl, hposition, by omega⟩⟩
    have ha := ht.balanced h.balanced hne hquoted fun _ => by
      rw [ht.cash]
      exact Int.sub_nonneg_of_le hfits
    have hgrows := Grows.of_posted ht rfl rfl ⟨[], by simp⟩
    dsimp only
    split
    · next hnew =>
      have hm : order.symbol ∉ a.positions.symbols :=
        Register.find?_eq_none_iff.mp (Option.isNone_iff_eq_none.mp hnew)
      exact (enterStop_keyed h ht ha rfl rfl hm hpos).imp fun a'' h' => ⟨h'.1, hgrows.trans h'.2⟩
    · next hold =>
      have hm : order.symbol ∈ a.positions.symbols := by
        rw [← Register.isSome_find?_iff, Option.isSome_iff_ne_none]
        simpa using hold
      exact ⟨h.kept ht ha rfl rfl hm, hgrows⟩

/-- A buy that changes the account, whatever account it is, leaves cash that is not negative. -/
theorem buy_cash_keyed (model : CostModel) (time : Instant) (a : Account) (order : Order) :
    Keyed (fun a' => a' = a ∨ 0 ≤ a'.cash) (buy model time a order) := by
  have henter : ∀ (a : Account) price,
      Keyed (fun a' => a'.cash = a.cash) (enterStop order.symbol price a) := by
    intro a price
    unfold enterStop
    split
    · rfl
    · exact (StopBook.enter_keyed _ _ _ _).bind fun _ _ => rfl
  refine (CostModel.affordable_keyed order.quantity order.price a.cash).bind fun quantity hbuys => ?_
  split
  · exact .inl rfl
  · next hne =>
    obtain ⟨_, _, fee, hfee, hfits⟩ := hbuys.resolve_left hne
    refine (settle_keyed model a.cash _ order.symbol time _ _ .rebalance).bind fun r hr => ?_
    obtain ⟨fee', hfee', hcash, _, _⟩ := hr
    cases hfee.symm.trans hfee'
    have hleft : 0 ≤ r.1 := by
      rw [hcash]
      exact Int.sub_nonneg_of_le hfits
    dsimp only
    split
    · exact (henter _ _).imp fun a' ha' => .inr (by rw [ha']; exact hleft)
    · exact .inr hleft

/-- An account in the middle of the sales of a rebalance that started from `a`. -/
private structure Selling (initial : Int) (time : Instant) (a : Account) (rest : List Order)
    (a' : Account) : Prop where
  sound : a'.Sound initial []
  grows : Grows time a a'
  distinct : (rest.map (·.symbol)).Nodup
  covered : ∀ o ∈ rest, o.quantity < 0 ∧ 0 ≤ a'.held o.symbol + o.quantity

private theorem Selling.step {order : Order} {rest : List Order} {a' : Account}
    (h : Selling initial time a (order :: rest) a') :
    Keyed (Selling initial time a rest) (sell model time a' order) := by
  obtain ⟨hnot, hn⟩ := List.nodup_cons.mp h.distinct
  obtain ⟨hq, hcovered⟩ := h.covered order List.mem_cons_self
  refine (sell_keyed h.sound hq hcovered).imp fun a'' ⟨hs, hg, hothers⟩ => ?_
  refine ⟨hs, h.grows.trans hg, hn, fun o ho => ?_⟩
  have hne : o.symbol ≠ order.symbol := fun he => hnot (List.mem_map.mpr ⟨o, ho, he⟩)
  rw [hothers o.symbol hne]
  exact h.covered o (List.mem_cons_of_mem _ ho)

private structure Buying (initial : Int) (time : Instant) (a : Account) (rest : List Order)
    (a' : Account) : Prop where
  sound : a'.Sound initial []
  grows : Grows time a a'
  quoted : ∀ o ∈ rest, o.symbol ∈ a.lastClose.symbols

private theorem Buying.step {order : Order} {rest : List Order} {a' : Account}
    (h : Buying initial time a (order :: rest) a') :
    Keyed (Buying initial time a rest) (buy model time a' order) := by
  have hquoted := h.quoted order List.mem_cons_self
  rw [← h.grows.lastClose] at hquoted
  refine (buy_keyed h.sound hquoted).imp fun a'' ⟨hs, hg⟩ => ?_
  exact ⟨hs, h.grows.trans hg, fun o ho => h.quoted o (List.mem_cons_of_mem _ ho)⟩

/-- A rebalance keeps the account sound. -/
theorem rebalance_keyed {targets : Targets} {bars : Register Bar} (h : a.Sound initial [])
    (hl : LongOnly targets) (hb : Quoted bars)
    (hlearned : ∀ symbol ∈ bars.symbols, symbol ∈ a.lastClose.symbols) (stopped : List String) :
    Keyed (fun a' => a'.Sound initial [] ∧ Grows time a a')
      (rebalance model time targets bars stopped a) := by
  refine (equity_keyed h.balanced.priced).bind fun equity _ => ?_
  split
  · exact ⟨h, .refl time a⟩
  · next he =>
    refine (orders_keyed (Int.le_of_lt (Int.not_le.mp he)) hl hb stopped).bind fun os ⟨hn, hfits⟩ => ?_
    have hselling : Selling initial time a (os.filter (·.quantity < 0)) a :=
      ⟨h, .refl time a, hn.sublist ((List.filter_sublist).map _), fun o ho =>
        ⟨by simpa using (List.mem_filter.mp ho).2, (hfits o (List.mem_filter.mp ho).1).covered⟩⟩
    refine (Keyed.foldlM hselling fun order rest a' => Selling.step).bind fun sold hsold => ?_
    have hbuying : Buying initial time a (os.filter (0 < ·.quantity)) sold :=
      ⟨hsold.sound, hsold.grows, fun o ho =>
        hlearned _ (hfits o (List.mem_filter.mp ho).1).quoted⟩
    exact (Keyed.foldlM hbuying fun order rest a' => Buying.step).imp fun a' h' =>
      ⟨h'.sound, h'.grows⟩

/-- The rebalance phase of a period, which may have no target weights. -/
def retarget (model : CostModel) (time : Instant) (targets : Option Targets) (bars : Register Bar)
    (stopped : List String) (a : Account) : Except Failure Account :=
  match targets with
  | none => .ok a
  | some targets => a.rebalance model time targets bars stopped

theorem retarget_keyed {targets : Option Targets} {bars : Register Bar} (h : a.Sound initial [])
    (hl : ∀ t, targets = some t → LongOnly t) (hb : Quoted bars)
    (hlearned : ∀ symbol ∈ bars.symbols, symbol ∈ a.lastClose.symbols) (stopped : List String) :
    Keyed (fun a' => a'.Sound initial [] ∧ Grows time a a')
      (retarget model time targets bars stopped a) := by
  cases targets with
  | none => exact ⟨h, .refl time a⟩
  | some targets => exact rebalance_keyed h (hl targets rfl) hb hlearned stopped

end PortfolioLab.Account
