import PortfolioLab.Proofs.Phases
import PortfolioLab.Proofs.StopPass

/-!
# What the phases write

An exit, a sale and a purchase each append one trade to the log, and an exit one stop event. The log of
a phase is therefore in the order of its triggers or orders: exits in the order of stops, sales and
purchases in ascending order of their symbols.
-/

namespace PortfolioLab

/-- A book without its stops: its rules, its policy for gaps and its priorities. -/
def StopBook.bare (book : StopBook) : StopBook := { book with states := [] }

structure StopEvent.TellsOf (e : StopEvent) (t : Trade) : Prop where
  symbol : e.symbol = t.symbol
  time : e.time = t.time
  exitPrice : e.exitPrice = t.price
  quantity : e.quantity = -t.quantity

theorem exists_of_forall₂ {α β : Type} {R : α → β → Prop} {xs : List α} {ys : List β}
    (h : List.Forall₂ R xs ys) : ∀ y ∈ ys, ∃ x ∈ xs, R x y := by
  induction h with
  | nil => exact fun _ hm => absurd hm List.not_mem_nil
  | cons hxy _ ih =>
    rintro y hm
    rcases List.mem_cons.mp hm with rfl | hm
    · exact ⟨_, List.mem_cons_self, hxy⟩
    · obtain ⟨x, hx, hR⟩ := ih y hm
      exact ⟨x, List.mem_cons_of_mem _ hx, hR⟩

theorem map_eq_of_forall₂ {α β γ : Type} {R : α → β → Prop} {f : α → γ} {g : β → γ} {xs : List α}
    {ys : List β} (h : List.Forall₂ R xs ys) (hfg : ∀ x y, R x y → f x = g y) :
    xs.map f = ys.map g := by
  rw [← List.forall₂_eq_eq_eq, List.forall₂_map_left_iff, List.forall₂_map_right_iff]
  exact h.imp hfg

namespace Account

variable {a a' a'' : Account} {model : CostModel} {time : Instant} {bars : Register Bar}
  {stopped : List String}

/-- The second account has more trades and events, and the same book but for its stops. -/
structure Continues (a a' : Account) (trades : List Trade) (events : List StopEvent) : Prop where
  trades : a'.trades = a.trades ++ trades
  events : a'.events = a.events ++ events
  book : a'.book.map StopBook.bare = a.book.map StopBook.bare

theorem Continues.refl (a : Account) : Continues a a [] [] := ⟨by simp, by simp, rfl⟩

theorem Continues.trans {ts us : List Trade} {es fs : List StopEvent} (h : Continues a a' ts es)
    (h' : Continues a' a'' us fs) : Continues a a'' (ts ++ us) (es ++ fs) :=
  ⟨by rw [h'.trades, h.trades, List.append_assoc], by rw [h'.events, h.events, List.append_assoc],
    h'.book.trans h.book⟩

/-! ## Exits -/

/-- The trade that leaves the position of a stop, which has this quantity. -/
structure Exit (time : Instant) (held : String → Int) (trigger : StopTrigger) (t : Trade) : Prop where
  symbol : t.symbol = trigger.symbol
  time : t.time = time
  quantity : t.quantity = -held trigger.symbol
  reason : t.reason = .stop

theorem leave_writes {trigger : StopTrigger} (h : leave model time a trigger = .ok a') :
    (∃ t e, Continues a a' [t] [e] ∧ Exit time a.held trigger t ∧ e.TellsOf t) ∧
      ∀ symbol, symbol ≠ trigger.symbol → a'.held symbol = a.held symbol := by
  unfold leave at h
  cases hp : a.positions.find? trigger.symbol with
  | none =>
    simp only [hp] at h
    cases h
  | some position =>
    cases hb : a.book with
    | none =>
      simp only [hp, hb] at h
      cases h
    | some book =>
      simp only [hp, hb] at h
      obtain ⟨⟨cash, filled, trade⟩, hsettle, h⟩ := bind_eq_ok.mp h
      obtain ⟨fee, _, _, _, rfl⟩ := (settle_keyed _ _ _ _ _ _ _ _).of_ok hsettle
      obtain ⟨⟨closed, after⟩, hclose, h⟩ := bind_eq_ok.mp h
      cases h
      refine ⟨⟨_, _, ⟨rfl, rfl, ?_⟩, ⟨rfl, rfl, ?_, rfl⟩, ⟨rfl, rfl, rfl, (neg_neg _).symm⟩⟩, ?_⟩
      · rw [hb, StopBook.eq_release_of_close hclose]
        rfl
      · rw [held_of_find? hp]
      · intro symbol hs
        simp only [held, Register.find?_remove_other _ hs]

/-- Exits of distinct stops leave the positions as they were before the first. -/
private theorem exits_write {triggers : List StopTrigger} {held : String → Int}
    (hn : (triggers.map (·.symbol)).Nodup)
    (hheld : ∀ trigger ∈ triggers, a.held trigger.symbol = held trigger.symbol)
    (h : triggers.foldlM (leave model time) a = .ok a') :
    ∃ stops events, Continues a a' stops events ∧ List.Forall₂ (Exit time held) triggers stops ∧
      List.Forall₂ StopEvent.TellsOf events stops := by
  induction triggers generalizing a with
  | nil =>
    cases h
    exact ⟨[], [], .refl _, .nil, .nil⟩
  | cons trigger rest ih =>
    obtain ⟨hnot, hn⟩ := List.nodup_cons.mp hn
    rw [List.foldlM_cons] at h
    obtain ⟨next, hleave, h⟩ := bind_eq_ok.mp h
    obtain ⟨⟨t, e, hfirst, hexit, htells⟩, hothers⟩ := leave_writes hleave
    have hheld' : ∀ other ∈ rest, next.held other.symbol = held other.symbol := by
      intro other ho
      have hne : other.symbol ≠ trigger.symbol := fun he => hnot (List.mem_map.mpr ⟨other, ho, he⟩)
      rw [hothers _ hne]
      exact hheld other (List.mem_cons_of_mem _ ho)
    obtain ⟨stops, events, hrest, hexits, hevents⟩ := ih hn hheld' h
    have hexit' : Exit time held trigger t :=
      { hexit with quantity := by rw [hexit.quantity, hheld trigger List.mem_cons_self] }
    exact ⟨t :: stops, e :: events, hfirst.trans hrest, .cons hexit' hexits, .cons htells hevents⟩

/-- The exits of a stop phase: each leaves a whole position that has a stop and a bar, and they come in
the order of stops. -/
structure Exits (time : Instant) (bars : Register Bar) (a : Account) (stops : List Trade) : Prop where
  distinct : (stops.map (·.symbol)).Nodup
  ordered : ∀ book, a.book = some book →
    stopOrder (stops.map (·.symbol)) book.priority = stops.map (·.symbol)
  each : ∀ t ∈ stops, t.time = time ∧ t.reason = .stop ∧ t.quantity = -a.held t.symbol ∧
    t.symbol ∈ bars.symbols ∧ ∃ book, a.book = some book ∧ t.symbol ∈ book.states.symbols

theorem runStops_writes
    (hn : ∀ book, a.book = some book → book.states.symbols.Nodup)
    (h : runStops model time bars a = .ok (a', stopped)) :
    ∃ stops events, Continues a a' stops events ∧ Exits time bars a stops ∧
      List.Forall₂ StopEvent.TellsOf events stops ∧ stopped = stops.map (·.symbol) := by
  unfold runStops at h
  cases hb : a.book with
  | none =>
    simp only [hb] at h
    cases h
    refine ⟨[], [], .refl a, ⟨List.nodup_nil, fun _ hb' => ?_, fun _ hm => ?_⟩, .nil, rfl⟩
    · exact nomatch hb.symm.trans hb'
    · exact absurd hm List.not_mem_nil
  | some book =>
    simp only [hb] at h
    obtain ⟨⟨triggers, after⟩, hevaluate, h⟩ := bind_eq_ok.mp h
    obtain ⟨last, hleave, h⟩ := bind_eq_ok.mp h
    cases h
    have hvisited := (StopBook.evaluate_keyed bars a.histories book).of_ok hevaluate
    have hpassed := StopBook.passed_of_evaluate (hn book hb) hevaluate
    have hdistinct := hvisited.nodup (hn book hb)
    obtain ⟨stops, events, hcontinues, hexits, htells⟩ :=
      exits_write hdistinct (fun _ _ => rfl) hleave
    have hsymbols : triggers.map (·.symbol) = stops.map (·.symbol) :=
      map_eq_of_forall₂ hexits fun _ _ hexit => hexit.symbol.symm
    refine ⟨stops, events, ⟨hcontinues.trades, hcontinues.events, hcontinues.book.trans ?_⟩,
      ⟨hsymbols ▸ hdistinct, fun book' hb' => ?_, fun t ht => ?_⟩, htells, hsymbols⟩
    · have hbare : after.bare = book.bare := by
        rw [hpassed.rest]
        rfl
      simp [hb, hbare]
    · cases hb.symm.trans hb'
      rw [← hsymbols]
      exact stopOrder_of_sublist hvisited.tested
    · obtain ⟨trigger, hm, hexit⟩ := exists_of_forall₂ hexits t ht
      have hdone : ∀ symbol ∈ stopOrder book.states.symbols book.priority,
          symbol ∈ book.states.symbols := fun symbol hs => (stopOrder_perm _ _).mem_iff.mp hs
      refine ⟨hexit.time, hexit.reason, ?_, ?_, book, hb, ?_⟩
      · rw [hexit.quantity, hexit.symbol]
        rfl
      · rw [hexit.symbol]
        exact hpassed.quoted hdone hm
      · rw [hexit.symbol]
        exact hvisited.stated trigger hm

/-! ## Sales and purchases -/

/-- An order at the positive close of a bar, for a symbol that was not stopped. -/
structure Order.Priced (bars : Register Bar) (stopped : List String) (o : Order) : Prop where
  spared : o.symbol ∉ stopped
  priced : ∃ bar, bars.find? o.symbol = some bar ∧ bar.close ≠ 0 ∧ o.price = bar.close

theorem orderFor_priced (equity : Cents) (targets : Targets) (stopped : List String)
    (a : Account) (symbol : String) :
    Keyed (fun found => ∀ o, found = some o → o.symbol = symbol ∧ o.Priced bars stopped)
      (orderFor equity targets bars stopped a symbol) := by
  have hnone : Keyed (fun found => ∀ o : Order, found = some o →
      o.symbol = symbol ∧ o.Priced bars stopped) (.ok none) := fun _ h => nomatch h
  unfold orderFor
  split
  · exact hnone
  · next hspared =>
    split
    · exact hnone
    · next bar hbar =>
      split
      · exact hnone
      · next hclose =>
        refine (Money.scale_keyed _ _).bind fun value _ => ?_
        intro o ho
        split at ho
        · cases ho
        · cases ho
          exact ⟨rfl, by simpa using hspared, bar, hbar, hclose, rfl⟩

theorem orders_priced (equity : Cents) (targets : Targets) (bars : Register Bar)
    (stopped : List String) (a : Account) :
    Keyed (fun os => (os.map (·.symbol)).Pairwise (· < ·) ∧ ∀ o ∈ os, Order.Priced bars stopped o)
      (orders equity targets bars stopped a) := by
  refine (Keyed.mapM fun symbol _ => orderFor_priced equity targets stopped a symbol).bind
    fun found h => ?_
  obtain ⟨hsub, hpriced⟩ := orders_of_found h
  exact ⟨(pairwise_lt_ascending (nodup_eraseDups _)).sublist hsub, hpriced⟩

structure Fills (time : Instant) (o : Order) (t : Trade) : Prop where
  symbol : t.symbol = o.symbol
  time : t.time = time
  price : t.price = o.price
  reason : t.reason = .rebalance

theorem sell_writes {order : Order} (h : sell model time a order = .ok a') :
    ∃ t, Continues a a' [t] [] ∧ Fills time order t ∧ t.quantity = order.quantity := by
  obtain ⟨position, cash, rest, trade, _, hsettle, hcases⟩ := sell_cases h
  obtain ⟨fee, _, _, _, rfl⟩ := (settle_keyed _ _ _ _ _ _ _ _).of_ok hsettle
  refine ⟨⟨order.symbol, time, order.quantity, order.price, fee, .rebalance⟩, ?_,
    ⟨rfl, rfl, rfl, rfl⟩, rfl⟩
  rcases hcases with ⟨_, rfl⟩ | ⟨_, rfl⟩
  · refine ⟨rfl, by simp, ?_⟩
    cases a.book <;> rfl
  · exact ⟨rfl, by simp, rfl⟩

private theorem enterStop_writes {symbol : String} {price : Cents}
    (h : enterStop symbol price a = .ok a') : Continues a a' [] [] := by
  unfold enterStop at h
  cases hb : a.book with
  | none =>
    simp only [hb] at h
    cases h
    exact .refl a
  | some book =>
    simp only [hb] at h
    obtain ⟨⟨entered, after⟩, henter, h⟩ := bind_eq_ok.mp h
    cases h
    refine ⟨by simp, by simp, ?_⟩
    rcases (StopBook.enter_keyed _ _ _ _).of_ok henter with ⟨_, hafter⟩ | ⟨_, s, _, _, hafter⟩
    · rw [show after = book from hafter, hb]
    · rw [show after = _ from hafter, hb]
      rfl

theorem buy_writes {order : Order} (h : buy model time a order = .ok a') :
    ∃ bought : Option Trade, Continues a a' bought.toList [] ∧
      ∀ t ∈ bought, Fills time order t ∧ 0 < t.quantity := by
  obtain ⟨quantity, haffordable, ⟨_, rfl⟩ | ⟨hne, cash, position, trade, next, hsettle, hnext, h⟩⟩ :=
    buy_cases h
  · exact ⟨none, .refl a', fun _ hm => nomatch hm⟩
  have hbuys := (CostModel.affordable_keyed _ _ _).of_ok haffordable
  obtain ⟨fee, _, _, _, rfl⟩ := (settle_keyed _ _ _ _ _ _ _ _).of_ok hsettle
  let t : Trade := ⟨order.symbol, time, quantity, order.price, fee, .rebalance⟩
  refine ⟨some t, ?_, fun u hu => ?_⟩
  · have hposted : Continues a next [t] [] := by
      subst hnext
      exact ⟨rfl, by simp, rfl⟩
    rcases h with h | rfl
    · exact hposted.trans (enterStop_writes h)
    · exact hposted
  · cases hu
    exact ⟨⟨rfl, rfl, rfl, rfl⟩, (hbuys.resolve_left hne).1⟩

/-- Orders that are filled one after the other, some of them maybe not at all. -/
private theorem fills_write {f : Account → Order → Except Failure Account} {R : Order → Trade → Prop}
    {os : List Order}
    (hf : ∀ a a' o, f a o = .ok a' → ∃ filled : Option Trade, Continues a a' filled.toList [] ∧
      ∀ t ∈ filled, R o t) (h : os.foldlM f a = .ok a') :
    ∃ done new, done.Sublist os ∧ List.Forall₂ R done new ∧ Continues a a' new [] := by
  induction os generalizing a with
  | nil =>
    cases h
    exact ⟨[], [], .slnil, .nil, .refl _⟩
  | cons o os ih =>
    rw [List.foldlM_cons] at h
    obtain ⟨next, hfirst, h⟩ := bind_eq_ok.mp h
    obtain ⟨filled, hcontinues, hR⟩ := hf _ _ _ hfirst
    obtain ⟨done, new, hsub, hnew, hrest⟩ := ih h
    cases filled with
    | none => exact ⟨done, new, hsub.cons o, hnew, hcontinues.trans hrest⟩
    | some t => exact ⟨o :: done, t :: new, hsub.cons_cons o, .cons (hR t rfl) hnew,
        hcontinues.trans hrest⟩

/-- The trades of a rebalance: sales and then purchases, each in ascending order of the symbols, of
symbols that were not stopped and at positive closes. -/
structure Rebalanced (time : Instant) (bars : Register Bar) (stopped : List String)
    (sells buys : List Trade) : Prop where
  distinct : ((sells ++ buys).map (·.symbol)).Nodup
  sold : ∀ t ∈ sells, t.quantity < 0
  bought : ∀ t ∈ buys, 0 < t.quantity
  sellsAscend : (sells.map (·.symbol)).Pairwise (· < ·)
  buysAscend : (buys.map (·.symbol)).Pairwise (· < ·)
  each : ∀ t ∈ sells ++ buys, t.time = time ∧ t.reason = .rebalance ∧ t.symbol ∉ stopped ∧
    ∃ bar, bars.find? t.symbol = some bar ∧ bar.close ≠ 0 ∧ t.price = bar.close

private theorem rebalanced_nil : Rebalanced time bars stopped [] [] :=
  ⟨List.nodup_nil, fun _ hm => absurd hm List.not_mem_nil, fun _ hm => absurd hm List.not_mem_nil,
    .nil, .nil, fun _ hm => absurd hm List.not_mem_nil⟩

/-- Filled orders: those that sell have sales, and those that buy may have purchases. -/
private theorem rebalanced_of_fills {os done bought : List Order} {sells buys : List Trade}
    (hascend : (os.map (·.symbol)).Pairwise (· < ·)) (hpriced : ∀ o ∈ os, o.Priced bars stopped)
    (hdone : done.Sublist (os.filter (·.quantity < 0)))
    (hsells : List.Forall₂ (fun o t => Fills time o t ∧ t.quantity = o.quantity) done sells)
    (hbought : bought.Sublist (os.filter (0 < ·.quantity)))
    (hbuys : List.Forall₂ (fun o t => Fills time o t ∧ 0 < t.quantity) bought buys) :
    Rebalanced time bars stopped sells buys := by
  have hsold : done.map (·.symbol) = sells.map (·.symbol) :=
    map_eq_of_forall₂ hsells fun _ _ h => h.1.symbol.symm
  have hfilled : bought.map (·.symbol) = buys.map (·.symbol) :=
    map_eq_of_forall₂ hbuys fun _ _ h => h.1.symbol.symm
  have hsellsAscend := hascend.sublist ((hdone.trans List.filter_sublist).map (·.symbol))
  have hbuysAscend := hascend.sublist ((hbought.trans List.filter_sublist).map (·.symbol))
  have hselling : ∀ o ∈ done, o ∈ os ∧ o.quantity < 0 := fun o ho => by
    simpa using hdone.subset ho
  have hbuying : ∀ o ∈ bought, o ∈ os ∧ 0 < o.quantity := fun o ho => by
    simpa using hbought.subset ho
  refine ⟨?_, fun t ht => ?_, fun t ht => ?_, hsold ▸ hsellsAscend, hfilled ▸ hbuysAscend,
    fun t ht => ?_⟩
  · have hnodup : (os.map (·.symbol)).Nodup := hascend.imp ne_of_lt
    rw [List.map_append, ← hsold, ← hfilled, List.nodup_append]
    refine ⟨hsellsAscend.imp ne_of_lt, hbuysAscend.imp ne_of_lt, fun symbol hs other ho he => ?_⟩
    obtain ⟨o, hm, rfl⟩ := List.mem_map.mp hs
    obtain ⟨o', hm', rfl⟩ := List.mem_map.mp ho
    -- there is one order for a symbol, and it does not both sell and buy
    obtain rfl := List.inj_on_of_nodup_map hnodup (hselling o hm).1 (hbuying o' hm').1 he
    exact Int.lt_asymm (hselling o hm).2 (hbuying o hm').2
  · obtain ⟨o, ho, _, hquantity⟩ := exists_of_forall₂ hsells t ht
    rw [hquantity]
    exact (hselling o ho).2
  · obtain ⟨o, _, _, hquantity⟩ := exists_of_forall₂ hbuys t ht
    exact hquantity
  · obtain ⟨o, ho, hfills⟩ : ∃ o ∈ os, Fills time o t := by
      rcases List.mem_append.mp ht with ht | ht
      · obtain ⟨o, ho, hfills, _⟩ := exists_of_forall₂ hsells t ht
        exact ⟨o, (hselling o ho).1, hfills⟩
      · obtain ⟨o, ho, hfills, _⟩ := exists_of_forall₂ hbuys t ht
        exact ⟨o, (hbuying o ho).1, hfills⟩
    obtain ⟨hspared, bar, hbar, hclose, hprice⟩ := hpriced o ho
    rw [hfills.symbol, hfills.price]
    exact ⟨hfills.time, hfills.reason, hspared, bar, hbar, hclose, hprice⟩

theorem retarget_writes {targets : Option Targets}
    (h : retarget model time targets bars stopped a = .ok a') :
    ∃ sells buys, Continues a a' (sells ++ buys) [] ∧ Rebalanced time bars stopped sells buys := by
  cases targets with
  | none =>
    cases h
    exact ⟨[], [], .refl _, rebalanced_nil⟩
  | some targets =>
    obtain ⟨equity, _, h⟩ := bind_eq_ok.mp h
    split at h
    · cases h
      exact ⟨[], [], .refl _, rebalanced_nil⟩
    · obtain ⟨os, horders, h⟩ := bind_eq_ok.mp h
      obtain ⟨hascend, hpriced⟩ := (orders_priced equity targets bars stopped a).of_ok horders
      obtain ⟨sold, hsell, hbuy⟩ := bind_eq_ok.mp h
      obtain ⟨done, sells, hdone, hsells, hsold⟩ := fills_write (fun _ _ _ h => by
        obtain ⟨t, hcontinues, ht⟩ := sell_writes h
        exact ⟨some t, hcontinues, fun u hu => Option.mem_some.mp hu ▸ ht⟩) hsell
      obtain ⟨bought, buys, hbought, hbuys, hlast⟩ :=
        fills_write (fun _ _ _ h => buy_writes h) hbuy
      exact ⟨sells, buys, hsold.trans hlast,
        rebalanced_of_fills hascend hpriced hdone hsells hbought hbuys⟩

end Account
end PortfolioLab
