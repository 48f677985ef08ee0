import PortfolioLab.Proofs.Postings
import PortfolioLab.Proofs.Twins

/-!
# Accounts in different surroundings

Cash, positions and stops of an account stand among what is known of the market, the priorities of its
book and the log so far. A rebalance reads the last closes of the positions and the histories of the
symbols that it buys, and neither the priorities nor the log. So in surroundings that agree on the
symbols in question it makes the same of the same account.
-/

namespace PortfolioLab

/-- What surrounds the cash, the positions and the stops of an account. -/
structure Surroundings where
  lastClose : Register Cents
  histories : Register (List Bar)
  priority : List String
  trades : List Trade
  events : List StopEvent

namespace Surroundings

variable {s s₁ s₂ : Surroundings} {P : String → Prop} {bars bars₁ bars₂ : Register Bar}
  {symbol : String}

structure Agree (P : String → Prop) (s₁ s₂ : Surroundings) : Prop where
  lastClose : ∀ symbol, P symbol → s₁.lastClose.find? symbol = s₂.lastClose.find? symbol
  histories : ∀ symbol, P symbol → s₁.histories.find? symbol = s₂.histories.find? symbol

def logged (trades : List Trade) (events : List StopEvent) (s : Surroundings) : Surroundings :=
  { s with trades := s.trades ++ trades, events := s.events ++ events }

def learn (bars : Register Bar) (s : Surroundings) : Surroundings where
  lastClose := bars.foldl (fun closes entry => closes.put entry.1 entry.2.close) s.lastClose
  histories := bars.foldl (fun histories entry =>
    histories.put entry.1 ((histories.find? entry.1).getD [] ++ [entry.2])) s.histories
  priority := s.priority
  trades := s.trades
  events := s.events

private theorem find?_histories {histories : Register (List Bar)} (h : bars.symbols.Nodup) :
    (bars.foldl (fun histories entry =>
      histories.put entry.1 ((histories.find? entry.1).getD [] ++ [entry.2])) histories).find? symbol =
      ((bars.find? symbol).map fun bar => (histories.find? symbol).getD [] ++ [bar]).or
        (histories.find? symbol) := by
  induction bars generalizing histories with
  | nil => rfl
  | cons entry rest ih =>
    obtain ⟨hnot, hn⟩ := List.nodup_cons.mp h
    rw [List.foldl_cons, ih hn, Register.find?_put]
    by_cases hs : symbol = entry.1
    · subst hs
      have hnone : Register.find? rest entry.1 = none := Register.find?_eq_none_iff.mpr hnot
      simp [hnone, Register.find?]
    · have hs' : entry.1 ≠ symbol := fun he => hs he.symm
      simp [hs, hs', Register.find?]

theorem Agree.learn (h : Agree P s₁ s₂) (hn₁ : bars₁.symbols.Nodup) (hn₂ : bars₂.symbols.Nodup)
    (hbars : ∀ symbol, P symbol → bars₁.find? symbol = bars₂.find? symbol) :
    Agree P (s₁.learn bars₁) (s₂.learn bars₂) := by
  constructor
  · intro symbol hs
    simp only [Surroundings.learn]
    rw [Register.find?_foldl_put (·.close) hn₁, Register.find?_foldl_put (·.close) hn₂,
      hbars symbol hs, h.lastClose symbol hs]
  · intro symbol hs
    simp only [Surroundings.learn]
    rw [find?_histories hn₁, find?_histories hn₂, hbars symbol hs, h.histories symbol hs]

end Surroundings

def StopBook.withPriority (priority : List String) (book : StopBook) : StopBook := { book with priority }

theorem StopBook.enter_commutes (priority : List String) (symbol : String) (entry : Cents)
    (history : List Bar) : Transition.Commutes (withPriority priority) (enter symbol entry history) := by
  intro book
  rw [commit_enter, commit_enter]
  simp only [withPriority]
  cases book.rules.find? symbol with
  | none => rfl
  | some rule =>
    dsimp only
    generalize Transition.commit _ _ = r
    cases r <;> rfl

namespace Account

/-- The account in other surroundings; the log so far comes before its own. -/
def within (s : Surroundings) (a : Account) : Account where
  cash := a.cash
  positions := a.positions
  lastClose := s.lastClose
  histories := s.histories
  book := a.book.map (StopBook.withPriority s.priority)
  trades := s.trades ++ a.trades
  events := s.events ++ a.events

variable {s s₁ s₂ : Surroundings} {P : String → Prop} {a : Account} {model : CostModel}
  {time : Instant} {bars₁ bars₂ : Register Bar} {stopped₁ stopped₂ : List String} {targets : Targets}

theorem learn_within (bars : Register Bar) (s : Surroundings) (a : Account) :
    (a.within s).learn bars = a.within (s.learn bars) := by
  unfold Account.learn
  induction bars generalizing s with
  | nil => rfl
  | cons entry rest ih =>
    exact ih { s with
      lastClose := s.lastClose.put entry.1 entry.2.close
      histories := s.histories.put entry.1 ((s.histories.find? entry.1).getD [] ++ [entry.2]) }

/-! ## Rebalancing -/

theorem equity_within (h : s₁.Agree P s₂) (ha : ∀ symbol ∈ a.positions.symbols, P symbol) :
    (a.within s₁).equity = (a.within s₂).equity := by
  refine foldlM_congr (fun entry hm total => ?_) a.cash
  have hP : P entry.1 := ha entry.1 (List.mem_map_of_mem hm)
  simp only [within, h.lastClose entry.1 hP]

theorem mem_concerned {symbol : String} :
    symbol ∈ concerned targets a ↔ symbol ∈ targets.symbols ∨ symbol ∈ a.positions.symbols := by
  rw [concerned, mem_ascending, List.mem_eraseDups, List.mem_append]

theorem mem_concerned_of_orders {equity : Cents} {os : List Order}
    (h : a.orders equity targets bars₁ stopped₁ = .ok os) : ∀ o ∈ os, o.symbol ∈ concerned targets a := by
  obtain ⟨found, hfound, h⟩ := bind_eq_ok.mp h
  cases h
  intro o ho
  obtain ⟨_, hm, rfl⟩ := List.mem_filterMap.mp ho
  obtain ⟨symbol, hsymbol, horder⟩ := exists_of_forall₂ (forall₂_of_mapM hfound) _ hm
  rw [((orderFor_priced equity targets stopped₁ a symbol).of_ok horder o rfl).1]
  exact hsymbol

theorem orders_within (s₁ s₂ : Surroundings) (htargets : ∀ symbol ∈ targets.symbols, P symbol)
    (ha : ∀ symbol ∈ a.positions.symbols, P symbol)
    (hbars : ∀ symbol, P symbol → bars₁.find? symbol = bars₂.find? symbol)
    (hstopped : ∀ symbol, symbol ∈ stopped₁ ↔ symbol ∈ stopped₂) (equity : Cents) :
    (a.within s₁).orders equity targets bars₁ stopped₁ =
      (a.within s₂).orders equity targets bars₂ stopped₂ := by
  have hcontains : ∀ symbol, stopped₁.contains symbol = stopped₂.contains symbol := by
    intro symbol
    rw [Bool.eq_iff_iff, List.contains_iff_mem, List.contains_iff_mem, hstopped]
  have hfound : (concerned targets a).mapM (orderFor equity targets bars₁ stopped₁ (a.within s₁)) =
      (concerned targets a).mapM (orderFor equity targets bars₂ stopped₂ (a.within s₂)) := by
    refine mapM_congr fun symbol hm => ?_
    have hP : P symbol := (mem_concerned.mp hm).elim (htargets symbol) (ha symbol)
    rw [orderFor, orderFor, hcontains symbol, hbars symbol hP]
    rfl
  unfold orders
  exact congrArg (· >>= fun found => pure (found.filterMap id)) hfound

theorem sell_within (s : Surroundings) (a : Account) (order : Order) :
    sell model time (a.within s) order = (sell model time a order).map (within s) := by
  unfold sell
  simp only [within]
  cases a.positions.find? order.symbol with
  | none => rfl
  | some position =>
    dsimp only
    generalize settle model a.cash position order.symbol time order.quantity order.price .rebalance = r
    cases r with
    | error e => rfl
    | ok r =>
      have hrelease : (a.book.map (StopBook.withPriority s.priority)).map (StopBook.release order.symbol) =
          (a.book.map (StopBook.release order.symbol)).map (StopBook.withPriority s.priority) := by
        cases a.book <;> rfl
      simp only [ok_bind, pure, Except.pure, Except.map]
      split
      · simp only [within, hrelease, List.append_assoc]
      · simp only [within, List.append_assoc]

theorem enterStop_within {symbol : String} (h : s₁.Agree P s₂) (hP : P symbol) (price : Cents)
    (a : Account) : Twins (within s₁) (within s₂) (enterStop symbol price (a.within s₁))
      (enterStop symbol price (a.within s₂)) := by
  unfold enterStop
  simp only [within, ← h.histories symbol hP]
  cases hb : a.book with
  | none => exact ⟨.ok a, by simp [within, hb, Except.map], by simp [within, hb, Except.map]⟩
  | some book =>
    exact (Twins.of_commutes (StopBook.enter_commutes _ _ _ _) (StopBook.enter_commutes _ _ _ _)
      book).bind fun p => ⟨.ok { a with book := some p.2 }, rfl, rfl⟩

theorem buy_within {order : Order} (h : s₁.Agree P s₂) (hP : P order.symbol) (a : Account) :
    Twins (within s₁) (within s₂) (buy model time (a.within s₁) order)
      (buy model time (a.within s₂) order) := by
  unfold buy
  refine Twins.bind_same fun quantity _ => ?_
  split
  · exact .ok a
  · refine Twins.bind_same fun r _ => ?_
    simp only [within, List.append_assoc]
    split
    · exact enterStop_within h hP order.price { a with cash := _, positions := _, trades := _ }
    · exact ⟨.ok { a with cash := _, positions := _, trades := _ }, rfl, rfl⟩

/-- A rebalance of an account in two surroundings. -/
theorem retarget_within (model : CostModel) (time : Instant) {targets : Option Targets} (h : s₁.Agree P s₂)
    (htargets : ∀ t ∈ targets, ∀ symbol ∈ t.symbols, P symbol)
    (ha : ∀ symbol ∈ a.positions.symbols, P symbol)
    (hbars : ∀ symbol, P symbol → bars₁.find? symbol = bars₂.find? symbol)
    (hstopped : ∀ symbol, symbol ∈ stopped₁ ↔ symbol ∈ stopped₂) :
    Twins (within s₁) (within s₂) (retarget model time targets bars₁ stopped₁ (a.within s₁))
      (retarget model time targets bars₂ stopped₂ (a.within s₂)) := by
  cases targets with
  | none => exact .ok a
  | some targets =>
    have htargets' := htargets targets rfl
    unfold retarget rebalance
    dsimp only
    rw [equity_within h ha]
    refine .bind_same fun equity _ => ?_
    split
    · exact .ok a
    · rw [orders_within s₁ s₂ htargets' ha hbars hstopped]
      refine .bind_same fun os hos => ?_
      have hP : ∀ o ∈ os, P o.symbol := fun o ho =>
        (mem_concerned.mp (mem_concerned_of_orders hos o ho)).elim (htargets' _) (ha _)
      refine (Twins.foldlM (fun o _ a => ?_) a).bind fun sold => ?_
      · exact ⟨sell model time a o, sell_within s₁ a o, sell_within s₂ a o⟩
      · exact Twins.foldlM (fun o ho a => buy_within h (hP o (List.mem_filter.mp ho).1) a) sold

/-! ## What is held after a rebalance -/

private theorem symbols_of_sell {a' : Account} {order : Order} (h : sell model time a order = .ok a') :
    ∀ symbol ∈ a'.positions.symbols, symbol ∈ a.positions.symbols := by
  obtain ⟨position, cash, rest, trade, hp, _, ⟨_, rfl⟩ | ⟨_, rfl⟩⟩ := sell_cases h
  · exact fun symbol hs => (Register.mem_symbols_remove.mp hs).2
  · intro symbol hs
    rwa [Register.symbols_put_of_mem (Register.exists_find?_iff.mp ⟨position, hp⟩)] at hs

private theorem symbols_of_buy {a' : Account} {order : Order} (h : buy model time a order = .ok a') :
    ∀ symbol ∈ a'.positions.symbols, symbol = order.symbol ∨ symbol ∈ a.positions.symbols := by
  obtain ⟨quantity, _, ⟨_, rfl⟩ | ⟨_, cash, position, trade, next, _, rfl, h⟩⟩ := buy_cases h
  · exact fun symbol hs => .inr hs
  · have hput : a'.positions = a.positions.put order.symbol position := by
      rcases h with h | rfl
      · obtain ⟨book, rfl⟩ := enterStop_cases h
        rfl
      · rfl
    rw [hput]
    exact fun symbol hs => Register.mem_symbols_put.mp hs

/-- After a rebalance only what was held before or has a target is held. -/
theorem symbols_of_retarget {a' : Account} {targets : Option Targets}
    (htargets : ∀ t ∈ targets, ∀ symbol ∈ t.symbols, P symbol)
    (ha : ∀ symbol ∈ a.positions.symbols, P symbol)
    (h : retarget model time targets bars₁ stopped₁ a = .ok a') :
    ∀ symbol ∈ a'.positions.symbols, P symbol := by
  cases targets with
  | none =>
    cases h
    exact ha
  | some targets =>
    obtain ⟨equity, _, h⟩ := bind_eq_ok.mp h
    split at h
    · cases h
      exact ha
    · obtain ⟨os, hos, h⟩ := bind_eq_ok.mp h
      obtain ⟨sold, hsell, hbuy⟩ := bind_eq_ok.mp h
      have hP : ∀ o ∈ os, P o.symbol := fun o ho =>
        (mem_concerned.mp (mem_concerned_of_orders hos o ho)).elim (htargets targets rfl _) (ha _)
      have hsold : ∀ symbol ∈ sold.positions.symbols, P symbol :=
        foldlM_keeps (I := fun a : Account => ∀ symbol ∈ a.positions.symbols, P symbol)
          (fun a o _ a' ha h symbol hs => ha symbol (symbols_of_sell h symbol hs)) ha hsell
      refine foldlM_keeps (I := fun a : Account => ∀ symbol ∈ a.positions.symbols, P symbol)
        (fun a o ho a' ha h symbol hs => ?_) hsold hbuy
      rcases symbols_of_buy h symbol hs with rfl | hs
      · exact hP o (List.mem_filter.mp ho).1
      · exact ha symbol hs

/-! ## Holdings -/

theorem takeStock_within (h : s₁.Agree P s₂) (ha : ∀ symbol ∈ a.positions.symbols, P symbol) :
    Run.takeStock time (a.within s₁) = Run.takeStock time (a.within s₂) := by
  refine foldlM_congr (fun symbol hm r => ?_) ([], 0)
  have hP : P symbol := ha symbol (mem_ascending.mp hm)
  simp only [Run.holdingOf, within, h.lastClose symbol hP]

end Account
end PortfolioLab
