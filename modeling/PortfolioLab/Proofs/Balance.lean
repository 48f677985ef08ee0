import PortfolioLab.Backtest.Account
import PortfolioLab.Proofs.Registers
import PortfolioLab.Proofs.TradeLog

/-!
# The balance of an account

Cash and positions of an account are what its log of trades makes of the initial cash, and its stops
are those of its positions. A trade is posted by one rule, whoever makes it: `Posted` says what it
changes, and the balance and the stops are carried over it.
-/

namespace PortfolioLab.Account

open TradeLog

def held (a : Account) (symbol : String) : Int :=
  ((a.positions.find? symbol).map (·.quantity)).getD 0

/-- Every symbol has at most one position, and every position is of a positive quantity. -/
structure Long (a : Account) : Prop where
  distinct : a.positions.symbols.Nodup
  positive : ∀ symbol position, a.positions.find? symbol = some position → 0 < position.quantity

/-- Cash and positions agree with the log of trades, every position is long and has a last close, and
every buy of the log was paid for. -/
structure Balanced (initial : Int) (a : Account) : Prop where
  cash : a.cash = initial - outlay a.trades
  distinct : a.positions.symbols.Nodup
  held : ∀ symbol, a.held symbol = net symbol a.trades
  positive : ∀ symbol position, a.positions.find? symbol = some position → 0 < position.quantity
  priced : ∀ symbol ∈ a.positions.symbols, symbol ∈ a.lastClose.symbols
  moved : ∀ t ∈ a.trades, t.quantity ≠ 0
  funded : BuysFunded initial a.trades

/-- The stops of a book are those of the positions that have a rule. Each carries the price of the
trade that opened its position, and is active unless it is pending, triggered and not yet left. -/
structure InStep (pending : List String) (a : Account) (book : StopBook) : Prop where
  distinct : book.states.symbols.Nodup
  covered : ∀ symbol, symbol ∈ book.states.symbols ↔
    symbol ∈ a.positions.symbols ∧ symbol ∈ book.rules.symbols
  active : ∀ symbol s, book.states.find? symbol = some s → symbol ∉ pending → s.status = .active
  entry : ∀ symbol s, book.states.find? symbol = some s →
    ∃ t, Opened symbol a.trades t ∧ s.entry = t.price

/-- A balanced account whose stops, if it has a book, are in step. -/
structure Sound (initial : Int) (pending : List String) (a : Account) : Prop where
  balanced : a.Balanced initial
  inStep : ∀ book, a.book = some book → a.InStep pending book

/-- The account after a trade: its position is closed if nothing is left of it. -/
structure Posted (t : Trade) (a a' : Account) : Prop where
  cash : a'.cash = a.cash - t.outlay
  trades : a'.trades = a.trades ++ [t]
  lastClose : a'.lastClose = a.lastClose
  position : a'.positions = a.positions.remove t.symbol ∧ a.held t.symbol + t.quantity = 0 ∨
    ∃ p : Position, a'.positions = a.positions.put t.symbol p ∧
      p.quantity = a.held t.symbol + t.quantity ∧ 0 < p.quantity

variable {initial : Int} {pending : List String} {a a' : Account} {t : Trade} {symbol : String}

theorem held_of_find? {position : Position} (h : a.positions.find? symbol = some position) :
    a.held symbol = position.quantity := by
  simp [Account.held, h]

theorem held_of_not_mem (h : symbol ∉ a.positions.symbols) : a.held symbol = 0 := by
  simp [Account.held, Register.find?_eq_none_iff.mpr h]

theorem held_congr (h : a'.positions.find? symbol = a.positions.find? symbol) :
    a'.held symbol = a.held symbol := by
  rw [Account.held, h, Account.held]

theorem quantity_getD (a : Account) (symbol : String) :
    ((a.positions.find? symbol).getD {}).quantity = a.held symbol := by
  unfold Account.held
  cases a.positions.find? symbol <;> rfl

theorem Long.held_pos (h : a.Long) (hm : symbol ∈ a.positions.symbols) : 0 < a.held symbol := by
  obtain ⟨position, hp⟩ := Register.exists_find?_iff.mpr hm
  rw [held_of_find? hp]
  exact h.positive symbol position hp

theorem Long.held_nonneg (h : a.Long) (symbol : String) : 0 ≤ a.held symbol := by
  by_cases hm : symbol ∈ a.positions.symbols
  · exact Int.le_of_lt (h.held_pos hm)
  · exact Int.le_of_eq (held_of_not_mem hm).symm

theorem Long.mem_iff (h : a.Long) : symbol ∈ a.positions.symbols ↔ a.held symbol ≠ 0 := by
  by_cases hm : symbol ∈ a.positions.symbols
  · have := h.held_pos hm
    exact ⟨fun _ => by omega, fun _ => hm⟩
  · simp [held_of_not_mem hm, hm]

theorem Balanced.long (h : a.Balanced initial) : a.Long := ⟨h.distinct, h.positive⟩

theorem Balanced.held_pos (h : a.Balanced initial) (hm : symbol ∈ a.positions.symbols) :
    0 < a.held symbol := h.long.held_pos hm

theorem Balanced.held_nonneg (h : a.Balanced initial) (symbol : String) : 0 ≤ a.held symbol :=
  h.long.held_nonneg symbol

theorem Balanced.mem_iff (h : a.Balanced initial) :
    symbol ∈ a.positions.symbols ↔ net symbol a.trades ≠ 0 := by
  rw [← h.held]
  exact h.long.mem_iff

namespace Posted

theorem find?_other (h : Posted t a a') (ho : symbol ≠ t.symbol) :
    a'.positions.find? symbol = a.positions.find? symbol := by
  rcases h.position with ⟨hp, _⟩ | ⟨p, hp, _⟩
  · rw [hp, Register.find?_remove_other _ ho]
  · rw [hp, Register.find?_put_other _ _ ho]

theorem held_other (h : Posted t a a') (ho : symbol ≠ t.symbol) : a'.held symbol = a.held symbol :=
  held_congr (h.find?_other ho)

theorem held_same (h : Posted t a a') : a'.held t.symbol = a.held t.symbol + t.quantity := by
  rcases h.position with ⟨hp, hq⟩ | ⟨p, hp, hq, _⟩
  · rw [Account.held, hp, Register.find?_remove_same, hq]
    rfl
  · rw [Account.held, hp, Register.find?_put_same, ← hq]
    rfl

theorem long (h : Posted t a a') (ha : a.Long) : a'.Long where
  distinct := by
    rcases h.position with ⟨hp, _⟩ | ⟨p, hp, _⟩
    · exact hp ▸ Register.nodup_remove ha.distinct
    · exact hp ▸ Register.nodup_put ha.distinct
  positive symbol position hf := by
    by_cases hs : symbol = t.symbol
    · rcases h.position with ⟨hp, _⟩ | ⟨p, hp, _, hpos⟩
      · rw [hp, hs, Register.find?_remove_same] at hf
        cases hf
      · rw [hp, hs, Register.find?_put_same] at hf
        cases hf
        exact hpos
    · exact ha.positive symbol position (h.find?_other hs ▸ hf)

/-- What a posted trade keeps of the balance. -/
theorem balanced (h : Posted t a a') (ha : a.Balanced initial) (hq : t.quantity ≠ 0)
    (hpriced : t.symbol ∈ a.lastClose.symbols) (hfunds : 0 < t.quantity → 0 ≤ a'.cash) :
    a'.Balanced initial where
  cash := by
    rw [h.cash, h.trades, ha.cash, outlay_append, outlay_singleton, Int.sub_sub]
  distinct := (h.long ha.long).distinct
  held symbol := by
    rw [h.trades, net_append, ← ha.held]
    by_cases hs : symbol = t.symbol
    · rw [hs, h.held_same, net_same rfl]
    · rw [h.held_other hs, net_other (fun he => hs he.symm), Int.add_zero]
  positive := (h.long ha.long).positive
  priced symbol hm := by
    rw [h.lastClose]
    by_cases hs : symbol = t.symbol
    · exact hs ▸ hpriced
    · rw [← Register.isSome_find?_iff, h.find?_other hs, Register.isSome_find?_iff] at hm
      exact ha.priced symbol hm
  moved u hu := by
    rw [h.trades] at hu
    rcases List.mem_append.mp hu with hu | hu
    · exact ha.moved u hu
    · exact List.mem_singleton.mp hu ▸ hq
  funded := by
    rw [h.trades]
    refine ha.funded.concat fun hpos => ?_
    have hcash := hfunds hpos
    rw [h.cash, ha.cash] at hcash
    rwa [outlay_append, outlay_singleton, ← Int.sub_sub]

/-- The stop of a symbol that is still held keeps the price of its opening trade. -/
theorem entry_kept (h : Posted t a a') (ha : a'.Balanced initial) {book : StopBook} {s : StopState}
    (hb : a.InStep pending book) (hm : symbol ∈ a'.positions.symbols)
    (hs : book.states.find? symbol = some s) :
    ∃ first, Opened symbol a'.trades first ∧ s.entry = first.price := by
  obtain ⟨first, ho, he⟩ := hb.entry symbol s hs
  have hpos := ha.held_pos hm
  rw [ha.held, h.trades] at hpos
  exact ⟨first, by rw [h.trades]; exact ho.concat hpos, he⟩

/-- A trade that closes its position is in step with a book that drops the stop. -/
theorem inStep_closed (h : Posted t a a') (ha : a'.Balanced initial) {book : StopBook}
    (hp : a'.positions = a.positions.remove t.symbol) (hb : a.InStep (t.symbol :: pending) book) :
    a'.InStep pending (book.release t.symbol) := by
  have hcovered : ∀ symbol, symbol ∈ (book.release t.symbol).states.symbols ↔
      symbol ∈ a'.positions.symbols ∧ symbol ∈ book.rules.symbols := by
    intro symbol
    rw [hp, StopBook.release, Register.mem_symbols_remove, Register.mem_symbols_remove, hb.covered,
      and_assoc]
  have hfind : ∀ symbol s, (book.release t.symbol).states.find? symbol = some s →
      symbol ≠ t.symbol ∧ book.states.find? symbol = some s := by
    intro symbol s hs
    rw [StopBook.release, Register.find?_remove] at hs
    split at hs
    · cases hs
    · next hne => exact ⟨hne, hs⟩
  refine ⟨Register.nodup_remove hb.distinct, hcovered, ?_, ?_⟩
  · intro symbol s hs hn
    obtain ⟨hne, hs⟩ := hfind symbol s hs
    exact hb.active symbol s hs (by simp [hne, hn])
  · intro symbol s hs
    have hm := ((hcovered symbol).mp (Register.exists_find?_iff.mp ⟨s, hs⟩)).1
    exact h.entry_kept ha hb hm (hfind symbol s hs).2

/-- A trade that leaves its position open is in step with the same book, if the position was open or
has no rule. -/
theorem inStep_kept (h : Posted t a a') (ha : a'.Balanced initial) {book : StopBook} {p : Position}
    (hp : a'.positions = a.positions.put t.symbol p)
    (hm : t.symbol ∈ a.positions.symbols ∨ t.symbol ∉ book.rules.symbols)
    (hb : a.InStep pending book) : a'.InStep pending book := by
  have hcovered : ∀ symbol, symbol ∈ book.states.symbols ↔
      symbol ∈ a'.positions.symbols ∧ symbol ∈ book.rules.symbols := by
    intro symbol
    rw [hb.covered, hp, Register.mem_symbols_put]
    by_cases hs : symbol = t.symbol
    · subst hs
      tauto
    · simp [hs]
  refine ⟨hb.distinct, hcovered, hb.active, fun symbol s hs => ?_⟩
  have hheld := ((hcovered symbol).mp (Register.exists_find?_iff.mp ⟨s, hs⟩)).1
  exact h.entry_kept ha hb hheld hs

/-- A trade that opens a position is in step with a book that enters its stop. -/
theorem inStep_entered (h : Posted t a a') (ha : a.Balanced initial) (ha' : a'.Balanced initial)
    {book : StopBook} {p : Position} {s : StopState}
    (hp : a'.positions = a.positions.put t.symbol p) (hm : t.symbol ∉ a.positions.symbols)
    (hq : 0 < t.quantity) (hr : t.symbol ∈ book.rules.symbols) (hs : s.entry = t.price)
    (hactive : s.status = .active) (hb : a.InStep pending book) :
    a'.InStep pending { book with states := book.states.put t.symbol s } := by
  have hcovered : ∀ symbol, symbol ∈ (book.states.put t.symbol s).symbols ↔
      symbol ∈ a'.positions.symbols ∧ symbol ∈ book.rules.symbols := by
    intro symbol
    rw [hp, Register.mem_symbols_put, Register.mem_symbols_put, hb.covered]
    by_cases hs : symbol = t.symbol <;> simp [hs, hr]
  refine ⟨Register.nodup_put hb.distinct, hcovered, ?_, ?_⟩
  · intro symbol u hu hn
    rw [Register.find?_put] at hu
    split at hu
    · cases hu
      exact hactive
    · exact hb.active symbol u hu hn
  · intro symbol u hu
    have hheld := ((hcovered symbol).mp (Register.exists_find?_iff.mp ⟨u, hu⟩)).1
    rw [Register.find?_put] at hu
    split at hu
    · next heq =>
      cases hu
      have hzero : net t.symbol a.trades = 0 := by rw [← ha.held, held_of_not_mem hm]
      exact ⟨t, by rw [h.trades, heq]; exact .of_entry rfl hzero hq, hs⟩
    · exact h.entry_kept ha' hb hheld hu

end Posted

/-! ## Sound accounts -/

namespace Sound

theorem weaken (h : a.Sound initial []) (pending : List String) : a.Sound initial pending :=
  ⟨h.balanced, fun book hb =>
    { h.inStep book hb with
      active := fun symbol s hs _ => (h.inStep book hb).active symbol s hs List.not_mem_nil }⟩

theorem closed (h : a.Sound initial (t.symbol :: pending)) (ht : Posted t a a')
    (hp : a'.positions = a.positions.remove t.symbol)
    (hbook : a'.book = a.book.map (StopBook.release t.symbol)) (hq : t.quantity < 0)
    (hm : t.symbol ∈ a.positions.symbols) : a'.Sound initial pending := by
  have ha := ht.balanced h.balanced (by omega) (h.balanced.priced _ hm) (by omega)
  refine ⟨ha, fun book' hb' => ?_⟩
  obtain ⟨book, hb, rfl⟩ := Option.map_eq_some_iff.mp (hbook.symm.trans hb')
  exact ht.inStep_closed ha hp (h.inStep book hb)

theorem kept (h : a.Sound initial pending) (ht : Posted t a a') (ha : a'.Balanced initial)
    {p : Position} (hp : a'.positions = a.positions.put t.symbol p) (hbook : a'.book = a.book)
    (hm : t.symbol ∈ a.positions.symbols) : a'.Sound initial pending :=
  ⟨ha, fun book hb => ht.inStep_kept ha hp (.inl hm) (h.inStep book (hbook ▸ hb))⟩

end Sound

/-- The second account adds to the log and the events of the first, all at one instant, and leaves the
last closes and the rules of the stops as they are. -/
structure Grows (time : Instant) (a a' : Account) : Prop where
  lastClose : a'.lastClose = a.lastClose
  rules : a'.book.map (·.rules) = a.book.map (·.rules)
  trades : ∃ new, a'.trades = a.trades ++ new ∧ ∀ t ∈ new, t.time = time
  events : ∃ new, a'.events = a.events ++ new ∧ ∀ e ∈ new, e.time = time

namespace Grows

variable {time : Instant} {a'' : Account}

theorem refl (time : Instant) (a : Account) : Grows time a a :=
  ⟨rfl, rfl, ⟨[], by simp⟩, ⟨[], by simp⟩⟩

theorem trans (h : Grows time a a') (h' : Grows time a' a'') : Grows time a a'' := by
  obtain ⟨hclose, hrules, ⟨ts, hts, htime⟩, ⟨es, hes, hetime⟩⟩ := h
  obtain ⟨hclose', hrules', ⟨ts', hts', htime'⟩, ⟨es', hes', hetime'⟩⟩ := h'
  refine ⟨hclose'.trans hclose, hrules'.trans hrules, ⟨ts ++ ts', by simp [hts', hts], ?_⟩,
    ⟨es ++ es', by simp [hes', hes], ?_⟩⟩
  · exact fun t ht => (List.mem_append.mp ht).elim (htime t) (htime' t)
  · exact fun e he => (List.mem_append.mp he).elim (hetime e) (hetime' e)

theorem of_posted (h : Posted t a a') (ht : t.time = time)
    (hrules : a'.book.map (·.rules) = a.book.map (·.rules))
    (hevents : ∃ new, a'.events = a.events ++ new ∧ ∀ e ∈ new, e.time = time) : Grows time a a' :=
  ⟨h.lastClose, hrules, ⟨[t], h.trades, by simpa using ht⟩, hevents⟩

end Grows
end PortfolioLab.Account
