import PortfolioLab.Backtest.Account
import PortfolioLab.Proofs.Amounts

/-!
# Fees, fills and settlement

What one trade does: its fee, the quantity of the position after it, and the cash after it. A buy is
sized so that its value and its fee fit into the cash.
-/

namespace PortfolioLab

namespace CostModel

variable {m : CostModel}

theorem fee_keyed (notional : Int) : Keyed (fun _ => True) (m.fee notional) := by
  refine Keyed.bind (P := fun _ => True) ?_ fun parts _ => (Cents.check_keyed _).imp fun _ _ => trivial
  exact (Cents.check_keyed _).bind fun _ _ => trivial

/-- A quantity that a buy may have: none, or one whose value and fee fit into the cash. -/
def Affords (m : CostModel) (limit price cash quantity : Int) : Prop :=
  quantity = 0 ∨ 0 < quantity ∧ quantity ≤ limit ∧
    ∃ fee, m.fee (quantity * price) = .ok fee ∧ quantity * price + fee ≤ cash

theorem Affords.mono {limit limit' price cash quantity : Int} (hl : limit ≤ limit')
    (h : m.Affords limit price cash quantity) : m.Affords limit' price cash quantity := by
  rcases h with h | ⟨hpos, hle, hfee⟩
  · exact .inl h
  · exact .inr ⟨hpos, hle.trans hl, hfee⟩

private theorem affordableLoop_keyed (price cash : Int) (rounds : Nat) (quantity : Int) :
    Keyed (m.Affords quantity price cash) (m.affordableLoop price cash rounds quantity) := by
  induction rounds generalizing quantity with
  | zero => exact .inl rfl
  | succ rounds ih =>
    simp only [affordableLoop]
    split
    · exact .inl rfl
    · next hq =>
      refine (fee_keyed _).bind_ok fun fee hfee => ?_
      split
      · next hfits => exact .inr ⟨Int.not_le.mp hq, Int.le_refl _, fee, hfee, hfits⟩
      · split
        · simp
        · exact (ih _).imp fun q hq => hq.mono (by omega)

theorem affordable_keyed (quantity price cash : Int) :
    Keyed (m.Affords quantity price cash) (m.affordable quantity price cash) :=
  affordableLoop_keyed price cash _ quantity

end CostModel

namespace Position

variable {p : Position} {quantity price : Int}

theorem commit_buy : (buy quantity price).commit p = do
    let cost ← Cents.check (p.totalCost + quantity * price)
    let average ← Cents.divide cost (p.quantity + quantity)
    return ((), { p with
      quantity := p.quantity + quantity, totalCost := cost, averageEntry := average }) := by
  simp [buy, Transition.commit_bind, bind_assoc, pure, Except.pure]

theorem commit_sell : (sell quantity price).commit p = do
    let sold := min quantity p.quantity
    let realized ← Cents.check (p.realizedProfit + sold * (price - p.averageEntry))
    let cost ← Cents.check (p.averageEntry * (p.quantity - sold))
    return ((), { p with
      quantity := p.quantity - sold, totalCost := cost, realizedProfit := realized
      averageEntry := if p.quantity - sold = 0 then 0 else p.averageEntry }) := by
  simp only [sell, Transition.commit_bind, Transition.commit_get, Transition.commit_require,
    Transition.commit_modify, bind_assoc, ok_bind]
  split
  · simp [pure, Except.pure]
  · rfl

theorem divide_keyed (n d : Int) : Keyed (fun _ => True) (Cents.divide n d) := by
  unfold Cents.divide
  split <;> simp

/-- A fill that sells no more than is held changes the quantity by its own. -/
theorem fill_keyed (p : Position) (quantity price : Int) :
    Keyed (fun r => 0 ≤ p.quantity + quantity → r.2.quantity = p.quantity + quantity)
      ((fill quantity price).commit p) := by
  unfold fill
  split
  · rw [commit_buy]
    refine (Cents.check_keyed _).bind fun cost _ => ?_
    exact (divide_keyed _ _).bind fun average _ _ => rfl
  · split
    · rw [commit_sell]
      refine (Cents.check_keyed _).bind fun realized _ => ?_
      refine (Cents.check_keyed _).bind fun cost _ h => ?_
      have hsold : min (-quantity) p.quantity = -quantity := by omega
      simp only [hsold]
      omega
    · have hq : quantity = 0 := by omega
      simp [hq]

end Position

namespace Account

/-- A settled trade: its record, the cash after it, and the quantity after it unless more is sold than
is held. -/
def Settled (model : CostModel) (cash : Cents) (position : Position) (symbol : String)
    (time : Instant) (quantity price : Int) (reason : TradeReason) (r : Cents × Position × Trade) :
    Prop :=
  ∃ fee, model.fee (quantity * price) = .ok fee ∧ r.1 = cash - (quantity * price + fee) ∧
    (0 ≤ position.quantity + quantity → r.2.1.quantity = position.quantity + quantity) ∧
    r.2.2 = { symbol, time, quantity, price, fee, reason }

theorem settle_keyed (model : CostModel) (cash : Cents) (position : Position) (symbol : String)
    (time : Instant) (quantity price : Int) (reason : TradeReason) :
    Keyed (Settled model cash position symbol time quantity price reason)
      (settle model cash position symbol time quantity price reason) := by
  refine (CostModel.fee_keyed _).bind_ok fun fee hfee => ?_
  refine (Cents.check_keyed _).bind fun notional hn => ?_
  refine (Cents.sum_keyed _).bind fun rest hr => ?_
  refine (Position.fill_keyed _ _ _).bind fun filled hq => ?_
  refine ⟨fee, hfee, ?_, hq, rfl⟩
  have hrest : rest = cash + (-notional + (-fee + 0)) := hr.1
  rw [hn.1] at hrest
  show rest = cash - (quantity * price + fee)
  omega

theorem inRange_cash_of_settle {model : CostModel} {cash : Cents} {position : Position}
    {symbol : String} {time : Instant} {quantity price : Int} {reason : TradeReason}
    {r : Cents × Position × Trade}
    (h : settle model cash position symbol time quantity price reason = .ok r) : Cents.InRange r.1 := by
  obtain ⟨fee, _, h⟩ := bind_eq_ok.mp h
  obtain ⟨notional, _, h⟩ := bind_eq_ok.mp h
  obtain ⟨rest, hrest, h⟩ := bind_eq_ok.mp h
  obtain ⟨filled, _, h⟩ := bind_eq_ok.mp h
  cases h
  exact ((Cents.sum_keyed _).of_ok hrest).2.1

end Account
end PortfolioLab
