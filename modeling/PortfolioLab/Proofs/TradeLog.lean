import PortfolioLab.Portfolio.Record
import Mathlib.Algebra.BigOperators.Group.List.Basic
import Mathlib.Algebra.Ring.Int.Defs
import Mathlib.Data.List.Induction

/-!
# The log of trades

A log tells what its trades took from the cash, what they left of each symbol, and which trade
opened the position that is held. Every statement about a log is kept up by appending one trade.
-/

namespace PortfolioLab

def Trade.outlay (t : Trade) : Int := t.quantity * t.price + t.fee

def Trade.proceeds (t : Trade) : Int := -(t.quantity * t.price)

theorem Trade.outlay_le_zero_iff {t : Trade} : t.outlay ≤ 0 ↔ t.fee ≤ t.proceeds := by
  have h : t.outlay = t.fee - t.proceeds := by
    simp only [outlay, proceeds]
    omega
  rw [h]
  exact ⟨Int.le_of_sub_nonpos, Int.sub_nonpos_of_le⟩

namespace TradeLog

variable {trades : List Trade} {t : Trade} {symbol : String} {initial : Int}

def outlay (trades : List Trade) : Int := (trades.map Trade.outlay).sum

/-- The quantity of a symbol that a log leaves: bought less sold. -/
def net (symbol : String) (trades : List Trade) : Int :=
  ((trades.filter (·.symbol = symbol)).map (·.quantity)).sum

@[simp] theorem outlay_nil : outlay [] = 0 := rfl

@[simp] theorem outlay_append (xs ys : List Trade) : outlay (xs ++ ys) = outlay xs + outlay ys := by
  simp [outlay]

@[simp] theorem outlay_singleton (t : Trade) : outlay [t] = t.outlay := by simp [outlay]

@[simp] theorem net_nil (symbol : String) : net symbol [] = 0 := rfl

@[simp] theorem net_append (symbol : String) (xs ys : List Trade) :
    net symbol (xs ++ ys) = net symbol xs + net symbol ys := by
  simp [net]

theorem net_same (h : t.symbol = symbol) : net symbol [t] = t.quantity := by simp [net, h]

theorem net_other (h : t.symbol ≠ symbol) : net symbol [t] = 0 := by simp [net, h]

/-- The trade that opened the position held in a symbol: nothing was held before it, and something
ever since. -/
def Opened (symbol : String) (trades : List Trade) (t : Trade) : Prop :=
  ∃ before after, trades = before ++ t :: after ∧ t.symbol = symbol ∧ net symbol before = 0 ∧
    ∀ mid, mid <+: after → 0 < net symbol (before ++ t :: mid)

theorem Opened.of_entry (hs : t.symbol = symbol) (h0 : net symbol trades = 0) (hq : 0 < t.quantity) :
    Opened symbol (trades ++ [t]) t := by
  refine ⟨trades, [], rfl, hs, h0, fun mid hmid => ?_⟩
  rw [List.prefix_nil.mp hmid, net_append, h0, net_same hs]
  omega

/-- A trade that leaves something of the symbol leaves its opening trade. -/
theorem Opened.concat {next : Trade} (h : Opened symbol trades t)
    (hpos : 0 < net symbol (trades ++ [next])) : Opened symbol (trades ++ [next]) t := by
  obtain ⟨before, after, rfl, hs, h0, hmid⟩ := h
  refine ⟨before, after ++ [next], by simp, hs, h0, fun mid hm => ?_⟩
  rcases List.prefix_concat_iff.mp hm with rfl | hm
  · simpa using hpos
  · exact hmid mid hm

def BuysFunded (initial : Int) (trades : List Trade) : Prop :=
  ∀ before buy after, trades = before ++ buy :: after → 0 < buy.quantity →
    0 ≤ initial - outlay (before ++ [buy])

theorem buysFunded_nil (initial : Int) : BuysFunded initial [] := by
  intro before buy after h
  simp at h

theorem BuysFunded.concat (h : BuysFunded initial trades)
    (ht : 0 < t.quantity → 0 ≤ initial - outlay (trades ++ [t])) :
    BuysFunded initial (trades ++ [t]) := by
  intro before buy after he hq
  rcases List.eq_nil_or_concat after with rfl | ⟨init, last, rfl⟩
  · obtain ⟨rfl, hb⟩ := List.append_inj' he rfl
    cases hb
    exact ht hq
  · have he' : trades ++ [t] = (before ++ buy :: init) ++ [last] := by simpa using he
    exact h before buy init (List.append_inj' he' rfl).1 hq

theorem BuysFunded.left {more : List Trade} (h : BuysFunded initial (trades ++ more)) :
    BuysFunded initial trades := by
  rintro before buy after rfl hq
  exact h before buy (after ++ more) (by simp) hq

/-- While every sale brings in at least its fee, a log of funded buys leaves no debt. -/
theorem BuysFunded.remaining_nonneg (h : BuysFunded initial trades) (h0 : 0 ≤ initial)
    (hq : ∀ t ∈ trades, t.quantity ≠ 0)
    (hs : ∀ t ∈ trades, t.quantity < 0 → t.fee ≤ t.proceeds) :
    0 ≤ initial - outlay trades := by
  induction trades using List.reverseRecOn with
  | nil => simpa using h0
  | append_singleton trades t ih =>
    have hmem : t ∈ trades ++ [t] := by simp
    rcases Int.lt_or_gt_of_ne (hq t hmem) with hneg | hpos
    · have hprev := ih h.left (fun t ht => hq t (List.mem_append_left _ ht))
        fun t ht => hs t (List.mem_append_left _ ht)
      have hsale := Trade.outlay_le_zero_iff.mpr (hs t hmem hneg)
      rw [outlay_append, outlay_singleton]
      omega
    · exact h trades t [] rfl hpos

end TradeLog
end PortfolioLab
