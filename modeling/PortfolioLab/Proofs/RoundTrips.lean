import PortfolioLab.Proofs.Rounding
import PortfolioLab.Proofs.Settlement
import Mathlib.Algebra.BigOperators.Group.List.Basic

/-!
# Round trips

A sequence of fills that ends without a position has realized what its sales brought in over what its
buys cost, up to rounding. A buy keeps the cost of what is held exactly and rounds the average price to
a cent; a sale takes that average for the cost of every unit, those that it leaves included. So each
sale adds to the profit what the average had been rounded by, over all units then held.
-/

namespace PortfolioLab

structure Fill where
  quantity : Int
  price : Int
  deriving Repr, DecidableEq

/-- What a fill takes from the cash, fees apart. -/
def Fill.outlay (f : Fill) : Int := f.quantity * f.price

namespace Position

variable {p q : Position} {quantity price : Int} {r : Unit × Position}

/-- The cost of what is held, less its cost at the rounded average price. -/
def remainder (p : Position) : Int := p.totalCost - p.averageEntry * p.quantity

/-- The fills of a sequence, each with the position before it, and the position at the end. -/
def trail (p : Position) : List Fill → Except Failure (List (Position × Fill) × Position)
  | [] => .ok ([], p)
  | f :: fills => do
    let (_, next) ← (fill f.quantity f.price).commit p
    let (steps, last) ← trail next fills
    return ((p, f) :: steps, last)

/-- A trail is its first fill and the trail from the position that this leads to. -/
theorem trail_cons_iff {f : Fill} {fills : List Fill} {steps : List (Position × Fill)} :
    p.trail (f :: fills) = .ok (steps, q) ↔ ∃ next later, (fill f.quantity f.price).commit p = .ok ((), next) ∧
      next.trail fills = .ok (later, q) ∧ steps = (p, f) :: later := by
  constructor
  · intro h
    obtain ⟨⟨_, next⟩, hfill, h⟩ := bind_eq_ok.mp h
    obtain ⟨⟨later, last⟩, hrest, h⟩ := bind_eq_ok.mp h
    cases h
    exact ⟨next, later, hfill, hrest, rfl⟩
  · rintro ⟨next, later, hfill, hrest, rfl⟩
    rw [trail, hfill, ok_bind]
    dsimp only
    rw [hrest]
    rfl

/-- What the sales of a trail add to the profit by rounding. -/
def roundedOff (steps : List (Position × Fill)) : Int :=
  ((steps.filter (·.2.quantity < 0)).map (·.1.remainder)).sum

@[simp] theorem roundedOff_nil : roundedOff [] = 0 := rfl

theorem roundedOff_cons_sale {f : Fill} (hf : f.quantity < 0) (steps : List (Position × Fill)) :
    roundedOff ((p, f) :: steps) = p.remainder + roundedOff steps := by
  simp [roundedOff, hf]

theorem roundedOff_cons_other {f : Fill} (hf : ¬ f.quantity < 0) (steps : List (Position × Fill)) :
    roundedOff ((p, f) :: steps) = roundedOff steps := by
  simp [roundedOff, hf]

/-! ## One fill -/

theorem of_commit_buy (h : (buy quantity price).commit p = .ok r) :
    r.2.quantity = p.quantity + quantity ∧ r.2.totalCost = p.totalCost + quantity * price ∧
      r.2.realizedProfit = p.realizedProfit ∧
      r.2.averageEntry = divHalfEven r.2.totalCost r.2.quantity := by
  rw [commit_buy] at h
  obtain ⟨cost, hcost, h⟩ := bind_eq_ok.mp h
  obtain ⟨average, haverage, h⟩ := bind_eq_ok.mp h
  cases h
  have hc := (Cents.eq_of_check hcost).1
  unfold Cents.divide at haverage
  split at haverage
  · cases haverage
  · exact ⟨rfl, hc, rfl, (Except.ok.inj haverage).symm⟩

theorem of_commit_sell (hheld : quantity ≤ p.quantity)
    (h : (sell quantity price).commit p = .ok r) :
    r.2.quantity = p.quantity - quantity ∧ r.2.totalCost = p.averageEntry * r.2.quantity ∧
      r.2.realizedProfit = p.realizedProfit + quantity * (price - p.averageEntry) ∧
      r.2.averageEntry = if r.2.quantity = 0 then 0 else p.averageEntry := by
  rw [commit_sell] at h
  have hsold : min quantity p.quantity = quantity := min_eq_left hheld
  simp only [hsold] at h
  obtain ⟨realized, hrealized, h⟩ := bind_eq_ok.mp h
  obtain ⟨cost, hcost, h⟩ := bind_eq_ok.mp h
  cases h
  exact ⟨rfl, (Cents.eq_of_check hcost).1, (Cents.eq_of_check hrealized).1, rfl⟩

structure Averaged (p : Position) : Prop where
  held : 0 ≤ p.quantity
  near : |2 * p.remainder| ≤ p.quantity

theorem averaged_fresh : Averaged {} := by
  refine ⟨le_refl 0, ?_⟩
  simp [remainder]

theorem averaged_of_buy (hp : p.Averaged) (hq : 0 < quantity)
    (h : (buy quantity price).commit p = .ok r) : r.2.Averaged := by
  obtain ⟨hquantity, _, _, haverage⟩ := of_commit_buy h
  have hheld := hp.held
  have hpos : 0 < r.2.quantity := by omega
  refine ⟨by omega, ?_⟩
  have hnear := abs_two_mul_divHalfEven_sub_le r.2.totalCost hpos
  rw [← haverage] at hnear
  rw [remainder, ← abs_neg]
  have hswap : -(2 * (r.2.totalCost - r.2.averageEntry * r.2.quantity)) =
      2 * (r.2.averageEntry * r.2.quantity - r.2.totalCost) := by ring
  rw [hswap]
  exact hnear

/-- A sale takes the rounded average for the cost of every unit that it leaves. -/
theorem remainder_of_sell (hheld : quantity ≤ p.quantity)
    (h : (sell quantity price).commit p = .ok r) : r.2.remainder = 0 := by
  obtain ⟨_, hcost, _, haverage⟩ := of_commit_sell hheld h
  rw [remainder, hcost, haverage]
  split
  · next hzero => simp [hzero]
  · simp

theorem averaged_of_sell (hheld : quantity ≤ p.quantity)
    (h : (sell quantity price).commit p = .ok r) : r.2.Averaged := by
  obtain ⟨hquantity, _, _, _⟩ := of_commit_sell hheld h
  refine ⟨by omega, ?_⟩
  rw [remainder_of_sell hheld h]
  simp
  omega

/-- What a fill makes of the profit and the cost of what is held. -/
theorem profit_of_fill {f : Fill} (hp : p.Averaged) (hheld : 0 ≤ p.quantity + f.quantity)
    (h : (fill f.quantity f.price).commit p = .ok r) :
    r.2.Averaged ∧ r.2.realizedProfit - r.2.totalCost = p.realizedProfit - p.totalCost - f.outlay +
      if f.quantity < 0 then p.remainder else 0 := by
  unfold fill at h
  split at h
  · next hbuy =>
    have hnot : ¬ f.quantity < 0 := by omega
    obtain ⟨_, hcost, hprofit, _⟩ := of_commit_buy h
    refine ⟨averaged_of_buy hp hbuy h, ?_⟩
    rw [hcost, hprofit, if_neg hnot, Fill.outlay]
    ring
  · split at h
    · next hsell =>
      have hcovered : -f.quantity ≤ p.quantity := by omega
      obtain ⟨hquantity, hcost, hprofit, _⟩ := of_commit_sell hcovered h
      refine ⟨averaged_of_sell hcovered h, ?_⟩
      rw [hcost, hprofit, hquantity, if_pos hsell, Fill.outlay, remainder]
      ring
    · next hbuy hsell =>
      have hzero : f.quantity = 0 := by omega
      cases h
      refine ⟨hp, ?_⟩
      simp [hzero, Fill.outlay]

/-! ## A sequence of fills -/

/-- The profit of a trail, and the cost of what is held at its end. -/
theorem profit_of_trail {fills : List Fill} {steps : List (Position × Fill)} (hp : p.Averaged)
    (h : p.trail fills = .ok (steps, q)) (hheld : ∀ s ∈ steps, 0 ≤ s.1.quantity + s.2.quantity) :
    (∀ s ∈ steps, s.1.Averaged) ∧ q.Averaged ∧ q.realizedProfit - q.totalCost =
      p.realizedProfit - p.totalCost - (fills.map Fill.outlay).sum + roundedOff steps := by
  induction fills generalizing p steps with
  | nil =>
    cases h
    simp [hp]
  | cons f fills ih =>
    obtain ⟨next, later, hfill, hrest, rfl⟩ := trail_cons_iff.mp h
    obtain ⟨hfirst, hlater⟩ := List.forall_mem_cons.mp hheld
    obtain ⟨hnext, hstep⟩ := profit_of_fill hp hfirst hfill
    obtain ⟨haveraged, hlast, hprofit⟩ := ih hnext hrest hlater
    refine ⟨List.forall_mem_cons.mpr ⟨hp, haveraged⟩, hlast, ?_⟩
    rw [hprofit, hstep, List.map_cons, List.sum_cons]
    by_cases hsale : f.quantity < 0
    · rw [if_pos hsale, roundedOff_cons_sale hsale]
      ring
    · rw [if_neg hsale, roundedOff_cons_other hsale]
      ring

theorem Averaged.totalCost_eq_zero (hp : p.Averaged) (hq : p.quantity = 0) : p.totalCost = 0 := by
  have hnear := hp.near
  rw [remainder, hq, Int.mul_zero, Int.sub_zero] at hnear
  have hzero : 2 * p.totalCost = 0 := abs_nonpos_iff.mp hnear
  simpa using hzero

theorem roundedOff_eq_zero {steps : List (Position × Fill)}
    (h : ∀ s ∈ steps, s.2.quantity < 0 → s.1.averageEntry * s.1.quantity = s.1.totalCost) :
    roundedOff steps = 0 := by
  induction steps with
  | nil => rfl
  | cons step steps ih =>
    obtain ⟨hfirst, hlater⟩ := List.forall_mem_cons.mp h
    obtain ⟨p, f⟩ := step
    by_cases hsale : f.quantity < 0
    · have hexact := hfirst hsale
      rw [roundedOff_cons_sale hsale, ih hlater, remainder, hexact, Int.sub_self, Int.add_zero]
    · rw [roundedOff_cons_other hsale, ih hlater]

/-- The profit of a round trip is what its sales brought in over what its buys cost, and what its sales
added by rounding: at each sale at most half a cent for each unit held, and nothing where the average
price was exact. -/
theorem round_trip_profit {fills : List Fill} {steps : List (Position × Fill)}
    (h : trail {} fills = .ok (steps, q)) (hheld : ∀ s ∈ steps, 0 ≤ s.1.quantity + s.2.quantity)
    (hclosed : q.quantity = 0) :
    q.realizedProfit = -(fills.map Fill.outlay).sum + roundedOff steps ∧
      (∀ s ∈ steps, |2 * s.1.remainder| ≤ s.1.quantity) ∧
      ((∀ s ∈ steps, s.2.quantity < 0 → s.1.averageEntry * s.1.quantity = s.1.totalCost) →
        q.realizedProfit = -(fills.map Fill.outlay).sum) := by
  obtain ⟨haveraged, hlast, hprofit⟩ := profit_of_trail averaged_fresh h hheld
  have hcost := hlast.totalCost_eq_zero hclosed
  have htotal : q.realizedProfit = -(fills.map Fill.outlay).sum + roundedOff steps := by
    rw [hcost] at hprofit
    simp only [Int.sub_zero, Int.zero_sub] at hprofit
    exact hprofit
  refine ⟨htotal, ?_, ?_⟩
  · intro s hs
    exact (haveraged s hs).near
  · intro hexact
    rw [htotal, roundedOff_eq_zero hexact, Int.add_zero]

/-- Two units bought for one cent and for two, and sold for ten cents each. -/
def unevenTrip : List Fill := [⟨1, 1⟩, ⟨1, 2⟩, ⟨-1, 10⟩, ⟨-1, 10⟩]

/-- The fills of the trip with the positions before them: the average of one and two cents is two. -/
def unevenSteps : List (Position × Fill) :=
  [(⟨0, 0, 0, 0⟩, ⟨1, 1⟩), (⟨1, 1, 1, 0⟩, ⟨1, 2⟩), (⟨2, 2, 3, 0⟩, ⟨-1, 10⟩), (⟨1, 2, 2, 8⟩, ⟨-1, 10⟩)]

theorem trail_unevenTrip : trail {} unevenTrip = .ok (unevenSteps, ⟨0, 0, 0, 16⟩) := rfl

/-- The sales bring in seventeen cents over the buys, and the profit is sixteen. -/
theorem round_trip_falls_short : ∃ steps q, trail {} unevenTrip = .ok (steps, q) ∧
    (∀ f ∈ unevenTrip, f.quantity ≠ 0 ∧ 0 ≤ f.price) ∧
    (∀ s ∈ steps, 0 ≤ s.1.quantity + s.2.quantity) ∧ q.quantity = 0 ∧
    q.realizedProfit = 16 ∧ -(unevenTrip.map Fill.outlay).sum = 17 := by
  refine ⟨_, _, trail_unevenTrip, ?_⟩
  decide

theorem round_trip_profit_uneven : ∃ steps q, trail {} unevenTrip = .ok (steps, q) ∧
    q.quantity = 0 ∧ q.realizedProfit = -(unevenTrip.map Fill.outlay).sum + roundedOff steps ∧
    roundedOff steps = -1 := by
  have hheld : ∀ s ∈ unevenSteps, 0 ≤ s.1.quantity + s.2.quantity := by decide
  obtain ⟨hprofit, _⟩ := round_trip_profit trail_unevenTrip hheld rfl
  exact ⟨_, _, trail_unevenTrip, rfl, hprofit, rfl⟩

end Position
end PortfolioLab
