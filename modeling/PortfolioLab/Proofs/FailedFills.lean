import PortfolioLab.Proofs.RoundTrips
import PortfolioLab.Proofs.TradeRanges

/-!
# Fills that fail

A buy that fails leaves the position as it was. A sale writes the profit and the quantity before the cost
of what is left is checked, and this cost can leave the range although the cost of all that was held did
not, because it is taken at the average price, which may be rounded up. Such a sale fails half done. It
takes a position of more than four billion units.
-/

namespace PortfolioLab
namespace Position

variable {p : Position} {quantity price : Int} {r : Unit × Position} {e : Failure} {after : Position}

/-! ## Positions that fills at prices lead to -/

/-- A position whose amounts are in range, with a cost that is not negative and an average that is this
cost for each unit, rounded to the nearest cent. -/
structure Sound (p : Position) : Prop where
  inRange : p.InRange
  averaged : p.Averaged
  averageEntry : 0 ≤ p.averageEntry
  totalCost : 0 ≤ p.totalCost

theorem sound_fresh : Sound {} := ⟨inRange_fresh, averaged_fresh, le_rfl, le_rfl⟩

/-- A sale of more than is held is a sale of what is held. -/
theorem commit_sell_min : (sell quantity price).commit p = (sell (min quantity p.quantity) price).commit p := by
  rw [commit_sell, commit_sell, min_assoc, min_self]

theorem Sound.buy (hp : p.Sound) (hq : 0 < quantity) (hprice : 0 ≤ price)
    (h : (buy quantity price).commit p = .ok r) : r.2.Sound := by
  obtain ⟨hquantity, hcost, _, haverage⟩ := of_commit_buy h
  have hheld := hp.averaged.held
  have hnonneg : 0 ≤ r.2.totalCost := by
    rw [hcost]
    exact add_nonneg hp.totalCost (mul_nonneg hq.le hprice)
  refine ⟨hp.inRange.buy hq h, averaged_of_buy hp.averaged hq h, ?_, hnonneg⟩
  rw [haverage]
  exact divHalfEven_nonneg hnonneg (by omega)

theorem Sound.sell (hp : p.Sound) (h : (sell quantity price).commit p = .ok r) : r.2.Sound := by
  have hrange := hp.inRange.sell h
  rw [commit_sell_min] at h
  have hheld := min_le_right quantity p.quantity
  obtain ⟨hquantity, hcost, _, haverage⟩ := of_commit_sell hheld h
  refine ⟨hrange, averaged_of_sell hheld h, ?_, ?_⟩
  · rw [haverage]
    split
    · exact le_rfl
    · exact hp.averageEntry
  · rw [hcost]
    exact mul_nonneg hp.averageEntry hrange.quantity

theorem Sound.fill (hp : p.Sound) (hprice : 0 ≤ price)
    (h : (fill quantity price).commit p = .ok r) : r.2.Sound := by
  unfold Position.fill at h
  split at h
  · next hq => exact hp.buy hq hprice h
  · split at h
    · exact hp.sell h
    · cases h
      exact hp

theorem Sound.trail {q : Position} {fills : List Fill} {steps : List (Position × Fill)} (hp : p.Sound)
    (hprices : ∀ f ∈ fills, 0 ≤ f.price) (h : p.trail fills = .ok (steps, q)) : q.Sound := by
  induction fills generalizing p steps with
  | nil =>
    cases h
    exact hp
  | cons f fills ih =>
    obtain ⟨hprice, hprices⟩ := List.forall_mem_cons.mp hprices
    obtain ⟨next, later, hfill, hrest, rfl⟩ := trail_cons_iff.mp h
    exact ih (hp.fill hprice hfill) hprices hrest

/-! ## What a failed fill leaves -/

/-- The position in the middle of a sale: the profit is realized and the quantity reduced, and the cost
is still that of all that was held. -/
def halfSold (p : Position) (quantity price : Int) : Position :=
  let sold := min (-quantity) p.quantity
  { p with realizedProfit := p.realizedProfit + sold * (price - p.averageEntry)
           quantity := p.quantity - sold }

/-- A fill that fails half done: a sale with a profit in range, after which the cost of what is left is
not. -/
structure Tears (p : Position) (quantity price : Int) : Prop where
  sale : quantity < 0
  profit : Cents.InRange (p.halfSold quantity price).realizedProfit
  cost : ¬ Cents.InRange (p.averageEntry * (p.halfSold quantity price).quantity)

theorem eq_of_failed_buy (hheld : 0 ≤ p.quantity) (hq : 0 < quantity)
    (h : (buy quantity price).outcome p = (.error e, after)) : after = p := by
  rw [buy, Transition.outcome_get_bind] at h
  rcases Transition.outcome_require_bind_eq_error.mp h with ⟨_, hsame⟩ | ⟨cost, _, h⟩
  · exact hsame
  -- the quantity that the cost is divided by is positive
  rw [Transition.outcome_modify_bind] at h
  rcases Transition.outcome_require_bind_eq_error.mp h with ⟨hdivide, _⟩ | ⟨_, _, hset⟩
  · have hpos : p.quantity + quantity ≠ 0 := by omega
    rw [Cents.divide_of_ne_zero _ hpos] at hdivide
    cases hdivide
  · cases hset

/-- A sale fails before anything is written, or between the quantity and the cost. -/
theorem failed_sale_iff : (sell (-quantity) price).outcome p = (.error e, after) ↔
    Cents.check (p.halfSold quantity price).realizedProfit = .error e ∧ after = p ∨
      Cents.InRange (p.halfSold quantity price).realizedProfit ∧
        Cents.check (p.averageEntry * (p.halfSold quantity price).quantity) = .error e ∧
        after = p.halfSold quantity price := by
  rw [sell, Transition.outcome_get_bind, Transition.outcome_require_bind_eq_error]
  refine or_congr Iff.rfl ⟨?_, ?_⟩
  · rintro ⟨realized, hrealized, h⟩
    obtain ⟨rfl, hrange⟩ := Cents.eq_of_check hrealized
    rw [Transition.outcome_modify_bind] at h
    rcases Transition.outcome_require_bind_eq_error.mp h with ⟨hcost, hsame⟩ | ⟨cost, _, h⟩
    · exact ⟨hrange, hcost, hsame⟩
    -- once the cost is written nothing can fail
    · rw [Transition.outcome_modify_bind] at h
      split at h <;> cases h
  · rintro ⟨hrange, hcost, rfl⟩
    refine ⟨_, Cents.check_of_inRange hrange, ?_⟩
    rw [Transition.outcome_modify_bind]
    exact Transition.outcome_require_bind_eq_error.mpr (.inl ⟨hcost, rfl⟩)

theorem outcome_of_tears (h : p.Tears quantity price) :
    ∃ e, (fill quantity price).outcome p = (.error e, p.halfSold quantity price) := by
  have hsale := h.sale
  have hnot : ¬ 0 < quantity := by omega
  rw [fill, if_neg hnot, if_pos hsale]
  exact ⟨_, failed_sale_iff.mpr (.inr ⟨h.profit, if_neg h.cost, rfl⟩)⟩

/-- A fill that fails leaves the position as it was, or tears it. -/
theorem failed_fill (hheld : 0 ≤ p.quantity)
    (h : (fill quantity price).outcome p = (.error e, after)) :
    after = p ∨ (p.Tears quantity price ∧ after = p.halfSold quantity price) := by
  unfold fill at h
  split at h
  · next hbuy => exact .inl (eq_of_failed_buy hheld hbuy h)
  · split at h
    · next hsale =>
      rcases failed_sale_iff.mp h with ⟨_, hsame⟩ | ⟨hprofit, hcheck, hafter⟩
      · exact .inl hsame
      · refine .inr ⟨⟨hsale, hprofit, fun hcost => ?_⟩, hafter⟩
        rw [Cents.check_of_inRange hcost] at hcheck
        cases hcheck
    · cases h

/-! ## How large a position must be to be torn -/

/-- A sale from a sound position that tears it leaves something, at a cost above the range. -/
theorem Sound.bounds_of_tears (hp : p.Sound) (h : p.Tears quantity price) :
    (p.halfSold quantity price).quantity < p.quantity ∧
      maxCents < p.averageEntry * (p.halfSold quantity price).quantity := by
  have hheld := hp.averaged.held
  have hsale := h.sale
  have hleft : 0 ≤ (p.halfSold quantity price).quantity := by
    simp only [halfSold]
    omega
  have hmin : minCents ≤ p.averageEntry * (p.halfSold quantity price).quantity :=
    le_trans (by decide) (mul_nonneg hp.averageEntry hleft)
  have hmax : maxCents < p.averageEntry * (p.halfSold quantity price).quantity := by
    by_contra hle
    exact h.cost ⟨hmin, not_lt.mp hle⟩
  refine ⟨?_, hmax⟩
  -- what is held is not nothing, since nothing costs nothing
  have hpos : p.quantity ≠ 0 := by
    intro hzero
    have hnothing : (p.halfSold quantity price).quantity = 0 := by
      simp only [halfSold]
      omega
    rw [hnothing, mul_zero] at hmax
    exact absurd hmax (by decide)
  simp only [halfSold]
  omega

theorem Sound.large_of_tears (hp : p.Sound) (h : p.Tears quantity price) : 2 ^ 32 < p.quantity := by
  obtain ⟨hless, hcost⟩ := hp.bounds_of_tears h
  have haverage := hp.averageEntry
  have htotal := hp.inRange.totalCost.2
  obtain ⟨hnear, _⟩ := abs_le.mp hp.averaged.near
  rw [remainder] at hnear
  generalize (p.halfSold quantity price).quantity = left at hless hcost
  have hleft : left ≤ p.quantity - 1 := by omega
  have hrest : p.averageEntry * left ≤ p.averageEntry * (p.quantity - 1) :=
    mul_le_mul_of_nonneg_left hleft haverage
  -- the average was rounded up by at most half a cent for each unit, so there are more than two units a cent
  have hcheap : 2 * p.averageEntry < p.quantity := by linarith
  by_contra hsmall
  have hunits : p.quantity - 1 ≤ 2 ^ 32 - 1 := by linarith
  have hcents : 2 * p.averageEntry ≤ 2 ^ 32 - 1 := by linarith [Int.add_one_le_iff.mpr hcheap]
  have hbound : 2 * p.averageEntry * (p.quantity - 1) ≤ (2 ^ 32 - 1) * (2 ^ 32 - 1) :=
    mul_le_mul hcents hunits (by linarith) (by norm_num)
  simp only [maxCents] at hcost
  linarith

/-- A failed fill of a position that fills at prices led to leaves it intact, unless the fill is a sale
that realizes its profit and then finds the cost of what is left out of range. Such a sale leaves the
position half sold, and needs more than four billion units. -/
theorem failed_fill_intact_iff {fills : List Fill} {steps : List (Position × Fill)}
    (h : trail {} fills = .ok (steps, p)) (hprices : ∀ f ∈ fills, 0 ≤ f.price) (quantity price : Int) :
    ((∃ e after, (fill quantity price).outcome p = (.error e, after) ∧ after ≠ p) ↔
        p.Tears quantity price) ∧
      (∀ e after, (fill quantity price).outcome p = (.error e, after) →
        after = p ∨ after = p.halfSold quantity price) ∧
      (p.Tears quantity price → 2 ^ 32 < p.quantity) := by
  have hp : p.Sound := sound_fresh.trail hprices h
  have hfails : ∀ e after, (fill quantity price).outcome p = (.error e, after) →
      after = p ∨ (p.Tears quantity price ∧ after = p.halfSold quantity price) :=
    fun e after => failed_fill hp.averaged.held
  refine ⟨⟨?_, fun htears => ?_⟩, fun e after hfail => (hfails e after hfail).imp_right And.right,
    hp.large_of_tears⟩
  · rintro ⟨e, after, hfail, hne⟩
    exact ((hfails e after hfail).resolve_left hne).1
  · obtain ⟨e, hfail⟩ := outcome_of_tears htears
    refine ⟨e, _, hfail, fun hsame => ?_⟩
    have hless := (hp.bounds_of_tears htears).1
    rw [hsame] at hless
    exact lt_irrefl _ hless

/-- A position that costs as much as the range allows: a buy fails and leaves it intact. -/
theorem failed_fill_intact_full :
    (∃ e after, (fill 1 1).outcome ⟨1, maxCents, maxCents, 0⟩ = (.error e, after)) ∧
      ¬ ∃ e after, (fill 1 1).outcome ⟨1, maxCents, maxCents, 0⟩ = (.error e, after) ∧
        after ≠ ⟨1, maxCents, maxCents, 0⟩ := by
  have htrail : trail {} [⟨1, maxCents⟩] = .ok ([({}, ⟨1, maxCents⟩)], ⟨1, maxCents, maxCents, 0⟩) := rfl
  obtain ⟨htears, _⟩ := failed_fill_intact_iff htrail (by decide) 1 1
  refine ⟨⟨_, _, rfl⟩, fun hfails => ?_⟩
  exact absurd (htears.mp hfails).sale (by decide)

def thirdOfRange : Int := 3074457345618258602

/-- As many units for one cent as for two: the average of one and a half cents is rounded up to two, and
the sale of a single unit would leave a cost above the range. -/
theorem failed_sale_tears :
    (trail {} [⟨thirdOfRange, 1⟩, ⟨thirdOfRange, 2⟩]).toOption.map Prod.snd =
        some ⟨2 * thirdOfRange, 2, 3 * thirdOfRange, 0⟩ ∧
      ((fill (-1) 3).outcome ⟨2 * thirdOfRange, 2, 3 * thirdOfRange, 0⟩).1.toOption = none ∧
      ((fill (-1) 3).outcome ⟨2 * thirdOfRange, 2, 3 * thirdOfRange, 0⟩).2 =
        ⟨2 * thirdOfRange - 1, 2, 3 * thirdOfRange, 1⟩ := by
  decide +kernel

end Position
end PortfolioLab
