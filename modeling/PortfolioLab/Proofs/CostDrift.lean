import PortfolioLab.Proofs.RoundTrips

/-!
# The drift of the cost basis

The profit that a position has realized, less the cost of what it holds, should be what its fills brought
in. It drifts away from that by rounding. A buy leaves the drift as it is, and a sale adds what the average
price had been rounded by, over all units held before it. After a sale nothing is rounded off until the next
buy, so only the sales that follow a buy count, each with at most half a cent for a unit then held.
-/

namespace PortfolioLab
namespace Position

variable {p q next : Position} {f : Fill} {fills : List Fill} {steps before after : List (Position × Fill)}

/-- By how much profit and cost of a position are off from what the fills that led to it took from the
cash. -/
def drift (fills : List Fill) (p : Position) : Int :=
  p.realizedProfit - p.totalCost + (fills.map Fill.outlay).sum

/-- The units held before those sales of a trail that directly follow a buy. -/
def heldAtTurns (steps : List (Position × Fill)) : Int :=
  (((steps.zip steps.tail).filter fun (s, t) => 0 < s.2.quantity ∧ t.2.quantity < 0).map
    (·.2.1.quantity)).sum

theorem heldAtTurns_cons_cons (s t : Position × Fill) (steps : List (Position × Fill)) :
    heldAtTurns (s :: t :: steps) =
      (if 0 < s.2.quantity ∧ t.2.quantity < 0 then t.1.quantity else 0) + heldAtTurns (t :: steps) := by
  by_cases hturn : 0 < s.2.quantity ∧ t.2.quantity < 0 <;> simp [heldAtTurns, hturn]

/-! ## The parts of a trail -/

theorem fills_of_trail (h : p.trail fills = .ok (steps, q)) : steps.map (·.2) = fills := by
  induction fills generalizing p steps with
  | nil =>
    cases h
    rfl
  | cons f fills ih =>
    obtain ⟨next, later, _, hrest, rfl⟩ := trail_cons_iff.mp h
    rw [List.map_cons, ih hrest]

/-- A trail up to one of its fills, that fill, and the trail from there. -/
theorem trail_split (h : p.trail fills = .ok (before ++ (q, f) :: after, next)) :
    p.trail (before.map (·.2)) = .ok (before, q) ∧
      ∃ made, (fill f.quantity f.price).commit q = .ok ((), made) ∧
        made.trail (after.map (·.2)) = .ok (after, next) := by
  induction before generalizing p fills with
  | nil =>
    cases fills with
    | nil => cases h
    | cons g fills =>
      obtain ⟨made, later, hfill, hrest, heq⟩ := trail_cons_iff.mp h
      cases heq
      exact ⟨rfl, made, hfill, (fills_of_trail hrest).symm ▸ hrest⟩
  | cons step before ih =>
    cases fills with
    | nil => cases h
    | cons g fills =>
      obtain ⟨made, later, hfill, hrest, heq⟩ := trail_cons_iff.mp h
      cases heq
      obtain ⟨hbefore, hafter⟩ := ih hrest
      exact ⟨trail_cons_iff.mpr ⟨made, before, hfill, hbefore, rfl⟩, hafter⟩

theorem quantity_of_fill {r : Unit × Position} (hheld : 0 ≤ p.quantity + f.quantity)
    (h : (fill f.quantity f.price).commit p = .ok r) : r.2.quantity = p.quantity + f.quantity := by
  unfold fill at h
  split at h
  · exact (of_commit_buy h).1
  · split at h
    · have hcovered : -f.quantity ≤ p.quantity := by omega
      obtain ⟨hquantity, _⟩ := of_commit_sell hcovered h
      omega
    · cases h
      change p.quantity = _
      omega

theorem quantity_of_trail (h : p.trail fills = .ok (steps, q))
    (hheld : ∀ s ∈ steps, 0 ≤ s.1.quantity + s.2.quantity) :
    q.quantity = p.quantity + (fills.map (·.quantity)).sum := by
  induction fills generalizing p steps with
  | nil =>
    cases h
    simp
  | cons f fills ih =>
    obtain ⟨made, later, hfill, hrest, rfl⟩ := trail_cons_iff.mp h
    obtain ⟨hfirst, hlater⟩ := List.forall_mem_cons.mp hheld
    have hmade : made.quantity = p.quantity + f.quantity := quantity_of_fill hfirst hfill
    rw [ih hrest hlater, hmade, List.map_cons, List.sum_cons, Int.add_assoc]

/-! ## What is rounded off -/

theorem drift_of_fill {r : Unit × Position} (hp : p.Averaged) (hheld : 0 ≤ p.quantity + f.quantity)
    (h : (fill f.quantity f.price).commit p = .ok r) (fills : List Fill) :
    drift (fills ++ [f]) r.2 = drift fills p + if f.quantity < 0 then p.remainder else 0 := by
  obtain ⟨_, hprofit⟩ := profit_of_fill hp hheld h
  rw [drift, drift, hprofit, List.map_append, List.sum_append, List.map_singleton, List.sum_singleton]
  ring

theorem remainder_of_sale {r : Unit × Position} (hsale : f.quantity < 0)
    (hheld : 0 ≤ p.quantity + f.quantity) (h : (fill f.quantity f.price).commit p = .ok r) :
    r.2.remainder = 0 := by
  have hcovered : -f.quantity ≤ p.quantity := by omega
  rw [fill, if_neg (not_lt.mpr hsale.le), if_pos hsale] at h
  exact remainder_of_sell hcovered h

/-- Nothing is rounded off from one sale to the next without a buy between them. -/
theorem remainder_of_trail (hp : p.remainder = 0) (h : p.trail fills = .ok (steps, q))
    (hheld : ∀ s ∈ steps, 0 ≤ s.1.quantity + s.2.quantity) (hsales : ∀ s ∈ steps, ¬ 0 < s.2.quantity) :
    q.remainder = 0 := by
  induction fills generalizing p steps with
  | nil =>
    cases h
    exact hp
  | cons f fills ih =>
    obtain ⟨made, later, hfill, hrest, rfl⟩ := trail_cons_iff.mp h
    obtain ⟨hfirst, hlater⟩ := List.forall_mem_cons.mp hheld
    obtain ⟨hsale, hsales⟩ := List.forall_mem_cons.mp hsales
    refine ih ?_ hrest hlater hsales
    by_cases hsold : f.quantity < 0
    · exact remainder_of_sale hsold hfirst hfill
    · rw [fill, if_neg hsale, if_neg hsold] at hfill
      cases hfill
      exact hp

/-- Only the first sale after a buy adds to what is rounded off, at most half a cent for each unit held. -/
theorem two_mul_abs_roundedOff_le (hp : p.Averaged) (h : p.trail (f :: fills) = .ok ((p, f) :: steps, q))
    (hheld : ∀ s ∈ (p, f) :: steps, 0 ≤ s.1.quantity + s.2.quantity)
    (hfills : ∀ g ∈ f :: fills, g.quantity ≠ 0) :
    2 * |roundedOff steps| ≤ heldAtTurns ((p, f) :: steps) := by
  induction fills generalizing p f steps with
  | nil =>
    obtain ⟨made, later, _, hrest, heq⟩ := trail_cons_iff.mp h
    cases hrest
    cases heq
    simp [heldAtTurns]
  | cons g fills ih =>
    obtain ⟨made, later, hfill, hrest, heq⟩ := trail_cons_iff.mp h
    cases heq
    obtain ⟨_, rest, _, _, rfl⟩ := trail_cons_iff.mp hrest
    obtain ⟨hfirst, hlater⟩ := List.forall_mem_cons.mp hheld
    obtain ⟨hf, hfills⟩ := List.forall_mem_cons.mp hfills
    obtain ⟨hmade, _⟩ := profit_of_fill hp hfirst hfill
    have hrounded := ih hmade hrest hlater hfills
    rw [heldAtTurns_cons_cons]
    by_cases hg : g.quantity < 0
    · rw [roundedOff_cons_sale hg]
      have htriangle := abs_add_le made.remainder (roundedOff rest)
      by_cases hbuy : 0 < f.quantity
      · have hnear := hmade.near
        rw [abs_mul, abs_of_pos (by norm_num : (0 : ℤ) < 2)] at hnear
        rw [if_pos ⟨hbuy, hg⟩]
        dsimp only
        linarith
      · have hsale : f.quantity < 0 := by omega
        have hexact : made.remainder = 0 := remainder_of_sale hsale hfirst hfill
        rw [if_neg fun h => hbuy h.1, hexact, zero_add, zero_add]
        exact hrounded
    · rw [roundedOff_cons_other hg, if_neg fun h => hg h.2, zero_add]
      exact hrounded

/-! ## The drift -/

/-- A fill of a trail: what is held before it, and what the fill makes of the drift. -/
structure Drifts (before : List (Position × Fill)) (p : Position) (f : Fill) (next : Position) : Prop where
  made : (fill f.quantity f.price).commit p = .ok ((), next)
  quantity : p.quantity = (before.map (·.2.quantity)).sum
  held : 0 ≤ p.quantity
  buy : 0 < f.quantity → drift (before.map (·.2) ++ [f]) next = drift (before.map (·.2)) p
  sale : f.quantity < 0 → drift (before.map (·.2) ++ [f]) next =
    drift (before.map (·.2)) p + (p.totalCost - p.averageEntry * p.quantity)
  near : |2 * (p.totalCost - p.averageEntry * p.quantity)| ≤ p.quantity
  exact : ∀ early sale between, before = early ++ sale :: between → sale.2.quantity < 0 →
    (∀ s ∈ between, ¬ 0 < s.2.quantity) → p.totalCost - p.averageEntry * p.quantity = 0

theorem drifts_of_trail (h : trail {} fills = .ok (before ++ (p, f) :: after, q))
    (hheld : ∀ s ∈ before ++ (p, f) :: after, 0 ≤ s.1.quantity + s.2.quantity) :
    ∃ next, Drifts before p f next := by
  obtain ⟨hbefore, made, hfill, _⟩ := trail_split h
  obtain ⟨hearlier, hrest⟩ := List.forall_mem_append.mp hheld
  obtain ⟨hlast, _⟩ := List.forall_mem_cons.mp hrest
  obtain ⟨_, haveraged, _⟩ := profit_of_trail averaged_fresh hbefore hearlier
  have hdrift := drift_of_fill haveraged hlast hfill (before.map (·.2))
  have hquantity := quantity_of_trail hbefore hearlier
  refine ⟨made, hfill, ?_, haveraged.held, ?_, ?_, haveraged.near, ?_⟩
  · simpa [Function.comp_def] using hquantity
  · intro hbuy
    rw [hdrift, if_neg (not_lt.mpr hbuy.le), Int.add_zero]
  · intro hsale
    rw [hdrift, if_pos hsale, remainder]
  · rintro early ⟨s, g⟩ between rfl hsale hbetween
    obtain ⟨_, sold, hsold, hlater⟩ := trail_split hbefore
    obtain ⟨_, hearlier⟩ := List.forall_mem_append.mp hearlier
    obtain ⟨hcovered, hearlier⟩ := List.forall_mem_cons.mp hearlier
    exact remainder_of_trail (remainder_of_sale hsale hcovered hsold) hlater hearlier hbetween

/-- The drift of the cost basis. What is held is what was bought less what was sold, and is never negative;
a buy leaves the drift, and a sale adds what the average had been rounded by, at most half a cent for each
unit held before it, and nothing if no buy came since the last sale. So the drift is at most half of the
units held before the sales that directly follow a buy. -/
theorem cost_drift_bounded (h : trail {} fills = .ok (steps, q))
    (hfills : ∀ f ∈ fills, f.quantity ≠ 0 ∧ 0 ≤ f.price)
    (hheld : ∀ s ∈ steps, 0 ≤ s.1.quantity + s.2.quantity) :
    q.quantity = (fills.map (·.quantity)).sum ∧ 0 ≤ q.quantity ∧
      (∀ before p f after, steps = before ++ (p, f) :: after → ∃ next, Drifts before p f next) ∧
      2 * |drift fills q| ≤ heldAtTurns steps := by
  obtain ⟨_, haveraged, hprofit⟩ := profit_of_trail averaged_fresh h hheld
  refine ⟨?_, haveraged.held, ?_, ?_⟩
  · simpa using quantity_of_trail h hheld
  · rintro before p f after rfl
    exact drifts_of_trail h hheld
  · have hdrift : drift fills q = roundedOff steps := by
      rw [drift, hprofit]
      simp
    rw [hdrift]
    cases fills with
    | nil =>
      cases h
      simp [heldAtTurns]
    | cons f fills =>
      obtain ⟨_, later, _, _, rfl⟩ := trail_cons_iff.mp h
      -- the first fill finds nothing that could be rounded
      have hfirst : roundedOff (({}, f) :: later) = roundedOff later := by
        by_cases hf : f.quantity < 0
        · rw [roundedOff_cons_sale hf, remainder]
          simp
        · rw [roundedOff_cons_other hf]
      rw [hfirst]
      exact two_mul_abs_roundedOff_le averaged_fresh h hheld fun g hg => (hfills g hg).1

def driftingFills : List Fill := [⟨1, 1⟩, ⟨1, 2⟩, ⟨-1, 10⟩, ⟨2, 3⟩, ⟨-1, 10⟩, ⟨-1, 10⟩]

/-- The fills with the positions before them. The averages of three cents for two units and of eight for three
are rounded up. -/
def driftingSteps : List (Position × Fill) :=
  [(⟨0, 0, 0, 0⟩, ⟨1, 1⟩), (⟨1, 1, 1, 0⟩, ⟨1, 2⟩), (⟨2, 2, 3, 0⟩, ⟨-1, 10⟩), (⟨1, 2, 2, 8⟩, ⟨2, 3⟩),
    (⟨3, 3, 8, 8⟩, ⟨-1, 10⟩), (⟨2, 3, 6, 15⟩, ⟨-1, 10⟩)]

/-- Of the three sales the last one finds nothing to round; the other two take a cent each. -/
theorem cost_drift_bounded_turns : ∃ q, trail {} driftingFills = .ok (driftingSteps, q) ∧
    q.quantity = 1 ∧ 2 * |drift driftingFills q| ≤ heldAtTurns driftingSteps ∧
    heldAtTurns driftingSteps = 5 ∧ drift driftingFills q = -2 := by
  have htrail : trail {} driftingFills = .ok (driftingSteps, ⟨1, 3, 3, 22⟩) := rfl
  have hfills : ∀ f ∈ driftingFills, f.quantity ≠ 0 ∧ 0 ≤ f.price := by decide
  have hheld : ∀ s ∈ driftingSteps, 0 ≤ s.1.quantity + s.2.quantity := by decide
  obtain ⟨hquantity, _, _, hbound⟩ := cost_drift_bounded htrail hfills hheld
  exact ⟨_, htrail, hquantity, hbound, by decide, by decide⟩

end Position
end PortfolioLab
