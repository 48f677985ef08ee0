import PortfolioLab.Proofs.Fees

/-!
# Sizing a purchase

A request that the cash does not cover is cut to what the cash less its fee pays for, and the cut quantity is
looked at in its turn. The rounds are counted by a relation that knows no bound: every round lowers the
quantity, so the bound on the rounds of the definition never ends a sizing. At a positive price the second
round is the last one, since the fee of the cut quantity is no larger than the one that was kept back.
-/

namespace PortfolioLab.CostModel

variable {m : CostModel} {quantity price cash : Int} {fee : Cents}

/-! ## Rounds -/

/-- What a round makes of a quantity: an outcome, or less of it. -/
inductive Round where
  | settled (outcome : Except Failure Int)
  | cutTo (less : Int)

def round (m : CostModel) (price cash quantity : Int) : Round :=
  match m.fee (quantity * price) with
  | .error e => .settled (.error e)
  | .ok fee =>
    if quantity * price + fee ≤ cash then .settled (.ok quantity)
    else if price = 0 then .settled (.error (.divisionByZero .quantity))
    else .cutTo (min (quantity - 1) (max ((cash - fee).fdiv price) 0))

/-- The sizing of a request: how many quantities were looked at, and what the last of them led to. Where
nothing is left of the request, nothing is looked at. -/
inductive Sized (m : CostModel) (price cash : Int) : Int → Nat → Except Failure Int → Prop
  | nothing {quantity : Int} (hnone : quantity ≤ 0) : Sized m price cash quantity 0 (.ok 0)
  | settled {quantity : Int} {outcome : Except Failure Int} (hsome : 0 < quantity)
      (hround : m.round price cash quantity = .settled outcome) : Sized m price cash quantity 1 outcome
  | cutTo {quantity less : Int} {rounds : Nat} {outcome : Except Failure Int} (hsome : 0 < quantity)
      (hround : m.round price cash quantity = .cutTo less)
      (hrest : Sized m price cash less rounds outcome) : Sized m price cash quantity (rounds + 1) outcome

theorem lt_of_cutTo {less : Int} (h : m.round price cash quantity = .cutTo less) : less < quantity := by
  unfold round at h
  split at h
  · cases h
  · split at h
    · cases h
    · split at h
      · cases h
      · cases h
        omega

theorem affordableLoop_of_nonpos (bound : Nat) (h : quantity ≤ 0) :
    m.affordableLoop price cash bound quantity = .ok 0 := by
  cases bound with
  | zero => rfl
  | succ bound =>
    simp only [affordableLoop, if_pos h]
    rfl

theorem affordableLoop_succ (bound : Nat) (h : 0 < quantity) :
    m.affordableLoop price cash (bound + 1) quantity =
      match m.round price cash quantity with
      | .settled outcome => outcome
      | .cutTo less => m.affordableLoop price cash bound less := by
  simp only [affordableLoop, if_neg (not_le.mpr h), round]
  cases m.fee (quantity * price) with
  | error e => rfl
  | ok fee =>
    dsimp only
    rw [ok_bind]
    by_cases hfits : quantity * price + fee ≤ cash
    · rw [if_pos hfits, if_pos hfits]
      rfl
    · rw [if_neg hfits, if_neg hfits]
      by_cases hfree : price = 0
      · rw [if_pos hfree, if_pos hfree]
        rfl
      · rw [if_neg hfree, if_neg hfree]

/-- Every request has a sizing, in no more rounds than it has units. -/
theorem exists_sized {bound : Nat} (h : quantity.toNat ≤ bound) :
    ∃ rounds ≤ quantity.toNat,
      m.Sized price cash quantity rounds (m.affordableLoop price cash bound quantity) := by
  induction bound generalizing quantity with
  | zero => exact ⟨0, Nat.zero_le _, .nothing (by omega)⟩
  | succ bound ih =>
    rcases le_or_gt quantity 0 with hnone | hsome
    · rw [affordableLoop_of_nonpos _ hnone]
      exact ⟨0, Nat.zero_le _, .nothing hnone⟩
    · rw [affordableLoop_succ bound hsome]
      cases hround : m.round price cash quantity with
      | settled outcome => exact ⟨1, by omega, .settled hsome hround⟩
      | cutTo less =>
        have hlt := lt_of_cutTo hround
        obtain ⟨rounds, hrounds, hrest⟩ := @ih less (by omega)
        exact ⟨rounds + 1, by omega, .cutTo hsome hround hrest⟩

theorem Sized.unique {rounds rounds' : Nat} {outcome outcome' : Except Failure Int}
    (h : m.Sized price cash quantity rounds outcome) (h' : m.Sized price cash quantity rounds' outcome') :
    rounds = rounds' ∧ outcome = outcome' := by
  induction h generalizing rounds' outcome' with
  | nothing hnone =>
    cases h' with
    | nothing _ => exact ⟨rfl, rfl⟩
    | settled hsome _ => omega
    | cutTo hsome _ _ => omega
  | settled hsome hround =>
    cases h' with
    | nothing hnone => omega
    | settled _ hround' =>
      cases hround.symm.trans hround'
      exact ⟨rfl, rfl⟩
    | cutTo _ hround' _ => cases hround.symm.trans hround'
  | cutTo hsome hround _ ih =>
    cases h' with
    | nothing hnone => omega
    | settled _ hround' => cases hround.symm.trans hround'
    | cutTo _ hround' hrest' =>
      cases hround.symm.trans hround'
      obtain ⟨rfl, rfl⟩ := ih hrest'
      exact ⟨rfl, rfl⟩

/-- The bound on the rounds never ends a sizing. -/
theorem sized_affordable (quantity price cash : Int) :
    ∃ rounds ≤ quantity.toNat, m.Sized price cash quantity rounds (m.affordable quantity price cash) :=
  exists_sized (Nat.le_succ _)

theorem Sized.affordable_eq {rounds : Nat} {outcome : Except Failure Int}
    (h : m.Sized price cash quantity rounds outcome) : m.affordable quantity price cash = outcome := by
  obtain ⟨_, _, hsized⟩ := sized_affordable (m := m) quantity price cash
  exact (hsized.unique h).2

/-! ## The cut of a request -/

def cut (price cash fee : Int) : Int := max ((cash - fee) / price) 0

theorem cut_nonneg : 0 ≤ cut price cash fee := le_max_right _ _

theorem cut_mul_le (hp : 0 < price) (hpos : 0 < cut price cash fee) :
    cut price cash fee * price + fee ≤ cash := by
  have hcut : cut price cash fee = (cash - fee) / price := by
    unfold cut at hpos ⊢
    omega
  have hfloor := Int.ediv_mul_le (cash - fee) hp.ne'
  rw [hcut]
  linarith

theorem lt_cut_add_one_mul (hp : 0 < price) : cash < (cut price cash fee + 1) * price + fee := by
  have hnext := Int.lt_ediv_add_one_mul_self (cash - fee) hp
  have hle : ((cash - fee) / price + 1) * price ≤ (cut price cash fee + 1) * price :=
    mul_le_mul_of_nonneg_right (add_le_add_left (le_max_left _ _) 1) hp.le
  linarith

/-- A request that is not covered is cut to less than was asked for. -/
theorem cut_lt (hp : 0 < price) (hq : 0 < quantity) (h : cash < quantity * price + fee) :
    cut price cash fee < quantity := by
  have hfloor : (cash - fee) / price < quantity := Int.ediv_lt_of_lt_mul hp (by linarith)
  unfold cut
  omega

/-- The fee of the cut quantity is no larger than the one that was kept back. -/
theorem exists_fee_cut (hp : 0 < price) (hq : 0 < quantity) (hfee : m.fee (quantity * price) = .ok fee)
    (h : cash < quantity * price + fee) (hpos : 0 < cut price cash fee) :
    ∃ part, m.fee (cut price cash fee * price) = .ok part ∧ cut price cash fee * price + part ≤ cash := by
  have hvalue : cut price cash fee * price ≤ quantity * price :=
    mul_le_mul_of_nonneg_right (cut_lt hp hq h).le hp.le
  obtain ⟨part, hpart, _, hle⟩ := exists_fee_le hfee (mul_nonneg hpos.le hp.le) hvalue
  have hfits := cut_mul_le hp hpos
  exact ⟨part, hpart, by linarith⟩

theorem round_of_covered (hfee : m.fee (quantity * price) = .ok fee) (h : quantity * price + fee ≤ cash) :
    m.round price cash quantity = .settled (.ok quantity) := by
  simp only [round, hfee, if_pos h]

/-- The cut lowers the request by itself. -/
theorem round_of_short (hp : 0 < price) (hq : 0 < quantity) (hfee : m.fee (quantity * price) = .ok fee)
    (h : cash < quantity * price + fee) :
    m.round price cash quantity = .cutTo (cut price cash fee) := by
  have hlt := cut_lt hp hq h
  simp only [round, hfee, if_neg (not_le.mpr h), if_neg hp.ne', Int.fdiv_eq_ediv_of_nonneg _ hp.le]
  congr 1
  unfold cut at hlt ⊢
  omega

/-- A request that is covered is settled in the first round, and any other in the second. -/
theorem sized_request (hp : 0 < price) (hq : 0 < quantity) (hfee : m.fee (quantity * price) = .ok fee)
    (cash : Int) : ∃ rounds ≤ 2, m.Sized price cash quantity rounds
      (.ok (if quantity * price + fee ≤ cash then quantity else cut price cash fee)) := by
  split
  · next hfits => exact ⟨1, by omega, .settled hq (round_of_covered hfee hfits)⟩
  · next hover =>
    have hshort := not_le.mp hover
    have hround := round_of_short hp hq hfee hshort
    rcases cut_nonneg.eq_or_lt with hnone | hsome
    · refine ⟨1, by omega, .cutTo hq hround ?_⟩
      rw [← hnone]
      exact .nothing le_rfl
    · obtain ⟨part, hpart, hfits⟩ := exists_fee_cut hp hq hfee hshort hsome
      exact ⟨2, le_rfl, .cutTo hq hround (.settled hsome (round_of_covered hpart hfits))⟩

/-- A request that is covered is bought in full, and any other is cut once. -/
theorem affordable_eq (hq : 0 ≤ quantity) (hp : 0 < price) (hfee : m.fee (quantity * price) = .ok fee) :
    m.affordable quantity price cash =
      .ok (if quantity * price + fee ≤ cash then quantity else cut price cash fee) := by
  rcases hq.eq_or_lt with rfl | hpos
  · have hzero : fee = 0 := by
      have h := (fee_eq_ok_iff.mp hfee).2.2
      rwa [zero_mul, abs_zero] at h
    have hcut : ¬ 0 ≤ cash → cut price cash 0 = 0 := fun hdebt => by
      have hneg : (cash - 0) / price < 0 := Int.ediv_neg_of_neg_of_pos (by omega) hp
      unfold cut
      omega
    rw [hzero, zero_mul, zero_add]
    split
    · rfl
    · next hdebt => rw [hcut hdebt]; rfl
  · obtain ⟨_, _, hsized⟩ := sized_request hp hpos hfee cash
    exact hsized.affordable_eq

/-- A sizing comes to its end within two rounds. It keeps a request that is covered and cuts any other once,
to what the cash less the fee of the request pays for, rounded down; that is less than the request, and it is
covered if it is anything. -/
theorem affordable_in_two_rounds (hq : 0 < quantity) (hp : 0 < price)
    (hfee : m.fee (quantity * price) = .ok fee) :
    ∃ bought rounds, m.affordable quantity price cash = .ok bought ∧ rounds ≤ 2 ∧
      (∀ n outcome, m.Sized price cash quantity n outcome ↔ n = rounds ∧ outcome = .ok bought) ∧
      (quantity * price + fee ≤ cash → bought = quantity) ∧
      (cash < quantity * price + fee → bought = max 0 ((cash - fee).fdiv price) ∧ bought < quantity ∧
        (0 < bought → ∃ part, m.fee (bought * price) = .ok part ∧ bought * price + part ≤ cash)) := by
  obtain ⟨rounds, hrounds, hsized⟩ := sized_request hp hq hfee cash
  refine ⟨_, rounds, hsized.affordable_eq, hrounds, fun n outcome => ?_, fun hfits => if_pos hfits,
    fun hshort => ?_⟩
  · constructor
    · exact fun h => h.unique hsized
    · rintro ⟨rfl, rfl⟩
      exact hsized
  · rw [if_neg (not_le.mpr hshort)]
    refine ⟨?_, cut_lt hp hq hshort, exists_fee_cut hp hq hfee hshort⟩
    rw [Int.fdiv_eq_ediv_of_nonneg _ hp.le, max_comm]
    rfl

/-- At ten basis points, cash for a thousand units does not cover two thousand: the first round keeps back
their fee of two dollars, and the second settles the 999 units that the rest pays for. -/
theorem affordable_in_two_rounds_halved : 0 < (2000 : Int) ∧ 0 < (100 : Int) ∧
    (⟨10, 0, 0⟩ : CostModel).fee (2000 * 100) = .ok 200 ∧
    ∃ rounds, rounds ≤ 2 ∧ (⟨10, 0, 0⟩ : CostModel).Sized 100 100100 2000 rounds (.ok 999) ∧
      ∃ part, (⟨10, 0, 0⟩ : CostModel).fee (999 * 100) = .ok part ∧ 999 * 100 + part ≤ 100100 := by
  have hfee : (⟨10, 0, 0⟩ : CostModel).fee (2000 * 100) = .ok 200 := rfl
  obtain ⟨bought, rounds, _, hrounds, hsized, _, hcut⟩ :=
    @affordable_in_two_rounds ⟨10, 0, 0⟩ 2000 100 100100 200 (by decide) (by decide) hfee
  obtain ⟨hvalue, _, hcovered⟩ := hcut (by decide)
  have h999 : bought = 999 := hvalue
  subst h999
  exact ⟨by decide, by decide, hfee, rounds, hrounds, (hsized _ _).mpr ⟨rfl, rfl⟩, hcovered (by decide)⟩

end PortfolioLab.CostModel
