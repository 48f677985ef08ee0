import PortfolioLab.Proofs.Settlement
import PortfolioLab.Proofs.Sizing
import Mathlib.Order.Bounds.Basic

/-!
# How much a purchase can buy

What is bought is the request, or what is left of it after one cut. The cash covers it; where the fee of the
cut quantity is smaller than the one that was kept back by a unit's worth or more, the cash covers a larger
quantity as well.
-/

namespace PortfolioLab.CostModel

variable {m : CostModel} {quantity price cash : Int} {fee : Cents}

/-! ## The largest quantity -/

/-- What is covered stays covered when less is asked for. -/
theorem Affords.of_le {q q' : Int} (h : m.Affords quantity price cash q) (hp : 0 < price) (hpos : 0 < q')
    (hle : q' ≤ q) : m.Affords quantity price cash q' := by
  obtain ⟨_, hlimit, part, hpart, hfits⟩ := h.resolve_left (by omega)
  have hvalue : q' * price ≤ q * price := mul_le_mul_of_nonneg_right hle hp.le
  obtain ⟨part', hpart', _, hless⟩ := exists_fee_le hpart (mul_nonneg hpos.le hp.le) hvalue
  exact .inr ⟨hpos, hle.trans hlimit, part', hpart', by linarith⟩

theorem exists_fee_of_affordable {bought : Int} (hq : 0 < quantity)
    (h : m.affordable quantity price cash = .ok bought) : ∃ fee, m.fee (quantity * price) = .ok fee := by
  simp only [affordable, affordableLoop, if_neg (not_le.mpr hq)] at h
  obtain ⟨fee, hfee, _⟩ := bind_eq_ok.mp h
  exact ⟨fee, hfee⟩

theorem eq_or_lt_of_affordable {bought : Int} (hq : 0 ≤ quantity) (hp : 0 < price)
    (hfee : m.fee (quantity * price) = .ok fee) (h : m.affordable quantity price cash = .ok bought) :
    bought = quantity ∨ cash < (bought + 1) * price + fee := by
  rw [affordable_eq hq hp hfee, Except.ok.injEq] at h
  split at h
  · exact .inl h.symm
  · rw [← h]
    exact .inr (lt_cut_add_one_mul hp)

/-- Cash that does not pay for one unit more than was bought of a request: for its price, and what the fee
of the request exceeds the fee that was paid. -/
def Exhausted (m : CostModel) (price requested bought cash : Int) : Prop :=
  ∃ full paid, m.fee (requested * price) = .ok full ∧ m.fee (bought * price) = .ok paid ∧
    cash < price + (full - paid)

/-- A purchase falls short of any quantity that the cash covers by less than one unit and what the fee of
the request exceeds the fee of that quantity. -/
theorem shortfall_lt {q bought : Int} {part : Cents} (hp : 0 < price) (hq : 0 ≤ quantity)
    (hfee : m.fee (quantity * price) = .ok fee)
    (hbought : m.affordable quantity price cash = .ok bought) (hcovers : m.Affords quantity price cash q)
    (hpart : m.fee (q * price) = .ok part) : (q - bought) * price < price + (fee - part) := by
  have hlimit : 0 ≤ q ∧ q ≤ quantity := by
    rcases hcovers with rfl | ⟨hpos, hle, _⟩
    · exact ⟨le_rfl, hq⟩
    · exact ⟨hpos.le, hle⟩
  have hvalue : q * price ≤ quantity * price := mul_le_mul_of_nonneg_right hlimit.2 hp.le
  obtain ⟨part', hpart', _, hless⟩ := exists_fee_le hfee (mul_nonneg hlimit.1 hp.le) hvalue
  cases hpart.symm.trans hpart'
  have hnone : q ≤ bought → (q - bought) * price < price + (fee - part) := fun hle => by
    have hsign : (q - bought) * price ≤ 0 := mul_nonpos_of_nonpos_of_nonneg (by omega) hp.le
    linarith
  rcases eq_or_lt_of_affordable hq hp hfee hbought with rfl | hnext
  · exact hnone hlimit.2
  · rcases hcovers with rfl | ⟨_, _, part', hpart', hfits⟩
    · exact hnone (((affordable_keyed _ _ _).of_ok hbought).elim (fun h => h.ge) fun h => h.1.le)
    · cases hpart.symm.trans hpart'
      linarith

/-- The quantity of a purchase: all of the request if the cash covers it, else what the cash less the fee
of the request pays for. The cash covers it, and it is the largest such quantity exactly if the cash does
not cover one unit more. It falls short of any other by less than one unit and the difference of the
fees; where the request pays the minimum fee, it is the largest. -/
theorem affordable_largest_iff (hq : 0 ≤ quantity) (hp : 0 < price)
    (hfee : m.fee (quantity * price) = .ok fee) :
    ∃ bought, m.affordable quantity price cash = .ok bought ∧
      bought = (if quantity * price + fee ≤ cash then quantity else cut price cash fee) ∧
      m.Affords quantity price cash bought ∧
      (IsGreatest {q | m.Affords quantity price cash q} bought ↔
        ¬ m.Affords quantity price cash (bought + 1)) ∧
      (fee = m.minimumFee → IsGreatest {q | m.Affords quantity price cash q} bought) ∧
      ∀ q part, m.Affords quantity price cash q → m.fee (q * price) = .ok part →
        (q - bought) * price < price + (fee - part) := by
  have hbought : m.affordable quantity price cash =
      .ok (if quantity * price + fee ≤ cash then quantity else cut price cash fee) :=
    affordable_eq hq hp hfee
  generalize (if quantity * price + fee ≤ cash then quantity else cut price cash fee) = bought at hbought ⊢
  have hcovers := (affordable_keyed quantity price cash).of_ok hbought
  have hpos : 0 ≤ bought := hcovers.elim (fun h => h.ge) fun h => h.1.le
  have hshort : ∀ q part, m.Affords quantity price cash q → m.fee (q * price) = .ok part →
      (q - bought) * price < price + (fee - part) :=
    fun _ _ hmore hpart => shortfall_lt hp hq hfee hbought hmore hpart
  have hiff : IsGreatest {q | m.Affords quantity price cash q} bought ↔
      ¬ m.Affords quantity price cash (bought + 1) := by
    constructor
    · intro hgreatest hmore
      have hle := hgreatest.2 hmore
      omega
    · intro hnot
      refine ⟨hcovers, fun q hmore => ?_⟩
      by_contra hlt
      exact hnot (Affords.of_le hmore hp (by omega) (by omega))
  refine ⟨bought, hbought, rfl, hcovers, hiff, fun hminimum => hiff.mpr fun hmore => ?_, hshort⟩
  obtain ⟨_, _, part, hpart, _⟩ := hmore.resolve_left (by omega)
  have hleast := minimumFee_le hpart (mul_pos (by omega) hp).ne'
  have hless := hshort _ part hmore hpart
  have hone : (bought + 1 - bought) * price = price := by ring
  rw [hone, hminimum] at hless
  linarith

/-- At ten basis points, cash for a thousand units buys 999 of the two thousand asked for: the fee of the
request was kept back, and that of a thousand units is half of it. -/
theorem affordable_misses_largest : (⟨10, 0, 0⟩ : CostModel).fee (2000 * 100) = .ok 200 ∧
    (⟨10, 0, 0⟩ : CostModel).affordable 2000 100 100100 = .ok 999 ∧
    (⟨10, 0, 0⟩ : CostModel).Affords 2000 100 100100 1000 :=
  ⟨rfl, rfl, .inr ⟨by decide, by decide, 100, rfl, by decide⟩⟩

theorem affordable_largest_iff_halved : ∃ bought,
    (⟨10, 0, 0⟩ : CostModel).fee (2000 * 100) = .ok 200 ∧
    (⟨10, 0, 0⟩ : CostModel).affordable 2000 100 100100 = .ok bought ∧
    ¬ IsGreatest {q | (⟨10, 0, 0⟩ : CostModel).Affords 2000 100 100100 q} bought := by
  have hfee : (⟨10, 0, 0⟩ : CostModel).fee (2000 * 100) = .ok 200 := rfl
  obtain ⟨bought, hbought, hvalue, _, hiff, _⟩ :=
    @affordable_largest_iff ⟨10, 0, 0⟩ 2000 100 100100 200 (by decide) (by decide) hfee
  refine ⟨bought, hfee, hbought, fun hgreatest => ?_⟩
  have h999 : bought = 999 := hvalue
  subst h999
  exact hiff.mp hgreatest (.inr ⟨by decide, by decide, 100, rfl, by decide⟩)

end PortfolioLab.CostModel
