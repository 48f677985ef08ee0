import PortfolioLab.Money.Conversion
import PortfolioLab.Proofs.Doubles
import PortfolioLab.Proofs.Outcome

/-!
# Sums and shares of amounts

A sum of amounts is exact when it succeeds. A share of a non-negative amount by a double that is
finite and not below zero is not negative: rounding to a decimal, to sixty digits and to a cent keeps
the sign. A negative zero is the one double with a sign that is not below zero, and its share is zero.
-/

namespace PortfolioLab

theorem divHalfEven_nonneg {n d : Int} (hn : 0 ≤ n) (hd : 0 ≤ d) : 0 ≤ divHalfEven n d := by
  have hq : 0 ≤ n / d := Int.ediv_nonneg hn hd
  simp only [divHalfEven, Int.not_lt.mpr hd, if_false]
  split <;> omega

theorem divHalfEven_zero (n : Nat) : divHalfEven 0 n = 0 := by
  have hn : ¬ (n : Int) < 0 := by omega
  simp [divHalfEven, hn]

namespace Cents

/-- Amounts in range are words of sixty-four bits. -/
theorem abs_le_of_inRange {n : Int} (h : InRange n) : |n| ≤ 2 ^ 63 := by
  have hlow : -9223372036854775808 ≤ n := h.1
  have hhigh : n ≤ 9223372036854775807 := h.2
  rw [abs_le]
  constructor <;> omega

theorem check_keyed (n : Int) : Keyed (fun m => m = n ∧ InRange n) (check n) := by
  unfold check
  split
  · next hr => exact ⟨rfl, hr⟩
  · simp

private theorem mapM_check {ns ms : List Int} (h : List.Forall₂ (fun n m => m = n ∧ InRange n) ns ms) :
    ms = ns ∧ ∀ n ∈ ns, InRange n := by
  induction h with
  | nil => simp
  | cons hd _ ih =>
    refine ⟨by rw [hd.1, ih.1], fun n hn => ?_⟩
    rcases List.mem_cons.mp hn with rfl | hn
    · exact hd.2
    · exact ih.2 n hn

/-- A sum that succeeds is the sum of the integers, with every amount and the sum in range. -/
theorem sum_keyed (amounts : List Int) :
    Keyed (fun s => s = total amounts ∧ InRange s ∧ ∀ n ∈ amounts, InRange n) (sum amounts) := by
  refine (Keyed.mapM fun n _ => check_keyed n).bind fun ms hms => ?_
  obtain ⟨rfl, hr⟩ := mapM_check hms
  exact (check_keyed _).imp fun s hs => ⟨hs.1, hs.1 ▸ hs.2, hr⟩

end Cents

/-! ## Shares -/

namespace Decimal

/-- A decimal that is not below zero; a zero may carry a sign. -/
def IsNonneg (d : Decimal) : Prop := d.negative = true → d.coefficient = 0

theorem IsNonneg.signed_nonneg {d : Decimal} (h : d.IsNonneg) : 0 ≤ d.signed := by
  unfold signed
  split
  · next hn => simp [h hn]
  · exact Int.natCast_nonneg _

theorem IsNonneg.mul {a b : Decimal} (ha : a.IsNonneg) (hb : b.IsNonneg) : (a.mul b).IsNonneg := by
  intro h
  simp only [Decimal.mul, bne_iff_ne, ne_eq] at h ⊢
  rcases Bool.eq_false_or_eq_true a.negative with hn | hn
  · rw [ha hn, Nat.zero_mul]
  · rw [hb (by simpa [hn] using h), Nat.mul_zero]

theorem isNonneg_ofInt {n : Int} (h : 0 ≤ n) : (ofInt n).IsNonneg := fun hn =>
  absurd (of_decide_eq_true hn) (Int.not_lt.mpr h)

theorem IsNonneg.roundToDigits {d : Decimal} (h : d.IsNonneg) (digits : Nat) :
    (d.roundToDigits digits).IsNonneg := by
  simp only [Decimal.roundToDigits]
  split
  · exact h
  · intro hn
    simp only [h hn, Nat.cast_zero, divHalfEven_zero, Int.toNat_zero]

theorem IsNonneg.scaledInt_nonneg {d : Decimal} (h : d.IsNonneg) (places : Int) :
    0 ≤ d.scaledInt places := by
  simp only [scaledInt]
  split
  · exact Int.le_refl 0
  · split
    · exact Int.mul_nonneg h.signed_nonneg (Int.natCast_nonneg _)
    · split
      · exact Int.le_refl 0
      · exact divHalfEven_nonneg h.signed_nonneg (Int.natCast_nonneg _)

end Decimal

namespace Money

theorem decimalOf_keyed (v : Value) : Keyed (fun _ => True) (decimalOf v) := by
  unfold decimalOf
  split
  · trivial
  · trivial
  · split <;> simp [refuse]
  · trivial
  · simp [refuse]
  · split <;> simp [refuse]
  · simp [refuse]

theorem magnitude_keyed (d : Decimal) : Keyed (fun _ => True) (magnitude d) := by
  simp only [magnitude]
  split <;> simp

theorem toCents_keyed (v : Value) : Keyed (fun _ => True) (toCents v) := by
  refine (decimalOf_keyed v).bind fun d _ => (magnitude_keyed d).bind fun size _ => ?_
  split
  · simp
  · exact (Cents.check_keyed _).any

theorem scaleBy_keyed (units : Cents) (factor : Decimal) :
    Keyed (fun _ => True) (scaleBy units factor) :=
  (Cents.check_keyed _).bind fun _ _ => (Cents.check_keyed _).any

theorem scale_keyed (units : Cents) (factor : Value) : Keyed (fun _ => True) (scale units factor) := by
  refine (decimalOf_keyed factor).bind fun d _ => (magnitude_keyed d).bind fun size _ => ?_
  split
  · simp
  · exact scaleBy_keyed units d

theorem inRange_of_toCents {v : Value} {amount : Cents} (h : toCents v = .ok amount) :
    Cents.InRange amount := by
  obtain ⟨d, _, h⟩ := bind_eq_ok.mp h
  obtain ⟨size, _, h⟩ := bind_eq_ok.mp h
  split at h
  · cases h
  · obtain ⟨rfl, hrange⟩ := Cents.eq_of_check h
    exact hrange

theorem inRange_of_scale {units share : Cents} {factor : Value} (h : scale units factor = .ok share) :
    Cents.InRange share := by
  obtain ⟨d, _, h⟩ := bind_eq_ok.mp h
  obtain ⟨size, _, h⟩ := bind_eq_ok.mp h
  split at h
  · cases h
  · obtain ⟨amount, _, h⟩ := bind_eq_ok.mp h
    obtain ⟨rfl, hrange⟩ := Cents.eq_of_check h
    exact hrange

theorem inRange_units_of_scale {units share : Cents} {factor : Value}
    (h : scale units factor = .ok share) : Cents.InRange units := by
  obtain ⟨d, _, h⟩ := bind_eq_ok.mp h
  obtain ⟨size, _, h⟩ := bind_eq_ok.mp h
  split at h
  · cases h
  · obtain ⟨amount, hamount, _⟩ := bind_eq_ok.mp h
    exact (Cents.eq_of_check hamount).2

theorem scaleBy_nonneg {units : Cents} {factor : Decimal} {share : Cents} (hu : 0 ≤ units)
    (hf : factor.IsNonneg) (h : scaleBy units factor = .ok share) : 0 ≤ share := by
  obtain ⟨amount, ha, hshare⟩ := bind_eq_ok.mp h
  obtain ⟨rfl, _⟩ := Cents.eq_of_check ha
  rw [(Cents.eq_of_check hshare).1]
  exact ((hf.mul (Decimal.isNonneg_ofInt hu)).roundToDigits _).scaledInt_nonneg 0

/-- A share by a finite weight that is not below zero is not negative. -/
theorem scale_nonneg {units : Cents} {w : Float} {share : Cents} (hu : 0 ≤ units)
    (hf : w.isFinite) (hw : ¬ w < 0) (h : scale units (.real w) = .ok share) : 0 ≤ share := by
  obtain ⟨d, hd, hneg⟩ := Binary64.shortest?_of_not_lt_zero hf hw
  have hdec : decimalOf (.real w) = .ok d := by simp only [decimalOf, hd]
  obtain ⟨_, hd', h⟩ := bind_eq_ok.mp h
  obtain ⟨size, _, h⟩ := bind_eq_ok.mp h
  rw [hdec] at hd'
  cases hd'
  split at h
  · cases h
  · exact scaleBy_nonneg hu hneg h

end Money
end PortfolioLab
