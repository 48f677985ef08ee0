import PortfolioLab.Metrics.Performance
import PortfolioLab.Proofs.DrawdownPrograms

/-!
# Losses along a path of wealth

Returns of minus one or more compound to wealth that is never negative; once it is zero it stays there. The
drawdown of a period compares the wealth with its running peak only, and is still the largest part that is
lost of the wealth at any earlier time. So the largest drawdown is the largest loss between any two times,
the start among them.
-/

namespace PortfolioLab

open Exact

/-- The wealth after so many periods, from a start of one. -/
noncomputable def wealthAfter (returns : List ℝ) (t : ℕ) : ℝ := ((returns.take t).map (1 + ·)).prod

/-- A path of wealth: it starts from one and is never negative. -/
structure IsWealth (path : ℕ → ℝ) : Prop where
  start : path 0 = 1
  nonneg : ∀ t, 0 ≤ path t

/-- The part of the wealth at one time that is lost at another. -/
noncomputable def lossBetween (path : ℕ → ℝ) (s t : ℕ) : ℝ := 1 - path t / path s

/-- The losses at a time, since any time so far at which there was wealth. -/
def lossesAt (path : ℕ → ℝ) (t : ℕ) : Set ℝ := {x | ∃ s ≤ t, 0 < path s ∧ x = lossBetween path s t}

def lossesUpTo (path : ℕ → ℝ) (last : ℕ) : Set ℝ := {x | ∃ t ≤ last, x ∈ lossesAt path t}

section Paths

variable {path : ℕ → ℝ} {s t n : ℕ}

theorem IsWealth.peakTo_pos (h : IsWealth path) (t : ℕ) : 0 < peakTo path t := by
  have hstart : path 0 ≤ peakTo path t := le_peakTo (Nat.zero_le t)
  rw [h.start] at hstart
  linarith

/-- The peak is the wealth at some time so far. -/
theorem IsWealth.exists_peak (h : IsWealth path) (t : ℕ) : ∃ s ≤ t, path s = peakTo path t := by
  obtain ⟨s, hs, hpeak⟩ := Finset.exists_mem_eq_sup' (Finset.nonempty_range_add_one (n := t)) path
  refine ⟨s, Nat.lt_succ_iff.mp (Finset.mem_range.mp hs), ?_⟩
  rw [peakTo, hpeak, max_eq_right (h.nonneg s)]

/-- What is lost since the peak is the largest loss since any time at which there was wealth. -/
theorem IsWealth.isGreatest_loss (h : IsWealth path) (t : ℕ) :
    IsGreatest (lossesAt path t) (1 - path t / peakTo path t) := by
  constructor
  · obtain ⟨s, hs, hpeak⟩ := h.exists_peak t
    exact ⟨s, hs, hpeak ▸ h.peakTo_pos t, by rw [lossBetween, hpeak]⟩
  · rintro _ ⟨s, hs, hpos, rfl⟩
    have hratio := div_le_div_of_nonneg_left (h.nonneg t) hpos (le_peakTo hs)
    rw [lossBetween]
    linarith

theorem IsWealth.loss_mem_unit (h : IsWealth path) (t : ℕ) :
    0 ≤ 1 - path t / peakTo path t ∧ 1 - path t / peakTo path t ≤ 1 := by
  have hlow := div_nonneg (h.nonneg t) (h.peakTo_pos t).le
  have hhigh := div_le_one_of_le₀ (le_peakTo (le_refl t)) (h.peakTo_pos t).le
  constructor <;> linarith

/-- From the wealth and the peak of a time on, the drawdowns are the losses since the running peak. -/
theorem drawdownsFrom_number (h : IsWealth path) (returns : List ℝ)
    (hnext : ∀ i (hi : i < returns.length), path (n + i + 1) = path (n + i) * (1 + returns[i])) :
    drawdownsFrom (number (path n)) (number (peakTo path n)) (returns.map number) =
      ((List.range' (n + 1) returns.length).map fun t => 1 - path t / peakTo path t).map number := by
  induction returns generalizing n with
  | nil => rfl
  | cons r rest ih =>
    have hwealth : number (path n) * (1 + number r) = number (path (n + 1)) := by
      rw [one_eq, number_add, number_mul, hnext 0 (Nat.succ_pos _)]
      rfl
    have hpeak : Scalar.larger (number (peakTo path n)) (number (path (n + 1))) =
        number (peakTo path (n + 1)) := by rw [larger_number, peakTo_succ]
    have hpos := h.peakTo_pos (n + 1)
    have hloss : drawdownOf (number (peakTo path (n + 1))) (number (path (n + 1))) =
        number (1 - path (n + 1) / peakTo path (n + 1)) := by
      rw [drawdownOf, if_pos (by exact hpos), number_div hpos.ne', one_eq, number_sub]
    have hrest := ih (n := n + 1) fun i hi => by
      have hstep := hnext (i + 1) (Nat.succ_lt_succ hi)
      rwa [List.getElem_cons_succ, ← Nat.add_assoc n i 1, Nat.add_right_comm n i 1] at hstep
    rw [List.map_cons, drawdownsFrom, hwealth, hpeak, hloss, hrest]
    rfl

end Paths

/-! ## The wealth of returns -/

section Returns

variable {returns : List ℝ} {t : ℕ}

theorem wealthAfter_zero (returns : List ℝ) : wealthAfter returns 0 = 1 := rfl

theorem wealthAfter_succ (h : t < returns.length) :
    wealthAfter returns (t + 1) = wealthAfter returns t * (1 + returns[t]) := by
  rw [wealthAfter, wealthAfter, ← List.take_append_getElem h, List.map_append, List.prod_append]
  simp

theorem isWealth_wealthAfter (h : ∀ r ∈ returns, -1 ≤ r) : IsWealth (wealthAfter returns) where
  start := rfl
  nonneg t := by
    refine List.prod_nonneg fun x hx => ?_
    obtain ⟨r, hr, rfl⟩ := List.mem_map.mp hx
    linarith [h r (List.mem_of_mem_take hr)]

/-- The drawdowns of returns are the losses of their wealth since its running peak. -/
theorem drawdowns_number (h : ∀ r ∈ returns, -1 ≤ r) :
    drawdowns (returns.map number) = ((List.range' 1 returns.length).map fun t =>
      1 - wealthAfter returns t / peakTo (wealthAfter returns) t).map number := by
  have hstart : peakTo (wealthAfter returns) 0 = 1 := by
    rw [peakTo_zero, wealthAfter_zero, max_eq_right zero_le_one]
  have hfrom := drawdownsFrom_number (n := 0) (isWealth_wealthAfter h) returns fun i hi => by
    rw [Nat.zero_add]
    exact wealthAfter_succ hi
  rw [hstart, wealthAfter_zero] at hfrom
  exact hfrom

/-! ## The largest drawdown -/

/-- The largest drawdown of several returns is the largest of their drawdowns. -/
theorem exists_maxDrawdown {losses : List ℝ} (hlength : 2 ≤ returns.length) (hne : losses ≠ [])
    (h : drawdowns (returns.map number) = losses.map number) :
    ∃ m, maxDrawdown (returns.map number) = number m ∧ m ∈ losses ∧ ∀ x ∈ losses, x ≤ m := by
  obtain ⟨first, rest, rfl⟩ := List.exists_cons_of_ne_nil hne
  refine ⟨rest.foldl max first, ?_, List.max?_eq_some_iff.mp rfl⟩
  match returns, hlength with
  | r₁ :: r₂ :: others, _ =>
    rw [← largest_number]
    simp only [maxDrawdown, List.map_cons] at h ⊢
    rw [h]

/-- The largest drawdown is the largest loss between two times. -/
theorem isGreatest_maxDrawdown (h : ∀ r ∈ returns, -1 ≤ r) (hlength : 2 ≤ returns.length) :
    ∃ m, maxDrawdown (returns.map number) = number m ∧
      IsGreatest (lossesUpTo (wealthAfter returns) returns.length) m := by
  have hwealth := isWealth_wealthAfter h
  have hne : (List.range' 1 returns.length).map
      (fun t => 1 - wealthAfter returns t / peakTo (wealthAfter returns) t) ≠ [] := by
    rw [← List.length_pos_iff, List.length_map, List.length_range']
    omega
  obtain ⟨m, hm, hmem, hle⟩ := exists_maxDrawdown hlength hne (drawdowns_number h)
  rw [List.forall_mem_map] at hle
  refine ⟨m, hm, ?_, ?_⟩
  · obtain ⟨t, ht, rfl⟩ := List.mem_map.mp hmem
    have hlast := (List.mem_range'_1.mp ht).2
    exact ⟨t, by omega, (hwealth.isGreatest_loss t).1⟩
  · rintro x ⟨t, ht, hx⟩
    have hloss := (hwealth.isGreatest_loss t).2 hx
    rcases Nat.eq_zero_or_pos t with rfl | hfirst
    · -- nothing is lost at the start
      rw [peakTo_zero, wealthAfter_zero, max_eq_right zero_le_one, div_one, sub_self] at hloss
      exact hloss.trans ((hwealth.loss_mem_unit 1).1.trans (hle 1 (List.mem_range'_1.mpr (by omega))))
    · exact hloss.trans (hle t (List.mem_range'_1.mpr (by omega)))

/-- Nothing is ever lost exactly if no return is negative. -/
theorem forall_loss_nonpos_iff (h : ∀ r ∈ returns, -1 ≤ r) :
    (∀ x ∈ lossesUpTo (wealthAfter returns) returns.length, x ≤ 0) ↔ ∀ r ∈ returns, 0 ≤ r := by
  constructor
  · intro hloss r hr
    obtain ⟨t, ht, rfl⟩ := List.getElem_of_mem hr
    -- the wealth is not below that of the start, so the next return is a gain on it
    have hstart := hloss _ ⟨t, ht.le, 0, Nat.zero_le t, one_pos, rfl⟩
    have hpos : 0 < wealthAfter returns t := by
      rw [lossBetween, wealthAfter_zero, div_one] at hstart
      linarith
    have hnext := hloss _ ⟨t + 1, ht, t, Nat.le_succ t, hpos, rfl⟩
    rw [lossBetween, wealthAfter_succ ht, mul_div_cancel_left₀ _ hpos.ne'] at hnext
    linarith
  · rintro hgain x ⟨t, ht, s, hs, hpos, rfl⟩
    have hrising : wealthAfter returns s ≤ wealthAfter returns t := by
      induction t, hs using Nat.le_induction with
      | base => exact le_refl _
      | succ t _ ih =>
        have hreturn := hgain _ (List.getElem_mem (Nat.lt_of_succ_le ht))
        have hwealth := (isWealth_wealthAfter h).nonneg t
        rw [wealthAfter_succ (Nat.lt_of_succ_le ht)]
        exact (ih (Nat.le_of_succ_le ht)).trans (le_mul_of_one_le_right hwealth (by linarith))
    have hratio := (one_le_div hpos).mpr hrising
    rw [lossBetween]
    linarith

/-- All wealth is lost at some time exactly if some return is minus one. -/
theorem exists_wealthAfter_eq_zero_iff :
    (∃ t ≤ returns.length, wealthAfter returns t = 0) ↔ -1 ∈ returns := by
  constructor
  · rintro ⟨t, _, hzero⟩
    obtain ⟨r, hr, hfactor⟩ := List.mem_map.mp (List.prod_eq_zero_iff.mp hzero)
    rw [← eq_neg_of_add_eq_zero_right hfactor]
    exact List.mem_of_mem_take hr
  · intro hmem
    refine ⟨returns.length, le_refl _, ?_⟩
    rw [wealthAfter, List.take_length]
    exact List.prod_eq_zero (List.mem_map.mpr ⟨-1, hmem, by norm_num⟩)

/-- The largest loss is at least that from the start to the start, and no loss is more than all. -/
theorem greatest_loss_mem_unit {m : ℝ} (h : ∀ r ∈ returns, -1 ≤ r)
    (hm : IsGreatest (lossesUpTo (wealthAfter returns) returns.length) m) : 0 ≤ m ∧ m ≤ 1 := by
  constructor
  · refine hm.2 ⟨0, Nat.zero_le _, 0, le_refl 0, one_pos, ?_⟩
    rw [lossBetween, wealthAfter_zero, div_one, sub_self]
  · obtain ⟨t, _, s, _, hpos, rfl⟩ := hm.1
    have hratio := div_nonneg ((isWealth_wealthAfter h).nonneg t) hpos.le
    rw [lossBetween]
    linarith

theorem greatest_loss_eq_zero_iff {m : ℝ} (h : ∀ r ∈ returns, -1 ≤ r)
    (hm : IsGreatest (lossesUpTo (wealthAfter returns) returns.length) m) :
    m = 0 ↔ ∀ r ∈ returns, 0 ≤ r := by
  rw [← forall_loss_nonpos_iff h]
  constructor
  · rintro rfl
    exact hm.2
  · intro hnone
    exact le_antisymm (hnone m hm.1) (greatest_loss_mem_unit h hm).1

theorem greatest_loss_eq_one_iff {m : ℝ} (h : ∀ r ∈ returns, -1 ≤ r)
    (hm : IsGreatest (lossesUpTo (wealthAfter returns) returns.length) m) : m = 1 ↔ -1 ∈ returns := by
  rw [← exists_wealthAfter_eq_zero_iff]
  constructor
  · rintro rfl
    obtain ⟨t, ht, s, _, hpos, hall⟩ := hm.1
    have hratio : wealthAfter returns t / wealthAfter returns s = 0 := by
      rw [lossBetween] at hall
      linarith
    exact ⟨t, ht, (div_eq_zero_iff.mp hratio).resolve_right hpos.ne'⟩
  · rintro ⟨t, ht, hzero⟩
    have hloss := hm.2 ⟨t, ht, 0, Nat.zero_le t, one_pos, rfl⟩
    rw [lossBetween, hzero, zero_div, sub_zero] at hloss
    exact le_antisymm (greatest_loss_mem_unit h hm).2 hloss

/-- The drawdown of a period is the largest part that is lost at its end of the wealth at any time so far,
between zero and one. The largest drawdown that the statistics of several returns report is the largest loss
between any two times; it is zero exactly if no return is negative, and one exactly if some return loses all. -/
theorem drawdown_is_worst_loss (h : ∀ r ∈ returns, -1 ≤ r) :
    (drawdowns (returns.map number)).length = returns.length ∧
    (∀ t < returns.length, ∃ d, (drawdowns (returns.map number))[t]? = some (number d) ∧
      IsGreatest (lossesAt (wealthAfter returns) (t + 1)) d ∧ 0 ≤ d ∧ d ≤ 1) ∧
    (2 ≤ returns.length → ∃ m,
      (∀ perYear riskFree alpha : Exact,
        (metricsOf (returns.map number) perYear riskFree alpha).maxDrawdown = number m) ∧
      IsGreatest (lossesUpTo (wealthAfter returns) returns.length) m ∧
      (m = 0 ↔ ∀ r ∈ returns, 0 ≤ r) ∧ (m = 1 ↔ -1 ∈ returns)) := by
  have hwealth := isWealth_wealthAfter h
  refine ⟨?_, fun t ht => ?_, fun hlength => ?_⟩
  · rw [drawdowns_number h, List.length_map, List.length_map, List.length_range']
  · refine ⟨_, ?_, hwealth.isGreatest_loss (t + 1), hwealth.loss_mem_unit (t + 1)⟩
    rw [drawdowns_number h]
    simp [ht, Nat.add_comm]
  · obtain ⟨m, hm, hgreatest⟩ := isGreatest_maxDrawdown h hlength
    exact ⟨m, fun _ _ _ => hm, hgreatest, greatest_loss_eq_zero_iff h hgreatest,
      greatest_loss_eq_one_iff h hgreatest⟩

/-- A gain, a total loss and a gain on nothing. -/
theorem drawdown_is_worst_loss_total : (∀ r ∈ [1 / 2, -1, (3 : ℝ)], -1 ≤ r) ∧
    ∀ perYear riskFree alpha : Exact,
      (metricsOf ([1 / 2, -1, (3 : ℝ)].map number) perYear riskFree alpha).maxDrawdown = number 1 := by
  have h : ∀ r ∈ [1 / 2, -1, (3 : ℝ)], -1 ≤ r := by norm_num
  obtain ⟨m, hm, _, _, hone⟩ := (drawdown_is_worst_loss h).2.2 (by simp)
  rw [hone.mpr (by simp)] at hm
  exact ⟨h, hm⟩

end Returns
end PortfolioLab
