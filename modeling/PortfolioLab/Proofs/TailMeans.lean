import PortfolioLab.Proofs.TailTotals

/-!
# Means over the worst returns

The mean of a tail is taken over the first returns in ascending order. No other returns of that number have a
lesser mean, whichever of equal returns they are, so neither the order in which the returns are given nor the
choice among equal ones shows in it. Longer tails have larger means, the longest of which is that of all
returns.
-/

namespace PortfolioLab

open Exact

section Prefixes

variable {xs : List ℝ} {k m : ℕ}

/-- The first numbers in ascending order have the least total of so many of them: whichever numbers are
taken, each of them can be exchanged for one at the front. -/
theorem sum_take_card_le (hsorted : xs.Pairwise (· ≤ ·)) {tail : Multiset ℝ} (htail : tail ≤ xs) :
    (xs.take (Multiset.card tail)).sum ≤ tail.sum := by
  induction xs generalizing tail with
  | nil =>
    obtain rfl := Multiset.le_zero.mp htail
    simp
  | cons x rest ih =>
    obtain ⟨hfirst, hrest⟩ := List.pairwise_cons.mp hsorted
    rcases Multiset.empty_or_exists_mem tail with rfl | ⟨y, hy⟩
    · simp
    · -- the first number itself, if it is taken, and any other one otherwise
      obtain ⟨z, others, rfl, hz, hothers⟩ :
          ∃ z others, tail = z ::ₘ others ∧ x ≤ z ∧ others ≤ (rest : Multiset ℝ) := by
        rw [← Multiset.cons_coe] at htail
        by_cases hx : x ∈ tail
        · obtain ⟨others, rfl⟩ := Multiset.exists_cons_of_mem hx
          exact ⟨x, others, rfl, le_refl x, (Multiset.cons_le_cons_iff x).mp htail⟩
        · have hrest := (Multiset.le_cons_of_notMem hx).mp htail
          obtain ⟨others, rfl⟩ := Multiset.exists_cons_of_mem hy
          exact ⟨y, others, rfl, hfirst y (Multiset.mem_of_le hrest hy),
            (Multiset.le_cons_self others y).trans hrest⟩
      have hsum := ih hrest hothers
      rw [Multiset.card_cons, Multiset.sum_cons, List.take_succ_cons, List.sum_cons]
      linarith

/-- The mean of the first numbers in ascending order does not fall when one more is taken. -/
theorem mean_take_le_succ (hsorted : xs.Pairwise (· ≤ ·)) (hk : 0 < k) (hlength : k < xs.length) :
    (xs.take k).sum / k ≤ (xs.take (k + 1)).sum / (k + 1 : ℕ) := by
  have hcount : (0 : ℝ) < k := Nat.cast_pos.mpr hk
  have hbound : ∀ x ∈ xs.take k, x ≤ xs[k] := by
    rw [← List.take_append_drop k xs, List.pairwise_append] at hsorted
    intro x hx
    refine hsorted.2.2 x hx _ ?_
    rw [List.drop_eq_getElem_cons hlength]
    exact List.mem_cons_self
  have htotal : (xs.take k).sum ≤ k * xs[k] := by
    have hsum := List.sum_le_card_nsmul (xs.take k) xs[k] hbound
    rwa [List.length_take, min_eq_left hlength.le, nsmul_eq_mul] at hsum
  rw [← List.take_append_getElem hlength, List.sum_append, List.sum_singleton, Nat.cast_add, Nat.cast_one,
    div_le_div_iff₀ hcount (by linarith)]
  linarith

theorem mean_take_mono (hsorted : xs.Pairwise (· ≤ ·)) (hk : 0 < k) (hkm : k ≤ m) (hm : m ≤ xs.length) :
    (xs.take k).sum / k ≤ (xs.take m).sum / m := by
  induction m, hkm using Nat.le_induction with
  | base => exact le_refl _
  | succ m hkm ih =>
    have hstep := mean_take_le_succ hsorted (hk.trans_le hkm) (Nat.lt_of_succ_le hm)
    exact (ih (Nat.le_of_succ_le hm)).trans hstep

end Prefixes

/-! ## The tail of a series -/

section Tails

variable {returns : List ℝ} {alpha beta : ℝ}

theorem tailLength_number_eq (n : ℕ) (alpha : ℝ) :
    (tailLength n (number alpha) : ℤ) = max 1 ⌈(1 - alpha) * n - 1e-12⌉ := by
  rw [tailLength_eq_wholeTail]
  exact Int.toNat_of_nonneg (zero_le_one.trans (le_max_left _ _))

theorem tailLength_pos (n : ℕ) (alpha : ℝ) : 0 < tailLength n (number alpha) := by
  have hle := le_max_left 1 ⌈(1 - alpha) * n - 1e-12⌉
  rw [← tailLength_number_eq] at hle
  omega

theorem tailLength_le (hne : returns ≠ []) (habove : 0 < alpha) (hbelow : alpha < 1) :
    tailLength returns.length (number alpha) ≤ returns.length := by
  have hcount : (0 : ℝ) < returns.length := Nat.cast_pos.mpr (List.length_pos_iff.mpr hne)
  rw [tailLength_eq_wholeTail]
  exact wholeTail_le_length (mul_pos (by linarith) hcount) (by nlinarith)

/-- A higher level leaves a shorter tail. -/
theorem tailLength_antitone (n : ℕ) (h : alpha ≤ beta) :
    tailLength n (number beta) ≤ tailLength n (number alpha) := by
  have hshare : (1 - beta) * n - 1e-12 ≤ (1 - alpha) * n - 1e-12 := by
    have hn : (0 : ℝ) ≤ n := Nat.cast_nonneg n
    nlinarith
  have hceil := max_le_max_left 1 (Int.ceil_mono hshare)
  rw [← tailLength_number_eq, ← tailLength_number_eq] at hceil
  exact_mod_cast hceil

theorem sort_number (xs : List ℝ) : Scalar.sort (xs.map number) = (xs.mergeSort (· ≤ ·)).map number := by
  refine (List.map_mergeSort fun a _ b _ => ?_).symm
  rcases le_total a b with h | h <;> simp [h]

noncomputable def leastMean (returns : List ℝ) (m : ℕ) : ℝ := ((returns.mergeSort (· ≤ ·)).take m).sum / m

theorem tailMean_number (h : tailLength returns.length (number alpha) ≤ returns.length) :
    tailMean (returns.map number) (number alpha) =
      number (leastMean returns (tailLength returns.length (number alpha))) := by
  have hlength : ((returns.mergeSort (· ≤ ·)).take (tailLength returns.length (number alpha))).length =
      tailLength returns.length (number alpha) := by
    rw [List.length_take, List.length_mergeSort, min_eq_left h]
  have hne : (returns.mergeSort (· ≤ ·)).take (tailLength returns.length (number alpha)) ≠ [] := by
    rw [← List.length_pos_iff, hlength]
    exact tailLength_pos _ _
  rw [tailMean, sort_number, List.length_map, ← List.map_take, mean_number hne, hlength, leastMean]

theorem leastMean_perm {other : List ℝ} (h : other.Perm returns) (m : ℕ) :
    leastMean other m = leastMean returns m := by
  have hsorted : other.mergeSort (· ≤ ·) = returns.mergeSort (· ≤ ·) :=
    ((List.mergeSort_perm other _).trans (h.trans (List.mergeSort_perm returns _).symm)).eq_of_pairwise'
      (List.pairwise_mergeSort' (· ≤ ·) other) (List.pairwise_mergeSort' (· ≤ ·) returns)
  rw [leastMean, leastMean, hsorted]

/-- The means over so many returns, taken together with their repetitions. -/
def meansOver (returns : List ℝ) (m : ℕ) : Set ℝ :=
  {x | ∃ tail : Multiset ℝ, tail ≤ returns ∧ Multiset.card tail = m ∧ x = tail.sum / m}

theorem isLeast_leastMean {m : ℕ} (hm : m ≤ returns.length) :
    IsLeast (meansOver returns m) (leastMean returns m) := by
  have hperm : ((returns.mergeSort (· ≤ ·) : List ℝ) : Multiset ℝ) = returns :=
    Multiset.coe_eq_coe.mpr (List.mergeSort_perm returns _)
  constructor
  · refine ⟨(returns.mergeSort (· ≤ ·)).take m, ?_, ?_, rfl⟩
    · rw [← hperm]
      exact Multiset.coe_le.mpr (List.take_sublist m _).subperm
    · rw [Multiset.coe_card, List.length_take, List.length_mergeSort, min_eq_left hm]
  · rintro _ ⟨tail, htail, rfl, rfl⟩
    rw [← hperm] at htail
    have hsum := sum_take_card_le (List.pairwise_mergeSort' (· ≤ ·) returns) htail
    exact div_le_div_of_nonneg_right hsum (Nat.cast_nonneg _)

theorem leastMean_mono {k m : ℕ} (hk : 0 < k) (hkm : k ≤ m) (hm : m ≤ returns.length) :
    leastMean returns k ≤ leastMean returns m :=
  mean_take_mono (List.pairwise_mergeSort' (· ≤ ·) returns) hk hkm (by rwa [List.length_mergeSort])

theorem leastMean_length (returns : List ℝ) :
    leastMean returns returns.length = returns.sum / returns.length := by
  rw [leastMean, List.take_of_length_le (List.length_mergeSort _).le, (List.mergeSort_perm returns _).sum_eq]

/-- A mean over one return or more is not below the least of all returns, which is the mean over one. -/
theorem leastMean_one (hne : returns ≠ []) : IsLeast {r | r ∈ returns} (leastMean returns 1) := by
  obtain ⟨⟨tail, htail, hcard, hmean⟩, hleast⟩ := isLeast_leastMean (List.length_pos_iff.mpr hne)
  have hsingle : ∀ r ∈ returns, r ∈ meansOver returns 1 := fun r hr =>
    ⟨{r}, Multiset.singleton_le.mpr hr, rfl, by simp⟩
  obtain ⟨r, rfl⟩ := Multiset.card_eq_one.mp hcard
  rw [Multiset.sum_singleton, Nat.cast_one, div_one] at hmean
  refine ⟨?_, fun r hr => hleast (hsingle r hr)⟩
  rw [hmean]
  exact Multiset.singleton_le.mp htail

/-- The mean of a tail, at a level strictly between zero and one, is the least mean over so many returns: the
share that the level leaves, rounded up but for noise, and one return at least. It does not depend on the
order of the returns, lies between the least return and the mean of all, and never rises with the level. -/
theorem tail_mean_is_least_mean (hne : returns ≠ []) (habove : 0 < alpha) (hbelow : alpha < 1) :
    (tailLength returns.length (number alpha) : ℤ) = max 1 ⌈(1 - alpha) * returns.length - 1e-12⌉ ∧
    1 ≤ tailLength returns.length (number alpha) ∧
    tailLength returns.length (number alpha) ≤ returns.length ∧
    ∃ v, tailMean (returns.map number) (number alpha) = number v ∧
      IsLeast (meansOver returns (tailLength returns.length (number alpha))) v ∧
      (∀ other : List ℝ, other.Perm returns → tailMean (other.map number) (number alpha) = number v) ∧
      (∃ low, IsLeast {r | r ∈ returns} low ∧ low ≤ v) ∧ v ≤ returns.sum / returns.length ∧
      ∀ beta, alpha ≤ beta → beta < 1 →
        ∃ u, tailMean (returns.map number) (number beta) = number u ∧ u ≤ v := by
  have hpos := tailLength_pos returns.length
  have hle := tailLength_le hne habove hbelow
  refine ⟨tailLength_number_eq _ _, hpos alpha, hle, _, tailMean_number hle, isLeast_leastMean hle, ?_,
    ⟨_, leastMean_one hne, leastMean_mono one_pos (hpos alpha) hle⟩, ?_, ?_⟩
  · intro other hother
    have hle' : tailLength other.length (number alpha) ≤ other.length := by rwa [hother.length_eq]
    rw [tailMean_number hle', leastMean_perm hother, hother.length_eq]
  · rw [← leastMean_length]
    exact leastMean_mono (hpos alpha) hle (le_refl _)
  · intro beta hbeta hbelow'
    have hshorter := tailLength_antitone returns.length hbeta
    exact ⟨_, tailMean_number (hshorter.trans hle), leastMean_mono (hpos beta) hshorter hle⟩

/-- Three returns of which one and a half are in the tail, so that two are counted, in whatever order. -/
theorem tail_mean_is_least_mean_half :
    [-1 / 5, 1 / 10, (3 / 10 : ℝ)] ≠ [] ∧ (0 : ℝ) < 1 / 2 ∧ (1 / 2 : ℝ) < 1 ∧
    tailLength 3 (number (1 / 2)) = 2 ∧
    tailMean ([3 / 10, -1 / 5, (1 / 10 : ℝ)].map number) (number (1 / 2)) = number (-1 / 20) := by
  have hne : [-1 / 5, 1 / 10, (3 / 10 : ℝ)] ≠ [] := by simp
  have habove : (0 : ℝ) < 1 / 2 := by norm_num
  have hbelow : (1 / 2 : ℝ) < 1 := by norm_num
  obtain ⟨hlength, _, hle, v, hv, _, hother, _⟩ := tail_mean_is_least_mean hne habove hbelow
  have hceil : ⌈(1 - 1 / 2) * (3 : ℕ) - (1e-12 : ℝ)⌉ = 2 := by norm_num [Int.ceil_eq_iff]
  have htwo : tailLength 3 (number (1 / 2)) = 2 := by
    rw [List.length_cons, List.length_cons, List.length_singleton, hceil] at hlength
    exact_mod_cast hlength
  have hmean : leastMean [-1 / 5, 1 / 10, 3 / 10] 2 = -1 / 20 := by
    rw [leastMean, List.mergeSort_of_pairwise (by norm_num)]
    norm_num
  rw [tailMean_number hle, List.length_cons, List.length_cons, List.length_singleton, htwo, hmean] at hv
  refine ⟨hne, habove, hbelow, htwo, ?_⟩
  rw [hother _ (.trans (.swap _ _ _) (.cons _ (.swap _ _ _))), hv]

end Tails
end PortfolioLab
