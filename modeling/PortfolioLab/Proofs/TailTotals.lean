import Mathlib.Tactic.FieldSimp
import Mathlib.Tactic.LinearCombination
import PortfolioLab.Metrics.Losses
import PortfolioLab.Proofs.ExactNumbers

/-!
# The largest losses

The total of a share of the losses, the largest first, where the last of them may count in part only. It is
the least value of a level for each of the share and the excess of the losses over that level. The mean over
a share and the mean over the whole losses that the share is rounded up to are the same in two cases only:
the share is a whole number, or all losses of the share are equal.
-/

namespace PortfolioLab

noncomputable def largestFirst (xs : List ℝ) : List ℝ := xs.mergeSort fun a b => decide (b ≤ a)

noncomputable def excess (level : ℝ) (xs : List ℝ) : ℝ := (xs.map fun x => max (x - level) 0).sum

/-- The total of the largest numbers; behind the whole part of the share, one counts in part. -/
noncomputable def worstTotal (share : ℝ) (xs : List ℝ) : ℝ :=
  ((largestFirst xs).take ⌊share⌋₊).sum + Int.fract share * (largestFirst xs).getD ⌊share⌋₊ 0

variable {xs worst rest : List ℝ} {level next share : ℝ}

theorem largestFirst_perm (xs : List ℝ) : (largestFirst xs).Perm xs := List.mergeSort_perm xs _

theorem length_largestFirst (xs : List ℝ) : (largestFirst xs).length = xs.length :=
  (largestFirst_perm xs).length_eq

theorem pairwise_largestFirst (xs : List ℝ) : (largestFirst xs).Pairwise fun a b => b ≤ a := by
  have htrans : ∀ a b c : ℝ, decide (b ≤ a) = true → decide (c ≤ b) = true → decide (c ≤ a) = true := by
    intro a b c hab hbc
    simp only [decide_eq_true_eq] at *
    exact hbc.trans hab
  have htotal : ∀ a b : ℝ, (decide (b ≤ a) || decide (a ≤ b)) = true := by
    intro a b
    simp only [Bool.or_eq_true, decide_eq_true_eq]
    exact le_total b a
  exact (List.pairwise_mergeSort htrans htotal xs).imp of_decide_eq_true

theorem largestFirst_eq_of_perm {ys : List ℝ} (h : xs.Perm ys) (hsorted : ys.Pairwise fun a b => b ≤ a) :
    largestFirst xs = ys :=
  ((largestFirst_perm xs).trans h).eq_of_pairwise (fun _ _ _ _ hab hba => le_antisymm hba hab)
    (pairwise_largestFirst xs) hsorted

/-- The numbers before and behind an index of the descending order. -/
theorem exists_split {m : ℕ} (h : m < xs.length) :
    ∃ worst next rest, largestFirst xs = worst ++ next :: rest ∧ worst.length = m ∧
      (∀ x ∈ worst, next ≤ x) ∧ ∀ x ∈ rest, x ≤ next := by
  have hm : m < (largestFirst xs).length := by rwa [length_largestFirst]
  have hsplit : largestFirst xs = (largestFirst xs).take m ++ (largestFirst xs)[m] ::
      (largestFirst xs).drop (m + 1) := by
    rw [← List.drop_eq_getElem_cons hm, List.take_append_drop]
  have hsorted := pairwise_largestFirst xs
  rw [hsplit, List.pairwise_append, List.pairwise_cons] at hsorted
  obtain ⟨_, ⟨hrest, _⟩, hworst⟩ := hsorted
  refine ⟨_, _, _, hsplit, ?_, fun x hx => hworst x hx _ List.mem_cons_self, hrest⟩
  rw [List.length_take]
  omega

/-! ## The excess over a level -/

theorem excess_nonneg (level : ℝ) (xs : List ℝ) : 0 ≤ excess level xs := by
  refine List.sum_nonneg fun y hy => ?_
  obtain ⟨x, _, rfl⟩ := List.mem_map.mp hy
  exact le_max_right _ _

theorem excess_split (level next : ℝ) (worst rest : List ℝ) :
    excess level (worst ++ next :: rest) = excess level worst + max (next - level) 0 + excess level rest := by
  simp [excess, add_assoc]

theorem excess_perm {ys : List ℝ} (h : xs.Perm ys) (level : ℝ) : excess level xs = excess level ys :=
  (h.map _).sum_eq

theorem sum_sub_le_excess (level : ℝ) (xs : List ℝ) : xs.sum - xs.length * level ≤ excess level xs := by
  induction xs with
  | nil => simp [excess]
  | cons x rest ih =>
    have hx : x - level ≤ max (x - level) 0 := le_max_left _ _
    simp only [excess, List.map_cons, List.sum_cons, List.length_cons, Nat.cast_add, Nat.cast_one] at ih ⊢
    linarith

theorem excess_of_le (h : ∀ x ∈ xs, level ≤ x) : excess level xs = xs.sum - xs.length * level := by
  induction xs with
  | nil => simp [excess]
  | cons x rest ih =>
    obtain ⟨hx, hrest⟩ := List.forall_mem_cons.mp h
    have hmax : max (x - level) 0 = x - level := max_eq_left (by linarith)
    have ih := ih hrest
    simp only [excess, List.map_cons, List.sum_cons, List.length_cons, Nat.cast_add, Nat.cast_one] at ih ⊢
    rw [hmax, ih]
    ring

theorem excess_of_ge (h : ∀ x ∈ xs, x ≤ level) : excess level xs = 0 := by
  have hzero : ∀ x ∈ xs, max (x - level) 0 = 0 := fun x hx => max_eq_right (by linarith [h x hx])
  rw [excess, List.map_congr_left hzero]
  simp

/-! ## The least value -/

theorem worstTotal_split (hsplit : largestFirst xs = worst ++ next :: rest)
    (hlength : worst.length = ⌊share⌋₊) : worstTotal share xs = worst.sum + Int.fract share * next := by
  rw [worstTotal, hsplit, ← hlength, List.take_left]
  simp

theorem floor_add_fract (hshare : 0 ≤ share) : (⌊share⌋₊ : ℝ) + Int.fract share = share := by
  rw [natCast_floor_eq_intCast_floor hshare, Int.floor_add_fract]

/-- No level makes less of the losses than the share of the largest. -/
theorem worstTotal_le (hshare : 0 ≤ share) (h : share < xs.length) (level : ℝ) :
    worstTotal share xs ≤ share * level + excess level xs := by
  obtain ⟨worst, next, rest, hsplit, hlength, _, _⟩ := exists_split ((Nat.floor_lt hshare).mpr h)
  have hfloor := floor_add_fract hshare
  have hworst := sum_sub_le_excess level worst
  have hrest := excess_nonneg level rest
  -- a part of the next loss exceeds the level by no more than the whole of it
  have hnext : Int.fract share * (next - level) ≤ max (next - level) 0 := by
    have hfraction := Int.fract_nonneg share
    rcases le_total (next - level) 0 with hle | hge
    · exact (mul_nonpos_of_nonneg_of_nonpos hfraction hle).trans (le_max_right _ _)
    · exact (mul_le_of_le_one_left hge (Int.fract_lt_one share).le).trans (le_max_left _ _)
  rw [worstTotal_split hsplit hlength, ← excess_perm (largestFirst_perm xs), hsplit, excess_split]
  rw [hlength] at hworst
  calc worst.sum + Int.fract share * next
      = share * level + (worst.sum - ⌊share⌋₊ * level) + Int.fract share * (next - level) := by
        linear_combination level * hfloor
    _ ≤ share * level + (excess level worst + max (next - level) 0 + excess level rest) := by linarith

/-- The first loss behind the whole part of the share is a level that makes the least of them. -/
theorem exists_level (hshare : 0 ≤ share) (h : share < xs.length) :
    ∃ level, share * level + excess level xs = worstTotal share xs := by
  obtain ⟨worst, next, rest, hsplit, hlength, hworst, hrest⟩ := exists_split ((Nat.floor_lt hshare).mpr h)
  have hfloor := floor_add_fract hshare
  refine ⟨next, ?_⟩
  rw [worstTotal_split hsplit hlength, ← excess_perm (largestFirst_perm xs), hsplit, excess_split,
    excess_of_le hworst, excess_of_ge hrest, hlength, sub_self, max_self]
  linear_combination -next * hfloor

/-! ## Means over whole losses -/

/-- The length of a tail whose share is a number of losses, but for rounding noise. -/
noncomputable def wholeTail (share : ℝ) : ℕ := (max 1 ⌈share - 1e-12⌉).toNat

theorem tailLength_eq_wholeTail (n : ℕ) (alpha : ℝ) :
    tailLength n (Exact.number alpha) = wholeTail ((1 - alpha) * n) := by
  have hshare : ((1 : Exact) - .number alpha) * (n : Exact) - 1e-12 = .number ((1 - alpha) * n - 1e-12) := by
    rw [Exact.one_eq, Exact.natCast_eq, Exact.ofScientific_eq, Exact.number_sub, Exact.number_mul,
      Exact.number_sub]
  rw [tailLength, hshare]
  rfl

theorem wholeTail_cases (hshare : 0 < share) :
    (wholeTail share = ⌊share⌋₊ + 1 ∧ 0 < Int.fract share) ∨
      (wholeTail share = ⌊share⌋₊ ∧ 0 < ⌊share⌋₊) := by
  have hfloor := floor_add_fract hshare.le
  have hfraction := Int.fract_nonneg share
  have hbelow := Int.fract_lt_one share
  generalize ⌊share⌋₊ = m at hfloor ⊢
  generalize Int.fract share = f at hfloor hfraction hbelow ⊢
  by_cases hnoise : 1e-12 < f
  · have hceil : ⌈share - 1e-12⌉ = m + 1 := by
      rw [Int.ceil_eq_iff]
      push_cast
      constructor <;> linarith
    refine .inl ⟨?_, hnoise.trans' (by norm_num)⟩
    rw [wholeTail, hceil]
    omega
  · rw [not_lt] at hnoise
    have hceil : ⌈share - 1e-12⌉ = m := by
      rw [Int.ceil_eq_iff]
      push_cast
      constructor <;> norm_num at * <;> linarith
    rcases Nat.eq_zero_or_pos m with rfl | hm
    · refine .inl ⟨?_, by simpa using hshare.trans_eq hfloor.symm⟩
      rw [wholeTail, hceil]
      omega
    · refine .inr ⟨?_, hm⟩
      rw [wholeTail, hceil]
      omega

theorem wholeTail_le_length (hshare : 0 < share) (h : share < xs.length) : wholeTail share ≤ xs.length := by
  have hfloor := (Nat.floor_lt hshare.le).mpr h
  rcases wholeTail_cases hshare with ⟨htail, _⟩ | ⟨htail, _⟩ <;> omega

theorem mean_raised_iff {total next count part : ℝ} (hcount : 0 ≤ count) (hpart : 0 < part)
    (hbelow : part < 1) :
    (total + next) / (count + 1) = (total + part * next) / (count + part) ↔ total = count * next := by
  have hwhole : count + 1 ≠ 0 := by linarith
  have hshare : count + part ≠ 0 := by linarith
  rw [div_eq_div_iff hwhole hshare]
  constructor
  · intro heq
    have hproduct : (1 - part) * (total - count * next) = 0 := by linear_combination -heq
    rcases mul_eq_zero.mp hproduct with hzero | hzero <;> linarith
  · rintro rfl
    ring

theorem mean_cut_iff {total next count part : ℝ} (hcount : 0 < count) (hpart : 0 ≤ part) :
    total / count = (total + part * next) / (count + part) ↔ part = 0 ∨ total = count * next := by
  have hshare : count + part ≠ 0 := by linarith
  rw [div_eq_div_iff hcount.ne' hshare]
  constructor
  · intro heq
    have hproduct : part * (total - count * next) = 0 := by linear_combination heq
    rcases mul_eq_zero.mp hproduct with hzero | hzero
    · exact .inl hzero
    · exact .inr (by linarith)
  · rintro (rfl | rfl) <;> ring

/-- The numbers before an index add up to so many of the next one only if the first is the next one. -/
theorem sum_eq_iff_head (hsorted : (worst ++ next :: rest).Pairwise fun a b => b ≤ a)
    (hworst : ∀ x ∈ worst, next ≤ x) :
    worst.sum = worst.length * next ↔ (worst ++ next :: rest).head? = some next := by
  have hexcess := excess_of_le hworst
  cases worst with
  | nil => simp
  | cons first others =>
    have hfirst : ∀ x ∈ first :: others, x ≤ first := by
      intro x hx
      rw [List.cons_append, List.pairwise_cons] at hsorted
      rcases List.mem_cons.mp hx with rfl | hx
      · exact le_refl x
      · exact hsorted.1 x (List.mem_append_left _ hx)
    rw [List.cons_append, List.head?_cons, Option.some_inj]
    constructor
    · intro hsum
      have hnone : excess next (first :: others) = 0 := by rw [hexcess, hsum, sub_self]
      have hothers := excess_nonneg next others
      have hmax := le_max_left (first - next) 0
      have hle := hworst first List.mem_cons_self
      simp only [excess, List.map_cons, List.sum_cons] at hnone hothers
      linarith
    · rintro rfl
      rw [excess_of_ge hfirst] at hexcess
      linarith

/-- The mean over whole losses is that over the share only where the share is whole or the largest loss is
also the next one behind it. -/
theorem mean_eq_worstTotal_iff (hshare : 0 < share) (h : share < xs.length) :
    ((largestFirst xs).take (wholeTail share)).sum / wholeTail share = worstTotal share xs / share ↔
      (∃ m : ℕ, share = m) ∨ (largestFirst xs).head? = (largestFirst xs)[⌊share⌋₊]? := by
  obtain ⟨worst, next, rest, hsplit, hlength, hworst, _⟩ := exists_split ((Nat.floor_lt hshare.le).mpr h)
  have hfloor := floor_add_fract hshare.le
  have hwhole : (∃ m : ℕ, share = m) ↔ Int.fract share = 0 := by
    constructor
    · rintro ⟨m, rfl⟩
      exact Int.fract_natCast m
    · intro hzero
      exact ⟨⌊share⌋₊, by linarith⟩
  have hnext : (largestFirst xs)[⌊share⌋₊]? = some next := by
    rw [hsplit, ← hlength]
    simp
  have htie := sum_eq_iff_head (hsplit ▸ pairwise_largestFirst xs) hworst
  rw [hwhole, hnext, worstTotal_split hsplit hlength, hsplit, ← htie, hlength]
  nth_rewrite 4 [← hfloor]
  rcases wholeTail_cases hshare with ⟨htail, hpart⟩ | ⟨htail, hcount⟩
  · have htake : (worst ++ next :: rest).take (⌊share⌋₊ + 1) = worst ++ [next] := by
      rw [← hlength, List.take_append]
      simp
    rw [htail, htake, List.sum_append, List.sum_singleton, Nat.cast_add, Nat.cast_one,
      mean_raised_iff (Nat.cast_nonneg _) hpart (Int.fract_lt_one share), or_iff_right hpart.ne']
  · have htake : (worst ++ next :: rest).take ⌊share⌋₊ = worst := by
      rw [← hlength, List.take_left]
    rw [htail, htake, mean_cut_iff (Nat.cast_pos.mpr hcount) (Int.fract_nonneg share)]

end PortfolioLab
