import PortfolioLab.Allocation.TailRisk
import PortfolioLab.Metrics.Performance
import PortfolioLab.Proofs.LinearPrograms
import PortfolioLab.Proofs.TailTotals

/-!
# The two measures of a tail

The program of least tail risk weighs a tail by its share of the losses, and the tail loss of a portfolio
is a mean over whole losses. At fixed weights the program attains the fractional total of the largest losses
over their share, and the two measures are compared there.
-/

namespace PortfolioLab

open Exact

/-! ## The program at fixed weights -/

structure IsPortfolio (assets : ℕ) (w : List ℝ) : Prop where
  length : w.length = assets
  nonneg : ∀ x ∈ w, 0 ≤ x
  sum : w.sum = 1

theorem IsPortfolio.le_one {assets : ℕ} {w : List ℝ} (h : IsPortfolio assets w) : ∀ x ∈ w, x ≤ 1 :=
  fun x hx => (List.single_le_sum h.nonneg x hx).trans_eq h.sum

noncomputable def losses (rows : List (List ℝ)) (w : List ℝ) : List ℝ := rows.map fun r => -realDot r w

theorem length_losses (rows : List (List ℝ)) (w : List ℝ) : (losses rows w).length = rows.length :=
  List.length_map _

/-- Numbers that are not negative and not below what the losses exceed a level by. -/
structure Covers (xs : List ℝ) (level : ℝ) (covers : List ℝ) : Prop where
  length : covers.length = xs.length
  nonneg : ∀ e ∈ covers, 0 ≤ e
  above : ∀ t x, xs[t]? = some x → x - level ≤ covers.getD t 0

theorem Covers.excess_le {xs covers : List ℝ} {level : ℝ} (h : Covers xs level covers) :
    excess level xs ≤ covers.sum := by
  induction xs generalizing covers with
  | nil =>
    rw [List.length_eq_zero_iff.mp h.length]
    exact le_refl 0
  | cons x xs ih =>
    cases covers with
    | nil => exact absurd h.length (by simp)
    | cons e covers =>
      obtain ⟨he, hcovers⟩ := List.forall_mem_cons.mp h.nonneg
      have hrest : Covers xs level covers :=
        ⟨Nat.succ_injective h.length, hcovers, fun t y hy => h.above (t + 1) y hy⟩
      have hx : max (x - level) 0 ≤ e := max_le (h.above 0 x rfl) he
      have hle := ih hrest
      simp only [excess, List.map_cons, List.sum_cons] at hle ⊢
      linarith

theorem covers_excess (xs : List ℝ) (level : ℝ) : Covers xs level (xs.map fun x => max (x - level) 0) where
  length := by rw [List.length_map]
  nonneg := by
    intro e he
    obtain ⟨x, _, rfl⟩ := List.mem_map.mp he
    exact le_max_right _ _
  above := by
    intro t x hx
    simp [List.getD_eq_getElem?_getD, hx]

/-- Over all levels and covers, the least value is the fractional mean of the largest numbers. -/
theorem isLeast_covers {xs : List ℝ} {share : ℝ} (hshare : 0 < share) (h : share < xs.length) :
    IsLeast {v | ∃ level covers, Covers xs level covers ∧ v = level + covers.sum / share}
      (worstTotal share xs / share) := by
  constructor
  · obtain ⟨level, hlevel⟩ := exists_level hshare.le h
    refine ⟨level, _, covers_excess xs level, ?_⟩
    rw [← hlevel, excess]
    field_simp
  · rintro v ⟨level, covers, hcover, rfl⟩
    have hleast := worstTotal_le hshare.le h level
    have hexcess := hcover.excess_le
    rw [div_le_iff₀ hshare, add_mul, div_mul_cancel₀ _ hshare.ne']
    linarith

section Program

variable {assets : ℕ} {rows : List (List ℝ)} {w covers : List ℝ} {level alpha : ℝ}

def exactRows (rows : List (List ℝ)) : List (List Exact) := rows.map (·.map number)

/-- The share of the losses that a level leaves in the tail. -/
noncomputable def tailShareOf (rows : List (List ℝ)) (alpha : ℝ) : ℝ := (1 - alpha) * rows.length

theorem dot_tailRow {r : List ℝ} {t : ℕ} (hr : r.length = w.length) (ht : t < covers.length) :
    Scalar.dot ((r.map number).map (- ·) ++ [-1] ++ (Scalar.unit covers.length t).map (- ·))
      ((w ++ level :: covers).map number) = number (-realDot r w - level - covers.getD t 0) := by
  have hrow : (r.map number).map (- ·) ++ [-1] ++ (Scalar.unit covers.length t).map (- ·) =
      (r.map (- ·) ++ -1 :: (indicator covers.length t).map (- ·)).map number := by
    simp [unit_eq_indicator, one_eq, Function.comp_def]
  rw [hrow, dot_number, realDot_append (by rwa [List.length_map]), realDot_cons, realDot_neg, realDot_neg,
    realDot_indicator ht]
  congr 1
  ring

theorem tailShare_number (hshare : tailShareOf rows alpha ≠ 0) :
    tailShare rows.length (number alpha) = number (1 / tailShareOf rows alpha) := by
  rw [tailShare, one_eq, natCast_eq, number_sub, number_mul]
  exact number_div hshare

theorem objective_tailProgram (hshare : tailShareOf rows alpha ≠ 0) :
    (tailProgram assets (exactRows rows) (number alpha)).objective =
      (List.replicate assets 0 ++
        1 :: List.replicate rows.length (1 / tailShareOf rows alpha)).map number := by
  simp [tailProgram, exactRows, tailShare_number hshare, Scalar.zeros, zero_eq, one_eq]

theorem value_tailProgram (hlength : w.length = assets) (hcovers : covers.length = rows.length)
    (hshare : tailShareOf rows alpha ≠ 0) (level : ℝ) :
    (tailProgram assets (exactRows rows) (number alpha)).value ((w ++ level :: covers).map number) =
      number (level + covers.sum / tailShareOf rows alpha) := by
  rw [LinearProgram.value_number (objective_tailProgram hshare), ← hlength, ← hcovers,
    realDot_append (by simp), realDot_cons, realDot_replicate, realDot_replicate]
  congr 1
  ring

theorem limits_tailProgram_iff (hwidth : ∀ r ∈ rows, r.length = assets) (hlength : w.length = assets)
    (hcovers : covers.length = rows.length) :
    (∀ row ∈ (tailProgram assets (exactRows rows) (number alpha)).limits,
        Scalar.dot row.1 ((w ++ level :: covers).map number) ≤ row.2) ↔
      ∀ t x, (losses rows w)[t]? = some x → x - level ≤ covers.getD t 0 := by
  -- the row of a period says what its loss exceeds the level by
  have hperiod : ∀ t r, rows[t]? = some r →
      (Scalar.dot ((r.map number).map (- ·) ++ [-1] ++ (Scalar.unit (exactRows rows).length t).map (- ·))
        ((w ++ level :: covers).map number) ≤ 0 ↔ -realDot r w - level ≤ covers.getD t 0) := by
    intro t r hr
    have ht : t < covers.length := hcovers ▸ (List.getElem?_eq_some_iff.mp hr).1
    have hr : r.length = w.length := (hwidth r (List.mem_of_getElem? hr)).trans hlength.symm
    have hrows : (exactRows rows).length = covers.length := by rw [exactRows, List.length_map, hcovers]
    rw [hrows, dot_tailRow hr ht, zero_eq, number_le, sub_nonpos]
  simp only [tailProgram, List.forall_mem_map, losses, List.getElem?_map, Option.map_eq_some_iff]
  constructor
  · rintro h t _ ⟨r, hr, rfl⟩
    have hmem : (r.map number, t) ∈ (exactRows rows).zipIdx :=
      List.mem_zipIdx_iff_getElem?.mpr (by simp [exactRows, hr])
    exact (hperiod t r hr).mp (h _ hmem)
  · intro h ⟨row, t⟩ hmem
    have hrow := List.mem_zipIdx_iff_getElem?.mp hmem
    rw [exactRows, List.getElem?_map, Option.map_eq_some_iff] at hrow
    obtain ⟨r, hr, rfl⟩ := hrow
    exact (hperiod t r hr).mpr (h t _ ⟨r, hr, rfl⟩)

theorem equations_tailProgram_iff (hlength : w.length = assets) (hcovers : covers.length = rows.length) :
    (∀ row ∈ (tailProgram assets (exactRows rows) (number alpha)).equations,
        Scalar.dot row.1 ((w ++ level :: covers).map number) = row.2) ↔ w.sum = 1 := by
  have hrow : Scalar.ones assets ++ Scalar.zeros (1 + (exactRows rows).length) =
      (List.replicate w.length (1 : ℝ) ++ (0 : ℝ) :: List.replicate covers.length (0 : ℝ)).map number := by
    simp [Scalar.ones, Scalar.zeros, exactRows, hlength, hcovers, zero_eq, one_eq, List.replicate_add]
  simp only [tailProgram, List.mem_singleton, forall_eq, hrow]
  rw [dot_number, realDot_append (by simp), realDot_cons, realDot_replicate, realDot_replicate, one_eq]
  simp

theorem ranges_tailProgram_iff (hlength : w.length = assets) (hcovers : covers.length = rows.length) :
    (∀ entry ∈ (tailProgram assets (exactRows rows) (number alpha)).ranges.zip
        ((w ++ level :: covers).map number), entry.1.Holds entry.2) ↔
      (∀ x ∈ w, 0 ≤ x ∧ x ≤ 1) ∧ ∀ e ∈ covers, 0 ≤ e := by
  have hzip : (tailProgram assets (exactRows rows) (number alpha)).ranges.zip
      ((w ++ level :: covers).map number) = w.map (fun x => (Range.share, number x)) ++
        (Range.free, number level) :: covers.map (fun e => (Range.nonnegative, number e)) := by
    have hranges : (tailProgram assets (exactRows rows) (number alpha)).ranges =
        List.replicate w.length .share ++ .free :: List.replicate covers.length .nonnegative := by
      simp [tailProgram, exactRows, hlength, hcovers]
    rw [hranges, List.map_append, List.map_cons, List.zip_append (by simp), List.zip_cons_cons,
      replicate_zip_number, replicate_zip_number]
  rw [hzip, List.forall_mem_append, List.forall_mem_cons, List.forall_mem_map, List.forall_mem_map]
  simp

/-- The feasible points are portfolios with a level and covers of the losses over it. -/
theorem feasible_tailProgram_iff (hwidth : ∀ r ∈ rows, r.length = assets) (hlength : w.length = assets) :
    (tailProgram assets (exactRows rows) (number alpha)).Feasible ((w ++ level :: covers).map number) ↔
      IsPortfolio assets w ∧ Covers (losses rows w) level covers := by
  have hcount : (tailProgram assets (exactRows rows) (number alpha)).ranges.length =
      assets + (rows.length + 1) := by
    simp [tailProgram, exactRows]
  constructor
  · rintro ⟨hpoint, hlimits, hequations, hranges⟩
    have hcovers : covers.length = rows.length := by
      rw [hcount, List.length_map, List.length_append, List.length_cons, hlength] at hpoint
      omega
    rw [limits_tailProgram_iff hwidth hlength hcovers] at hlimits
    rw [equations_tailProgram_iff hlength hcovers] at hequations
    rw [ranges_tailProgram_iff hlength hcovers] at hranges
    exact ⟨⟨hlength, fun x hx => (hranges.1 x hx).1, hequations⟩,
      ⟨hcovers.trans (length_losses rows w).symm, hranges.2, hlimits⟩⟩
  · rintro ⟨hw, hcover⟩
    have hcovers : covers.length = rows.length := hcover.length.trans (length_losses rows _)
    refine ⟨?_, (limits_tailProgram_iff hwidth hlength hcovers).mpr hcover.above,
      (equations_tailProgram_iff hlength hcovers).mpr hw.sum,
      (ranges_tailProgram_iff hlength hcovers).mpr ⟨fun x hx => ⟨hw.nonneg x hx, hw.le_one x hx⟩,
        hcover.nonneg⟩⟩
    rw [hcount, List.length_map, List.length_append, List.length_cons, hlength, hcovers]

/-- What the program can make of fixed weights. -/
def attainable (assets : ℕ) (rows : List (List ℝ)) (w : List ℝ) (alpha : ℝ) : Set ℝ :=
  {v | ∃ (level : ℝ) (covers : List ℝ),
    (tailProgram assets (exactRows rows) (number alpha)).Feasible ((w ++ level :: covers).map number) ∧
      (tailProgram assets (exactRows rows) (number alpha)).value ((w ++ level :: covers).map number) =
        number v}

theorem tailShareOf_pos (hrows : rows ≠ []) (hbelow : alpha < 1) : 0 < tailShareOf rows alpha :=
  mul_pos (by linarith) (Nat.cast_pos.mpr (List.length_pos_iff.mpr hrows))

theorem tailShareOf_lt (hrows : rows ≠ []) (habove : 0 < alpha) (w : List ℝ) :
    tailShareOf rows alpha < (losses rows w).length := by
  have hcount : (0 : ℝ) < rows.length := Nat.cast_pos.mpr (List.length_pos_iff.mpr hrows)
  rw [length_losses, tailShareOf]
  nlinarith

/-- What the fixed weights can attain are the values of levels with covers of the losses. -/
theorem attainable_eq (hrows : rows ≠ []) (hwidth : ∀ r ∈ rows, r.length = assets)
    (hw : IsPortfolio assets w) (hbelow : alpha < 1) :
    attainable assets rows w alpha = {v | ∃ level covers, Covers (losses rows w) level covers ∧
      v = level + covers.sum / tailShareOf rows alpha} := by
  have hvalue : ∀ {level covers}, Covers (losses rows w) level covers →
      (tailProgram assets (exactRows rows) (number alpha)).value ((w ++ level :: covers).map number) =
        number (level + covers.sum / tailShareOf rows alpha) := fun hcover =>
    value_tailProgram hw.length (hcover.length.trans (length_losses rows w))
      (tailShareOf_pos hrows hbelow).ne' _
  ext v
  constructor
  · rintro ⟨level, covers, hfeasible, hv⟩
    obtain ⟨_, hcover⟩ := (feasible_tailProgram_iff hwidth hw.length).mp hfeasible
    rw [hvalue hcover, number.injEq] at hv
    exact ⟨level, covers, hcover, hv.symm⟩
  · rintro ⟨level, covers, hcover, rfl⟩
    exact ⟨level, covers, (feasible_tailProgram_iff hwidth hw.length).mpr ⟨hw, hcover⟩, hvalue hcover⟩

/-- The least value of the program at fixed weights is the fractional mean of the largest losses. -/
theorem isLeast_attainable (hrows : rows ≠ []) (hwidth : ∀ r ∈ rows, r.length = assets)
    (hw : IsPortfolio assets w) (habove : 0 < alpha) (hbelow : alpha < 1) :
    IsLeast (attainable assets rows w alpha)
      (worstTotal (tailShareOf rows alpha) (losses rows w) / tailShareOf rows alpha) := by
  rw [attainable_eq hrows hwidth hw hbelow]
  exact isLeast_covers (tailShareOf_pos hrows hbelow) (tailShareOf_lt hrows habove w)

/-! ## Optima of the program -/

theorem exists_parts_of_feasible {x : List ℝ}
    (h : (tailProgram assets (exactRows rows) (number alpha)).Feasible (x.map number)) :
    ∃ w level covers, x = w ++ level :: covers ∧ w.length = assets := by
  have hlength := h.length
  simp only [tailProgram, exactRows, List.length_map, List.length_append, List.length_replicate,
    List.length_singleton] at hlength
  have hrest : x.drop assets ≠ [] := by
    rw [← List.length_pos_iff, List.length_drop]
    omega
  obtain ⟨level, covers, hparts⟩ := List.exists_cons_of_ne_nil hrest
  refine ⟨x.take assets, level, covers, ?_, by rw [List.length_take]; omega⟩
  rw [← hparts, List.take_append_drop]

/-- All values from weights of the right number have a level. -/
theorem valuesFrom_tailProgram (hlength : w.length = assets) :
    (tailProgram assets (exactRows rows) (number alpha)).valuesFrom w = attainable assets rows w alpha := by
  ext v
  constructor
  · rintro ⟨rest, hfeasible, hvalue⟩
    obtain ⟨w', level, covers, hparts, hlength'⟩ := exists_parts_of_feasible hfeasible
    obtain ⟨rfl, rfl⟩ := List.append_inj hparts (hlength.trans hlength'.symm)
    exact ⟨level, covers, hfeasible, hvalue⟩
  · rintro ⟨level, covers, hfeasible, hvalue⟩
    exact ⟨level :: covers, hfeasible, hvalue⟩

/-- The optima of the program begin with the portfolios of the least fractional tail. -/
theorem exists_optimum_tailProgram_iff (hrows : rows ≠ []) (hwidth : ∀ r ∈ rows, r.length = assets)
    (habove : 0 < alpha) (hbelow : alpha < 1) (w : List ℝ) :
    (∃ x, (tailProgram assets (exactRows rows) (number alpha)).IsOptimum x ∧ x.take assets = w) ↔
      IsPortfolio assets w ∧ ∀ w', IsPortfolio assets w' →
        worstTotal (tailShareOf rows alpha) (losses rows w) / tailShareOf rows alpha ≤
          worstTotal (tailShareOf rows alpha) (losses rows w') / tailShareOf rows alpha := by
  refine LinearProgram.exists_isOptimum_iff (P := IsPortfolio assets)
    (m := fun w => worstTotal (tailShareOf rows alpha) (losses rows w) / tailShareOf rows alpha)
    (objective_tailProgram (tailShareOf_pos hrows hbelow).ne') (fun x hx => ?_) (fun _ hw => hw.length)
    (fun w' hw' => ?_) w
  · obtain ⟨own, level, covers, rfl, hlength⟩ := exists_parts_of_feasible hx
    rw [← hlength, List.take_left, hlength]
    exact ((feasible_tailProgram_iff hwidth hlength).mp hx).1
  · rw [valuesFrom_tailProgram hw'.length]
    exact isLeast_attainable hrows hwidth hw' habove hbelow

/-- The program computes the fractional tail mean. At the weights of any portfolio its least value is the
mean of the largest losses over the share of the tail, where the loss behind the whole part of the share
counts in part. So the optima of the program begin with the portfolios for which this mean is least. -/
theorem tail_program_least_fractional_mean (hrows : rows ≠ []) (hwidth : ∀ r ∈ rows, r.length = assets)
    (habove : 0 < alpha) (hbelow : alpha < 1) :
    (∀ w, IsPortfolio assets w → IsLeast (attainable assets rows w alpha)
      (worstTotal (tailShareOf rows alpha) (losses rows w) / tailShareOf rows alpha)) ∧
    ∀ w, (∃ x, (tailProgram assets (exactRows rows) (number alpha)).IsOptimum x ∧ x.take assets = w) ↔
      IsPortfolio assets w ∧ ∀ w', IsPortfolio assets w' →
        worstTotal (tailShareOf rows alpha) (losses rows w) / tailShareOf rows alpha ≤
          worstTotal (tailShareOf rows alpha) (losses rows w') / tailShareOf rows alpha :=
  ⟨fun _ hw => isLeast_attainable hrows hwidth hw habove hbelow,
    exists_optimum_tailProgram_iff hrows hwidth habove hbelow⟩

/-- Two assets over two periods, of which one and a half count: the first asset has the higher returns. -/
theorem tail_program_least_fractional_mean_two_assets :
    let rows : List (List ℝ) := [[1 / 5, 1 / 10], [1 / 10, 0]]
    IsLeast (attainable 2 rows [1 / 2, 1 / 2] (1 / 4)) (-1 / 12) ∧
      ∃ x, (tailProgram 2 (exactRows rows) (number (1 / 4))).IsOptimum x ∧ x.take 2 = [1, 0] := by
  intro rows
  have hrows : rows ≠ [] := by simp [rows]
  have hwidth : ∀ r ∈ rows, r.length = 2 := by simp [rows]
  have hshare : tailShareOf rows (1 / 4) = 3 / 2 := by norm_num [tailShareOf, rows]
  have hfloor : ⌊(3 / 2 : ℝ)⌋₊ = 1 := by norm_num [Nat.floor_eq_iff]
  have hfract : Int.fract (3 / 2 : ℝ) = 1 / 2 := by norm_num [Int.fract_eq_iff]
  have hmean : ∀ a b : ℝ, a + b = 1 →
      worstTotal (tailShareOf rows (1 / 4)) (losses rows [a, b]) / tailShareOf rows (1 / 4) =
        -1 / 30 - a / 10 := by
    intro a b hab
    have hlosses : losses rows [a, b] = [-1 / 10 - a / 10, -a / 10] := by
      simp only [losses, rows, realDot, List.map_cons, List.map_nil, List.zipWith_cons_cons,
        List.zipWith_nil_left, List.sum_cons, List.sum_nil, List.cons.injEq, and_true]
      constructor <;> linarith
    have hsorted : largestFirst [-1 / 10 - a / 10, -a / 10] = [-a / 10, -1 / 10 - a / 10] := by
      refine largestFirst_eq_of_perm (.swap _ _ _) (List.pairwise_pair.mpr ?_)
      linarith
    rw [hshare, hlosses, worstTotal, hsorted, hfloor, hfract]
    norm_num
    ring
  obtain ⟨hleast, hoptimum⟩ := tail_program_least_fractional_mean hrows hwidth
    (by norm_num : (0 : ℝ) < 1 / 4) (by norm_num)
  constructor
  · have h := hleast [1 / 2, 1 / 2] ⟨rfl, by norm_num, by norm_num⟩
    rw [hmean _ _ (by norm_num)] at h
    norm_num at h ⊢
    exact h
  · refine (hoptimum [1, 0]).mpr ⟨⟨rfl, by norm_num, by norm_num⟩, fun w hw => ?_⟩
    obtain ⟨a, b, rfl⟩ := List.length_eq_two.mp hw.length
    have hsum : a + b = 1 := by simpa using hw.sum
    have ha : a ≤ 1 := hw.le_one a List.mem_cons_self
    rw [hmean _ _ (by norm_num), hmean a b hsum]
    linarith

/-! ## The tail loss of a portfolio -/

theorem tailLength_number (rows : List (List ℝ)) (alpha : ℝ) :
    tailLength rows.length (number alpha) = wholeTail (tailShareOf rows alpha) :=
  tailLength_eq_wholeTail rows.length alpha

/-- Returns in ascending order are the losses in descending order. -/
theorem sort_neg_number (xs : List ℝ) :
    Scalar.sort (xs.map fun x => number (-x)) = (largestFirst xs).map fun x => number (-x) := by
  refine (List.map_mergeSort fun a _ b _ => ?_).symm
  simp

theorem portfolioTailLoss_number (hrows : rows ≠ []) (habove : 0 < alpha) (hbelow : alpha < 1)
    (w : List ℝ) :
    portfolioTailLoss (exactRows rows) (w.map number) (number alpha) =
      number (((largestFirst (losses rows w)).take (wholeTail (tailShareOf rows alpha))).sum /
        wholeTail (tailShareOf rows alpha)) := by
  have hshare := tailShareOf_pos hrows hbelow
  have hlt := tailShareOf_lt hrows habove w
  have hreturns : Scalar.mulVec (exactRows rows) (w.map number) =
      (losses rows w).map fun x => number (-x) := by
    simp [Scalar.mulVec, exactRows, losses, dot_number]
  have hlength : ((largestFirst (losses rows w)).take (wholeTail (tailShareOf rows alpha))).length =
      wholeTail (tailShareOf rows alpha) := by
    rw [List.length_take, length_largestFirst, min_eq_left (wholeTail_le_length hshare hlt)]
  have hpos : 0 < wholeTail (tailShareOf rows alpha) := by
    rcases wholeTail_cases hshare with ⟨h, _⟩ | ⟨h, _⟩ <;> omega
  rw [portfolioTailLoss, hreturns, tailMean, sort_neg_number, List.length_map, length_losses,
    tailLength_number, ← List.map_take]
  generalize (largestFirst (losses rows w)).take (wholeTail (tailShareOf rows alpha)) = worst at hlength ⊢
  have hnumbers : worst.map (fun x => number (-x)) = (worst.map (- ·)).map number := by
    rw [List.map_map]
    rfl
  have hne : worst.map (- ·) ≠ [] := by
    rw [← List.length_pos_iff, List.length_map, hlength]
    exact hpos
  rw [hnumbers, mean_number hne, number_neg, List.length_map, hlength, ← List.sum_neg, neg_div, neg_neg]

/-! ## Where the measures agree -/

/-- The tail loss of a portfolio, which the statistics of its returns report as their tail mean, is the least
value of the program at its weights only where the share of the tail is a whole number of losses, or the loss
next to the tail is the largest of all. At a whole share the optima of the program are portfolios of least
tail loss. -/
theorem tail_loss_is_least_value_iff (hrows : rows ≠ []) (hwidth : ∀ r ∈ rows, r.length = assets)
    (habove : 0 < alpha) (hbelow : alpha < 1) :
    (∀ w, IsPortfolio assets w →
      (∀ perYear riskFree : Exact,
        portfolioTailLoss (exactRows rows) (w.map number) (number alpha) =
          -(metricsOf (Scalar.mulVec (exactRows rows) (w.map number)) perYear riskFree
            (number alpha)).tailMean) ∧
      ∃ least, IsLeast (attainable assets rows w alpha) least ∧
        (portfolioTailLoss (exactRows rows) (w.map number) (number alpha) = number least ↔
          (∃ m : ℕ, tailShareOf rows alpha = m) ∨
            (largestFirst (losses rows w)).head? =
              (largestFirst (losses rows w))[⌊tailShareOf rows alpha⌋₊]?)) ∧
      ((∃ m : ℕ, tailShareOf rows alpha = m) →
        ∀ x, (tailProgram assets (exactRows rows) (number alpha)).IsOptimum x →
          IsPortfolio assets (x.take assets) ∧ ∀ w, IsPortfolio assets w →
            portfolioTailLoss (exactRows rows) ((x.take assets).map number) (number alpha) ≤
              portfolioTailLoss (exactRows rows) (w.map number) (number alpha)) := by
  have hshare := tailShareOf_pos hrows hbelow
  have hloss := portfolioTailLoss_number hrows habove hbelow
  have hmean := fun w => mean_eq_worstTotal_iff hshare (tailShareOf_lt hrows habove w)
  constructor
  · intro w hw
    refine ⟨fun _ _ => rfl, _, isLeast_attainable hrows hwidth hw habove hbelow, ?_⟩
    rw [hloss, number.injEq, hmean]
  · intro hwhole x hx
    obtain ⟨hown, hle⟩ := (exists_optimum_tailProgram_iff hrows hwidth habove hbelow _).mp ⟨x, hx, rfl⟩
    refine ⟨hown, fun w hw => ?_⟩
    rw [hloss, hloss, (hmean _).mpr (.inl hwhole), (hmean w).mpr (.inl hwhole), number_le]
    exact hle w hw

/-- Two assets over three periods. -/
theorem tail_loss_is_least_value_iff_two_assets :
    let rows : List (List ℝ) := [[-1 / 10, 1 / 20], [1 / 50, -1 / 25], [3 / 100, 1 / 100]]
    IsPortfolio 2 [1 / 2, 1 / 2] ∧ ∃ least, IsLeast (attainable 2 rows [1 / 2, 1 / 2] (1 / 2)) least ∧
      (portfolioTailLoss (exactRows rows) ([1 / 2, 1 / 2].map number) (number (1 / 2)) = number least ↔
        (∃ m : ℕ, tailShareOf rows (1 / 2) = m) ∨
          (largestFirst (losses rows [1 / 2, 1 / 2])).head? =
            (largestFirst (losses rows [1 / 2, 1 / 2]))[⌊tailShareOf rows (1 / 2)⌋₊]?) := by
  intro rows
  have hw : IsPortfolio 2 [1 / 2, 1 / 2] := ⟨rfl, by norm_num, by norm_num⟩
  have hrows : rows ≠ [] := by simp [rows]
  have hwidth : ∀ r ∈ rows, r.length = 2 := by simp [rows]
  exact ⟨hw, ((tail_loss_is_least_value_iff hrows hwidth (by norm_num) (by norm_num)).1 _ hw).2⟩

/-- With half of three losses in the tail, the tail loss counts two of them in full, the program one and a
half. -/
theorem tail_loss_misses_least_value :
    let rows : List (List ℝ) := [[-1 / 10], [-1 / 50], [3 / 100]]
    IsPortfolio 1 [1] ∧ IsLeast (attainable 1 rows [1] (1 / 2)) (11 / 150) ∧
      portfolioTailLoss (exactRows rows) ([1].map number) (number (1 / 2)) = number (3 / 50) := by
  intro rows
  have hw : IsPortfolio 1 [1] := ⟨rfl, by norm_num, by norm_num⟩
  have hrows : rows ≠ [] := by simp [rows]
  have hshare : tailShareOf rows (1 / 2) = 3 / 2 := by norm_num [tailShareOf, rows]
  have hlosses : losses rows [1] = [1 / 10, 1 / 50, -3 / 100] := by
    norm_num [losses, rows, realDot]
  have hsorted : largestFirst [1 / 10, 1 / 50, -3 / 100] = [1 / 10, 1 / 50, -3 / 100] := by
    refine List.mergeSort_of_pairwise ?_
    norm_num
  have hfloor : ⌊(3 / 2 : ℝ)⌋₊ = 1 := by norm_num [Nat.floor_eq_iff]
  have hfract : Int.fract (3 / 2 : ℝ) = 1 / 2 := by norm_num [Int.fract_eq_iff]
  have hworst : worstTotal (3 / 2) [1 / 10, 1 / 50, -3 / 100] / (3 / 2) = 11 / 150 := by
    rw [worstTotal, hsorted, hfloor, hfract]
    norm_num
  have htail : wholeTail (3 / 2) = 2 := by
    have hceil : ⌈(3 / 2 : ℝ) - 1e-12⌉ = 2 := by norm_num [Int.ceil_eq_iff]
    rw [wholeTail, hceil]
    rfl
  have hwidth : ∀ r ∈ rows, r.length = 1 := by simp [rows]
  have hleast := isLeast_attainable hrows hwidth hw (by norm_num : (0 : ℝ) < 1 / 2) (by norm_num)
  have hloss := portfolioTailLoss_number hrows (by norm_num : (0 : ℝ) < 1 / 2) (by norm_num) [1]
  rw [hshare, hlosses, hworst] at hleast
  rw [hshare, hlosses, hsorted, htail] at hloss
  refine ⟨hw, hleast, ?_⟩
  rw [hloss]
  norm_num

end Program
end PortfolioLab
