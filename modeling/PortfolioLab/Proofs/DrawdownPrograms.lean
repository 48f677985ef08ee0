import Mathlib.Data.List.GetD
import PortfolioLab.Proofs.TailPrograms

/-!
# The program of least drawdowns

The path of a portfolio is the scalar product of its weights with the summed returns, and its drawdown the
distance from the highest point of the path so far. The program has a variable for the peak of every period
that is only bounded from below. The least peaks that it admits are the running peaks, so at fixed weights
it attains the fractional mean of the largest drawdowns.
-/

namespace PortfolioLab

open Exact

/-! ## Paths and peaks -/

noncomputable def summedTo (assets : ℕ) (rows : List (List ℝ)) (t : ℕ) : List ℝ :=
  (rows.take (t + 1)).foldl (List.zipWith (· + ·)) (List.replicate assets 0)

noncomputable def pathTo (rows : List (List ℝ)) (w : List ℝ) (t : ℕ) : ℝ :=
  realDot (summedTo w.length rows t) w

/-- The highest point of a path up to a period; it starts from zero. -/
noncomputable def peakTo (path : ℕ → ℝ) (t : ℕ) : ℝ :=
  max 0 ((Finset.range (t + 1)).sup' Finset.nonempty_range_add_one path)

noncomputable def pathDrawdowns (rows : List (List ℝ)) (w : List ℝ) : List ℝ :=
  (List.range rows.length).map fun t => peakTo (pathTo rows w) t - pathTo rows w t

section Peaks

variable {path : ℕ → ℝ} {t n : ℕ} {u : ℝ} {peaks : List ℝ}

theorem peakTo_le_iff : peakTo path t ≤ u ↔ 0 ≤ u ∧ ∀ s ≤ t, path s ≤ u := by
  simp [peakTo, Finset.sup'_le_iff]

theorem peakTo_nonneg (path : ℕ → ℝ) (t : ℕ) : 0 ≤ peakTo path t := (peakTo_le_iff.mp le_rfl).1

theorem le_peakTo {s : ℕ} (h : s ≤ t) : path s ≤ peakTo path t := (peakTo_le_iff.mp le_rfl).2 s h

theorem peakTo_mono {s : ℕ} (h : s ≤ t) : peakTo path s ≤ peakTo path t :=
  peakTo_le_iff.mpr ⟨peakTo_nonneg path t, fun _ hr => le_peakTo (hr.trans h)⟩

theorem peakTo_zero (path : ℕ → ℝ) : peakTo path 0 = max 0 (path 0) :=
  eq_of_forall_ge_iff fun u => by simp [peakTo_le_iff]

theorem peakTo_succ (path : ℕ → ℝ) (t : ℕ) :
    peakTo path (t + 1) = max (peakTo path t) (path (t + 1)) := by
  refine eq_of_forall_ge_iff fun u => ?_
  simp only [peakTo_le_iff, max_le_iff, and_assoc, Nat.le_add_one_iff, or_imp, forall_and, forall_eq]

/-- Numbers that never fall and are neither negative nor below a path. -/
structure Tracks (path : ℕ → ℝ) (n : ℕ) (peaks : List ℝ) : Prop where
  length : peaks.length = n
  nonneg : ∀ u ∈ peaks, 0 ≤ u
  above : ∀ t < n, path t ≤ peaks.getD t 0
  rising : ∀ t, t + 1 < n → peaks.getD t 0 ≤ peaks.getD (t + 1) 0

/-- No numbers that track a path are below its peaks. -/
theorem Tracks.peakTo_le (h : Tracks path n peaks) (ht : t < n) : peakTo path t ≤ peaks.getD t 0 := by
  have hmem : ∀ s < n, peaks.getD s 0 ∈ peaks := by
    intro s hs
    rw [List.getD_eq_getElem _ _ (h.length ▸ hs)]
    exact List.getElem_mem _
  refine peakTo_le_iff.mpr ⟨h.nonneg _ (hmem t ht), fun s hs => ?_⟩
  -- from the period of the point on, the numbers do not fall
  induction t, hs using Nat.le_induction with
  | base => exact h.above s ht
  | succ t _ ih => exact (ih (Nat.lt_of_succ_lt ht)).trans (h.rising t ht)

theorem getD_map_range (f : ℕ → ℝ) (ht : t < n) : ((List.range n).map f).getD t 0 = f t := by
  simp [List.getD_eq_getElem?_getD, ht]

theorem tracks_peakTo (path : ℕ → ℝ) (n : ℕ) : Tracks path n ((List.range n).map (peakTo path)) := by
  refine ⟨by simp, ?_, fun t ht => ?_, fun t ht => ?_⟩
  · rw [List.forall_mem_map]
    exact fun t _ => peakTo_nonneg path t
  · rw [getD_map_range _ ht]
    exact le_peakTo le_rfl
  · rw [getD_map_range _ (Nat.lt_of_succ_lt ht), getD_map_range _ ht]
    exact peakTo_mono (Nat.le_succ t)

theorem covers_map_range_iff {f : ℕ → ℝ} {covers : List ℝ} {level : ℝ} :
    Covers ((List.range n).map f) level covers ↔ covers.length = n ∧ (∀ e ∈ covers, 0 ≤ e) ∧
      ∀ t < n, f t - level ≤ covers.getD t 0 := by
  constructor
  · rintro ⟨hlength, hnonneg, habove⟩
    exact ⟨by simpa using hlength, hnonneg, fun t ht => habove t _ (by simp [ht])⟩
  · rintro ⟨hlength, hnonneg, habove⟩
    refine ⟨by simpa using hlength, hnonneg, fun t x hx => ?_⟩
    rw [List.getElem?_map, Option.map_eq_some_iff] at hx
    obtain ⟨s, hs, rfl⟩ := hx
    obtain ⟨ht, rfl⟩ := List.getElem?_eq_some_iff.mp hs
    rw [List.getElem_range]
    exact habove t (by simpa using ht)

end Peaks

/-! ## The program at fixed weights -/

section Program

variable {assets : ℕ} {rows : List (List ℝ)} {w covers peaks : List ℝ} {level alpha : ℝ}

theorem length_summedTo (hwidth : ∀ r ∈ rows, r.length = assets) (t : ℕ) :
    (summedTo assets rows t).length = assets := by
  have hsum : ∀ (rs : List (List ℝ)) (total : List ℝ), (∀ r ∈ rs, r.length = assets) →
      total.length = assets → (rs.foldl (List.zipWith (· + ·)) total).length = assets := by
    intro rs
    induction rs with
    | nil => exact fun total _ htotal => htotal
    | cons r rs ih =>
      intro total hrs htotal
      obtain ⟨hr, hrs⟩ := List.forall_mem_cons.mp hrs
      exact ih _ hrs (by rw [List.length_zipWith, htotal, hr, min_self])
  exact hsum _ _ (fun r hr => hwidth r (List.mem_of_mem_take hr)) (List.length_replicate)

theorem cumulativeRows_number (total : List ℝ) (rows : List (List ℝ)) :
    cumulativeRows (total.map number) (exactRows rows) = (List.range rows.length).map fun t =>
      ((rows.take (t + 1)).foldl (List.zipWith (· + ·)) total).map number := by
  induction rows generalizing total with
  | nil => rfl
  | cons r rest ih =>
    have hnext : Scalar.addVec (total.map number) (r.map number) =
        (List.zipWith (· + ·) total r).map number := by
      simp [Scalar.addVec, List.zipWith_map, List.map_zipWith]
    rw [exactRows, List.map_cons, cumulativeRows, hnext, List.length_cons, List.range_succ_eq_map,
      List.map_cons, List.map_map]
    exact congrArg _ (ih _)

theorem cumulativeRows_zeros (assets : ℕ) (rows : List (List ℝ)) :
    cumulativeRows (Scalar.zeros assets) (exactRows rows) =
      (List.range rows.length).map fun t => (summedTo assets rows t).map number := by
  have hzeros : (Scalar.zeros assets : List Exact) = (List.replicate assets (0 : ℝ)).map number := by
    simp [Scalar.zeros, zero_eq]
  rw [hzeros, cumulativeRows_number]
  rfl

theorem zipIdx_map_range {α : Type} (n : ℕ) (f : ℕ → α) :
    ((List.range n).map f).zipIdx = (List.range n).map fun t => (f t, t) := by
  refine List.ext_getElem (by simp) fun i _ _ => by simp

theorem dot_point {a b c : List ℝ} {k : ℝ} (ha : a.length = w.length) (hb : b.length = covers.length) :
    Scalar.dot ((a ++ k :: (b ++ c)).map number) ((w ++ level :: (covers ++ peaks)).map number) =
      number (realDot a w + (k * level + (realDot b covers + realDot c peaks))) := by
  rw [dot_number, realDot_append ha, realDot_cons, realDot_append hb]

theorem objective_drawdownProgram (hshare : tailShareOf rows alpha ≠ 0) :
    (drawdownProgram assets (exactRows rows) (number alpha)).objective =
      (List.replicate assets 0 ++ 1 :: (List.replicate rows.length (1 / tailShareOf rows alpha) ++
        List.replicate rows.length 0)).map number := by
  simp [drawdownProgram, exactRows, tailShare_number hshare, Scalar.zeros, zero_eq, one_eq]

theorem value_drawdownProgram (hlength : w.length = assets) (hcovers : covers.length = rows.length)
    (hpeaks : peaks.length = rows.length) (hshare : tailShareOf rows alpha ≠ 0) (level : ℝ) :
    (drawdownProgram assets (exactRows rows) (number alpha)).value
        ((w ++ level :: (covers ++ peaks)).map number) =
      number (level + covers.sum / tailShareOf rows alpha) := by
  rw [LinearProgram.value, objective_drawdownProgram hshare,
    dot_point (by simp [hlength]) (by simp [hcovers]),
    ← hlength, realDot_replicate, ← hcovers, realDot_replicate, hcovers, ← hpeaks, realDot_replicate]
  congr 1
  ring

/-- The rows of a program say of each period that the excess covers the distance of peak and path over the
level, and that the peak is neither below the path nor above the next peak. -/
theorem limits_drawdownProgram_iff (hwidth : ∀ r ∈ rows, r.length = assets) (hlength : w.length = assets)
    (hcovers : covers.length = rows.length) (hpeaks : peaks.length = rows.length) :
    (∀ row ∈ (drawdownProgram assets (exactRows rows) (number alpha)).limits,
        Scalar.dot row.1 ((w ++ level :: (covers ++ peaks)).map number) ≤ row.2) ↔
      (∀ t < rows.length, peaks.getD t 0 - pathTo rows w t - level ≤ covers.getD t 0) ∧
        (∀ t < rows.length, pathTo rows w t ≤ peaks.getD t 0) ∧
          ∀ t, t + 1 < rows.length → peaks.getD t 0 ≤ peaks.getD (t + 1) 0 := by
  have hsummed : ∀ t, (summedTo assets rows t).length = w.length := fun t =>
    (length_summedTo hwidth t).trans hlength.symm
  have hpath : ∀ t, realDot (summedTo assets rows t) w = pathTo rows w t := fun t => by rw [pathTo, hlength]
  have hunit : ∀ t, (Scalar.unit rows.length t : List Exact) = (indicator rows.length t).map number :=
    unit_eq_indicator _
  have hcover : ∀ t < rows.length, realDot (indicator rows.length t) covers = covers.getD t 0 := by
    intro t ht
    rw [← hcovers, realDot_indicator (hcovers ▸ ht)]
  have hpeak : ∀ t < rows.length, realDot (indicator rows.length t) peaks = peaks.getD t 0 := by
    intro t ht
    rw [← hpeaks, realDot_indicator (hpeaks ▸ ht)]
  have hexact : (exactRows rows).length = rows.length := List.length_map _
  simp only [drawdownProgram, cumulativeRows_zeros, zipIdx_map_range, hexact, List.forall_mem_append,
    List.forall_mem_map, List.mem_range, and_assoc]
  refine and_congr ?_ (and_congr ?_ ?_)
  · refine forall₂_congr fun t ht => ?_
    have hrow : ((summedTo assets rows t).map number).map (- ·) ++ [-1] ++
        (Scalar.unit rows.length t).map (- ·) ++ Scalar.unit rows.length t =
          ((summedTo assets rows t).map (- ·) ++ -1 :: ((indicator rows.length t).map (- ·) ++
            indicator rows.length t)).map number := by
      simp [hunit, one_eq, Function.comp_def]
    rw [hrow, dot_point (by simp [hsummed]) (by simp [indicator, hcovers]), realDot_neg, realDot_neg, hpath,
      hcover t ht, hpeak t ht, zero_eq, number_le]
    constructor <;> intro h <;> linarith
  · refine forall₂_congr fun t ht => ?_
    have hrow : (summedTo assets rows t).map number ++ [0] ++ Scalar.zeros rows.length ++
        (Scalar.unit rows.length t).map (- ·) =
          ((summedTo assets rows t) ++ 0 :: (List.replicate covers.length 0 ++
            (indicator rows.length t).map (- ·))).map number := by
      simp [hunit, hcovers, Scalar.zeros, zero_eq, Function.comp_def]
    rw [hrow, dot_point (hsummed t) (by simp), realDot_neg, realDot_replicate, hpath, hpeak t ht, zero_eq,
      number_le]
    constructor <;> intro h <;> linarith
  · refine forall_congr' fun t => ?_
    have hrow : Scalar.zeros (assets + 1 + rows.length) ++
        Scalar.subVec (Scalar.unit rows.length t) (Scalar.unit rows.length (t + 1)) =
          (List.replicate w.length 0 ++ 0 :: (List.replicate covers.length 0 ++
            List.zipWith (· - ·) (indicator rows.length t) (indicator rows.length (t + 1)))).map number := by
      simp [hunit, hcovers, hlength, Scalar.zeros, Scalar.subVec, zero_eq, List.replicate_add,
        List.zipWith_map, List.map_zipWith]
    rw [Nat.lt_sub_iff_add_lt]
    refine imp_congr_right fun ht => ?_
    rw [hrow, dot_point (by simp) (by simp), realDot_replicate, realDot_replicate,
      realDot_sub (by simp [indicator]), hpeak t (Nat.lt_of_succ_lt ht), hpeak (t + 1) ht, zero_eq, number_le]
    constructor <;> intro h <;> linarith

theorem equations_drawdownProgram_iff (hlength : w.length = assets) (hcovers : covers.length = rows.length)
    (hpeaks : peaks.length = rows.length) :
    (∀ row ∈ (drawdownProgram assets (exactRows rows) (number alpha)).equations,
        Scalar.dot row.1 ((w ++ level :: (covers ++ peaks)).map number) = row.2) ↔ w.sum = 1 := by
  have hrow : Scalar.ones assets ++ Scalar.zeros (1 + 2 * (exactRows rows).length) =
      (List.replicate w.length (1 : ℝ) ++ (0 : ℝ) :: (List.replicate covers.length (0 : ℝ) ++
        List.replicate peaks.length (0 : ℝ))).map number := by
    have hcount : 1 + 2 * rows.length = rows.length + rows.length + 1 := by omega
    simp [Scalar.ones, Scalar.zeros, exactRows, hlength, hcovers, hpeaks, zero_eq, one_eq, hcount,
      List.replicate_succ]
  simp only [drawdownProgram, List.mem_singleton, forall_eq, hrow]
  rw [dot_point (by simp) (by simp), realDot_replicate, realDot_replicate, realDot_replicate, one_eq]
  simp

theorem ranges_drawdownProgram_iff (hlength : w.length = assets) (hcovers : covers.length = rows.length)
    (hpeaks : peaks.length = rows.length) :
    (∀ entry ∈ (drawdownProgram assets (exactRows rows) (number alpha)).ranges.zip
        ((w ++ level :: (covers ++ peaks)).map number), entry.1.Holds entry.2) ↔
      (∀ x ∈ w, 0 ≤ x ∧ x ≤ 1) ∧ (∀ e ∈ covers, 0 ≤ e) ∧ ∀ u ∈ peaks, 0 ≤ u := by
  have hzip : (drawdownProgram assets (exactRows rows) (number alpha)).ranges.zip
      ((w ++ level :: (covers ++ peaks)).map number) = w.map (fun x => (Range.share, number x)) ++
        (Range.free, number level) :: (covers ++ peaks).map (fun e => (Range.nonnegative, number e)) := by
    have hranges : (drawdownProgram assets (exactRows rows) (number alpha)).ranges =
        List.replicate w.length .share ++ .free :: List.replicate (covers ++ peaks).length .nonnegative := by
      simp [drawdownProgram, exactRows, hlength, hcovers, hpeaks, two_mul]
    rw [hranges, List.map_append, List.map_cons, List.zip_append (by simp), List.zip_cons_cons,
      replicate_zip_number, replicate_zip_number]
  rw [hzip, List.forall_mem_append, List.forall_mem_cons, List.forall_mem_map, List.forall_mem_map,
    List.forall_mem_append]
  simp

theorem length_ranges_drawdownProgram :
    (drawdownProgram assets (exactRows rows) (number alpha)).ranges.length =
      assets + (rows.length + rows.length + 1) := by
  simp [drawdownProgram, exactRows, two_mul]

/-- The feasible points are portfolios with peaks that track the path, and covers of the distance between
the two over a level. -/
theorem feasible_drawdownProgram_iff (hwidth : ∀ r ∈ rows, r.length = assets) (hlength : w.length = assets)
    (hcovers : covers.length = rows.length) (hpeaks : peaks.length = rows.length) :
    (drawdownProgram assets (exactRows rows) (number alpha)).Feasible
        ((w ++ level :: (covers ++ peaks)).map number) ↔
      IsPortfolio assets w ∧ Tracks (pathTo rows w) rows.length peaks ∧
        Covers ((List.range rows.length).map fun t => peaks.getD t 0 - pathTo rows w t) level covers := by
  rw [covers_map_range_iff]
  constructor
  · rintro ⟨_, hlimits, hequations, hranges⟩
    obtain ⟨hcover, hpath, hrising⟩ := (limits_drawdownProgram_iff hwidth hlength hcovers hpeaks).mp hlimits
    have hsum := (equations_drawdownProgram_iff hlength hcovers hpeaks).mp hequations
    obtain ⟨hw, hnonneg, hpeak⟩ := (ranges_drawdownProgram_iff hlength hcovers hpeaks).mp hranges
    exact ⟨⟨hlength, fun x hx => (hw x hx).1, hsum⟩, ⟨hpeaks, hpeak, hpath, hrising⟩,
      hcovers, hnonneg, hcover⟩
  · rintro ⟨hw, htracks, _, hnonneg, hcover⟩
    refine ⟨?_, (limits_drawdownProgram_iff hwidth hlength hcovers hpeaks).mpr
        ⟨hcover, htracks.above, htracks.rising⟩,
      (equations_drawdownProgram_iff hlength hcovers hpeaks).mpr hw.sum,
      (ranges_drawdownProgram_iff hlength hcovers hpeaks).mpr
        ⟨fun x hx => ⟨hw.nonneg x hx, hw.le_one x hx⟩, hnonneg, htracks.nonneg⟩⟩
    rw [length_ranges_drawdownProgram]
    simp [hlength, hcovers, hpeaks]

/-- What the program can make of fixed weights. -/
def attainableDrawdown (assets : ℕ) (rows : List (List ℝ)) (w : List ℝ) (alpha : ℝ) : Set ℝ :=
  {v | ∃ (level : ℝ) (covers peaks : List ℝ), covers.length = rows.length ∧ peaks.length = rows.length ∧
    (drawdownProgram assets (exactRows rows) (number alpha)).Feasible
        ((w ++ level :: (covers ++ peaks)).map number) ∧
      (drawdownProgram assets (exactRows rows) (number alpha)).value
        ((w ++ level :: (covers ++ peaks)).map number) = number v}

/-- The least value of the program at fixed weights is the fractional mean of the largest drawdowns. -/
theorem isLeast_attainableDrawdown (hrows : rows ≠ []) (hwidth : ∀ r ∈ rows, r.length = assets)
    (hw : IsPortfolio assets w) (habove : 0 < alpha) (hbelow : alpha < 1) :
    IsLeast (attainableDrawdown assets rows w alpha)
      (worstTotal (tailShareOf rows alpha) (pathDrawdowns rows w) / tailShareOf rows alpha) := by
  have hshare := tailShareOf_pos hrows hbelow
  have hcount : (pathDrawdowns rows w).length = rows.length := by simp [pathDrawdowns]
  have hlt : tailShareOf rows alpha < (pathDrawdowns rows w).length := by
    rw [hcount, ← length_losses rows w]
    exact tailShareOf_lt hrows habove w
  obtain ⟨⟨level, covers, hcover, hvalue⟩, hleast⟩ := isLeast_covers hshare hlt
  constructor
  · have hcovers : covers.length = rows.length := hcover.length.trans hcount
    have htracks := tracks_peakTo (pathTo rows w) rows.length
    refine ⟨level, covers, _, hcovers, htracks.length,
      (feasible_drawdownProgram_iff hwidth hw.length hcovers htracks.length).mpr ⟨hw, htracks, ?_⟩, ?_⟩
    · obtain ⟨_, hnonneg, hexcess⟩ := covers_map_range_iff.mp hcover
      refine covers_map_range_iff.mpr ⟨hcovers, hnonneg, fun t ht => ?_⟩
      rw [getD_map_range _ ht]
      exact hexcess t ht
    · rw [value_drawdownProgram hw.length hcovers htracks.length hshare.ne', hvalue]
  · rintro v ⟨level, covers, peaks, hcovers, hpeaks, hfeasible, hvalue⟩
    obtain ⟨_, htracks, hcover⟩ :=
      (feasible_drawdownProgram_iff hwidth hw.length hcovers hpeaks).mp hfeasible
    rw [value_drawdownProgram hw.length hcovers hpeaks hshare.ne', number.injEq] at hvalue
    obtain ⟨_, hnonneg, hexcess⟩ := covers_map_range_iff.mp hcover
    -- peaks that are higher than they have to be only raise the excess
    refine hleast ⟨level, covers, covers_map_range_iff.mpr ⟨hcovers, hnonneg, fun t ht => ?_⟩, hvalue.symm⟩
    have hpeak := htracks.peakTo_le ht
    have hcover := hexcess t ht
    linarith

/-! ## Optima of the program -/

theorem exists_parts_of_feasible_drawdown {x : List ℝ}
    (h : (drawdownProgram assets (exactRows rows) (number alpha)).Feasible (x.map number)) :
    ∃ w level covers peaks, x = w ++ level :: (covers ++ peaks) ∧ w.length = assets ∧
      covers.length = rows.length ∧ peaks.length = rows.length := by
  have hlength := h.length
  rw [length_ranges_drawdownProgram, List.length_map] at hlength
  have hrest : x.drop assets ≠ [] := by
    rw [← List.length_pos_iff, List.length_drop]
    omega
  obtain ⟨level, rest, hparts⟩ := List.exists_cons_of_ne_nil hrest
  have hcount : rest.length = rows.length + rows.length := by
    have hdrop := congrArg List.length hparts
    rw [List.length_drop, List.length_cons] at hdrop
    omega
  refine ⟨x.take assets, level, rest.take rows.length, rest.drop rows.length, ?_, ?_, ?_, ?_⟩
  · rw [List.take_append_drop, ← hparts, List.take_append_drop]
  · rw [List.length_take]
    omega
  · rw [List.length_take]
    omega
  · rw [List.length_drop]
    omega

/-- All values from weights of the right number have a level and peaks. -/
theorem valuesFrom_drawdownProgram (hlength : w.length = assets) :
    (drawdownProgram assets (exactRows rows) (number alpha)).valuesFrom w =
      attainableDrawdown assets rows w alpha := by
  ext v
  constructor
  · rintro ⟨rest, hfeasible, hvalue⟩
    obtain ⟨w', level, covers, peaks, hparts, hlength', hcovers, hpeaks⟩ :=
      exists_parts_of_feasible_drawdown hfeasible
    obtain ⟨rfl, rfl⟩ := List.append_inj hparts (hlength.trans hlength'.symm)
    exact ⟨level, covers, peaks, hcovers, hpeaks, hfeasible, hvalue⟩
  · rintro ⟨level, covers, peaks, _, _, hfeasible, hvalue⟩
    exact ⟨level :: (covers ++ peaks), hfeasible, hvalue⟩

/-- The program uses the true running peak. At the weights of any portfolio its least value is the mean of
the largest drawdowns over the share of the tail, where the drawdown behind the whole part of the share
counts in part; a single period, which has no row for rising peaks, is no exception. So the optima of the
program begin with the portfolios for which this mean is least. -/
theorem drawdown_program_least_fractional_mean (hrows : rows ≠ []) (hwidth : ∀ r ∈ rows, r.length = assets)
    (habove : 0 < alpha) (hbelow : alpha < 1) :
    (∀ w, IsPortfolio assets w → IsLeast (attainableDrawdown assets rows w alpha)
      (worstTotal (tailShareOf rows alpha) (pathDrawdowns rows w) / tailShareOf rows alpha)) ∧
    ∀ w, (∃ x, (drawdownProgram assets (exactRows rows) (number alpha)).IsOptimum x ∧ x.take assets = w) ↔
      IsPortfolio assets w ∧ ∀ w', IsPortfolio assets w' →
        worstTotal (tailShareOf rows alpha) (pathDrawdowns rows w) / tailShareOf rows alpha ≤
          worstTotal (tailShareOf rows alpha) (pathDrawdowns rows w') / tailShareOf rows alpha := by
  have hleast : ∀ w, IsPortfolio assets w → IsLeast (attainableDrawdown assets rows w alpha)
      (worstTotal (tailShareOf rows alpha) (pathDrawdowns rows w) / tailShareOf rows alpha) :=
    fun w hw => isLeast_attainableDrawdown hrows hwidth hw habove hbelow
  refine ⟨hleast, LinearProgram.exists_isOptimum_iff
    (objective_drawdownProgram (tailShareOf_pos hrows hbelow).ne') (fun x hx => ?_) (fun w hw => hw.length)
    (fun w hw => ?_)⟩
  · obtain ⟨own, level, covers, peaks, rfl, hlength, hcovers, hpeaks⟩ := exists_parts_of_feasible_drawdown hx
    rw [← hlength, List.take_left, hlength]
    exact ((feasible_drawdownProgram_iff hwidth hlength hcovers hpeaks).mp hx).1
  · rw [valuesFrom_drawdownProgram hw.length]
    exact hleast w hw

/-- Two assets over two periods, of which one and a half count: the path falls back to where it started. -/
theorem drawdown_program_least_fractional_mean_two_assets :
    let rows : List (List ℝ) := [[1 / 10, 0], [-1 / 5, 1 / 10]]
    IsPortfolio 2 [1 / 2, 1 / 2] ∧ IsLeast (attainableDrawdown 2 rows [1 / 2, 1 / 2] (1 / 4)) (1 / 30) := by
  intro rows
  have hw : IsPortfolio 2 [1 / 2, 1 / 2] := ⟨rfl, by norm_num, by norm_num⟩
  have hrows : rows ≠ [] := by simp [rows]
  have hwidth : ∀ r ∈ rows, r.length = 2 := by simp [rows]
  have hshare : tailShareOf rows (1 / 4) = 3 / 2 := by norm_num [tailShareOf, rows]
  have hfloor : ⌊(3 / 2 : ℝ)⌋₊ = 1 := by norm_num [Nat.floor_eq_iff]
  have hfract : Int.fract (3 / 2 : ℝ) = 1 / 2 := by norm_num [Int.fract_eq_iff]
  have hfirst : pathTo rows [1 / 2, 1 / 2] 0 = 1 / 20 := by
    norm_num [pathTo, summedTo, realDot, rows, List.replicate_succ]
  have hlast : pathTo rows [1 / 2, 1 / 2] 1 = 0 := by
    norm_num [pathTo, summedTo, realDot, rows, List.replicate_succ]
  have hpeak : peakTo (pathTo rows [1 / 2, 1 / 2]) 0 = 1 / 20 := by
    rw [peakTo_zero, hfirst]
    norm_num
  have hkept : peakTo (pathTo rows [1 / 2, 1 / 2]) 1 = 1 / 20 := by
    rw [peakTo_succ, hpeak, hlast]
    norm_num
  have hdrawdowns : pathDrawdowns rows [1 / 2, 1 / 2] = [0, 1 / 20] := by
    have hrange : List.range rows.length = [0, 1] := rfl
    rw [pathDrawdowns, hrange, List.map_cons, List.map_cons, List.map_nil, hpeak, hkept, hfirst, hlast]
    norm_num
  have hsorted : largestFirst [0, 1 / 20] = [1 / 20, 0] :=
    largestFirst_eq_of_perm (.swap _ _ _) (List.pairwise_pair.mpr (by norm_num))
  have hmean : worstTotal (3 / 2) [0, 1 / 20] / (3 / 2) = 1 / 30 := by
    rw [worstTotal, hsorted, hfloor, hfract]
    norm_num
  have hleast := (drawdown_program_least_fractional_mean hrows hwidth
    (by norm_num : (0 : ℝ) < 1 / 4) (by norm_num)).1 _ hw
  rw [hshare, hdrawdowns, hmean] at hleast
  exact ⟨hw, hleast⟩

end Program
end PortfolioLab
