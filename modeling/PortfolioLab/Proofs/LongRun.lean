import Mathlib.Order.Bounds.Basic
import PortfolioLab.Proofs.Continuation

/-!
# The long-run variance

The long-run variance of an equation is the one that the equation keeps. A variance that follows windows with
entries within some distance of it is closer by the persistence, the sum of the weights. As soon as a projection
is as long as the lags reach, its windows hold projected variances only, so that each further span of this length
shrinks the distance once more.
-/

namespace PortfolioLab

namespace Exact

def Near (level d : ℝ) (x : Exact) : Prop := ∃ v, |v - level| ≤ d ∧ x = number v

theorem Near.mono {level c d : ℝ} {x : Exact} (hd : c ≤ d) (h : Near level c x) : Near level d x := by
  obtain ⟨v, hv, rfl⟩ := h
  exact ⟨v, hv.trans hd, rfl⟩

theorem near_number {level d v : ℝ} : Near level d (number v) ↔ |v - level| ≤ d :=
  ⟨fun ⟨_, hw, h⟩ => number.inj h ▸ hw, fun h => ⟨v, h, rfl⟩⟩

end Exact

open Exact

namespace VarianceEquation

def ofReals (constant : ℝ) (shockWeights varianceWeights : List ℝ) : VarianceEquation Exact :=
  ⟨number constant, shockWeights.map number, varianceWeights.map number⟩

/-- Adding the products of weights with entries near a level moves a total by the level times the sum of the
weights, up to their sum times the distance. -/
theorem addProducts_near {level d t r : ℝ} {total : Exact} {weights : List ℝ} {entries : List Exact}
    (htotal : Near t r total) (hweights : ∀ w ∈ weights, 0 ≤ w) (hlength : weights.length ≤ entries.length)
    (hentries : ∀ x ∈ entries, Near level d x) :
    Near (t + weights.sum * level) (r + weights.sum * d)
      (addProducts total (weights.map number) entries) := by
  induction weights generalizing t r total entries with
  | nil => simpa [addProducts] using htotal
  | cons w weights ih =>
    cases entries with
    | nil => exact absurd hlength (Nat.not_succ_le_zero _)
    | cons x entries =>
      obtain ⟨hw, hweights⟩ := List.forall_mem_cons.mp hweights
      obtain ⟨⟨v, hv, rfl⟩, hlater⟩ := List.forall_mem_cons.mp hentries
      obtain ⟨u, hu, rfl⟩ := htotal
      have hmoved : |u + w * v - (t + w * level)| ≤ r + w * d := by
        have hparts : u + w * v - (t + w * level) = (u - t) + w * (v - level) := by ring
        rw [hparts]
        refine (abs_add_le _ _).trans (add_le_add hu ?_)
        rw [abs_mul, abs_of_nonneg hw]
        exact mul_le_mul_of_nonneg_left hv hw
      have hrest := ih (near_number.mpr hmoved) hweights (Nat.le_of_succ_le_succ hlength) hlater
      rw [List.sum_cons, add_mul, add_mul, ← add_assoc, ← add_assoc]
      exact hrest

/-- Weights that are not negative, and the level that an equation with them keeps. -/
structure Settles (constant : ℝ) (shockWeights varianceWeights : List ℝ) (level phi : ℝ) : Prop where
  shockWeights_nonneg : ∀ w ∈ shockWeights, 0 ≤ w
  varianceWeights_nonneg : ∀ w ∈ varianceWeights, 0 ≤ w
  persistence : shockWeights.sum + varianceWeights.sum = phi
  le_one : phi ≤ 1
  level : constant + phi * level = level

section Settles

variable {constant level phi d : ℝ} {shockWeights varianceWeights : List ℝ} {shocks variances : List Exact}

theorem Settles.nonneg (h : Settles constant shockWeights varianceWeights level phi) : 0 ≤ phi := by
  rw [← h.persistence]
  exact add_nonneg (List.sum_nonneg h.shockWeights_nonneg) (List.sum_nonneg h.varianceWeights_nonneg)

/-- Windows that are as long as the weights, with entries near a level. -/
structure Within (shockWeights varianceWeights : List ℝ) (level d : ℝ) (shocks variances : List Exact) :
    Prop where
  shockLength : shocks.length = shockWeights.length
  varianceLength : variances.length = varianceWeights.length
  shocks : ∀ x ∈ shocks, Near level d x
  variances : ∀ x ∈ variances, Near level d x

theorem Within.slide (h : Within shockWeights varianceWeights level d shocks variances) {v : Exact}
    (hv : Near level d v) :
    Within shockWeights varianceWeights level d (slide shocks v) (slide variances v) where
  shockLength := (length_slide _ _).trans h.shockLength
  varianceLength := (length_slide _ _).trans h.varianceLength
  shocks := forall_mem_slide h.shocks hv
  variances := forall_mem_slide h.variances hv

/-- One period shrinks the distance from the level by the persistence. -/
theorem Settles.next (h : Settles constant shockWeights varianceWeights level phi)
    (hwindows : Within shockWeights varianceWeights level d shocks variances) :
    Near level (phi * d) ((ofReals constant shockWeights varianceWeights).next shocks variances) := by
  have hconstant : Near constant 0 (number constant) := near_number.mpr (by simp)
  have hshare := addProducts_near hconstant h.shockWeights_nonneg hwindows.shockLength.ge hwindows.shocks
  have htotal := addProducts_near hshare h.varianceWeights_nonneg hwindows.varianceLength.ge hwindows.variances
  have hlevel : constant + shockWeights.sum * level + varianceWeights.sum * level = level := by
    rw [add_assoc, ← add_mul, h.persistence, h.level]
  have hdistance : 0 + shockWeights.sum * d + varianceWeights.sum * d = phi * d := by
    rw [zero_add, ← add_mul, h.persistence]
  rwa [hlevel, hdistance] at htotal

/-- The windows never leave the distance at which they start, so every projected variance is closer. -/
theorem Settles.projectFrom (h : Settles constant shockWeights varianceWeights level phi) (hd : 0 ≤ d)
    (horizon : ℕ) (hwindows : Within shockWeights varianceWeights level d shocks variances) :
    ∀ v ∈ (ofReals constant shockWeights varianceWeights).projectFrom horizon shocks variances,
      Near level (phi * d) v := by
  induction horizon generalizing shocks variances with
  | zero => exact fun v hv => absurd hv List.not_mem_nil
  | succ horizon ih =>
    have hnext := h.next hwindows
    exact List.forall_mem_cons.mpr
      ⟨hnext, ih (hwindows.slide (hnext.mono (mul_le_of_le_one_left hd h.le_one)))⟩

/-- The windows behind a projection that is as long as the weights reach back. -/
theorem Settles.after (h : Settles constant shockWeights varianceWeights level phi) (hd : 0 ≤ d) {m : ℕ}
    (hshocks : shockWeights.length ≤ m) (hvariances : varianceWeights.length ≤ m)
    (hwindows : Within shockWeights varianceWeights level d shocks variances) :
    let path := (ofReals constant shockWeights varianceWeights).projectFrom m shocks variances
    Within shockWeights varianceWeights level (phi * d) (path.foldl PortfolioLab.slide shocks)
      (path.foldl PortfolioLab.slide variances) := by
  intro path
  have hpath : path.length = m := length_projectFrom _ _ _ _
  have hreplaced {window : List Exact} (hle : window.length ≤ m) :
      (path.foldl PortfolioLab.slide window).length = window.length ∧
        ∀ x ∈ path.foldl PortfolioLab.slide window, Near level (phi * d) x := by
    rw [foldl_slide_of_le (hle.trans hpath.ge)]
    refine ⟨by simp [hpath, hle], fun x hx => ?_⟩
    exact h.projectFrom hd m hwindows x (List.mem_reverse.mp (List.mem_of_mem_take hx))
  obtain ⟨hshockLength, hshockNear⟩ := hreplaced (hwindows.shockLength.trans_le hshocks)
  obtain ⟨hvarianceLength, hvarianceNear⟩ := hreplaced (hwindows.varianceLength.trans_le hvariances)
  exact ⟨hshockLength.trans hwindows.shockLength, hvarianceLength.trans hwindows.varianceLength, hshockNear,
    hvarianceNear⟩

/-- Every span that is as long as the weights reach back shrinks the distance once more. -/
theorem Settles.contracts (h : Settles constant shockWeights varianceWeights level phi) (hd : 0 ≤ d) {m : ℕ}
    (hm : 0 < m) (hshocks : shockWeights.length ≤ m) (hvariances : varianceWeights.length ≤ m)
    (hwindows : Within shockWeights varianceWeights level d shocks variances) (horizon k : ℕ) {v : Exact}
    (hv : ((ofReals constant shockWeights varianceWeights).projectFrom horizon shocks variances)[k]? = some v) :
    Near level (phi ^ (1 + k / m) * d) v := by
  induction k using Nat.strong_induction_on generalizing d horizon shocks variances with
  | _ k ih =>
    by_cases hfirst : k < m
    · rw [Nat.div_eq_of_lt hfirst, pow_one]
      exact h.projectFrom hd horizon hwindows v (List.mem_of_getElem? hv)
    · have hreached : m ≤ k := not_lt.mp hfirst
      have hinside : k < horizon := by
        have := (List.getElem?_eq_some_iff.mp hv).1
        rwa [length_projectFrom] at this
      obtain ⟨rest, rfl⟩ := Nat.exists_eq_add_of_le (hreached.trans hinside.le)
      have hlength := length_projectFrom (ofReals constant shockWeights varianceWeights) m shocks variances
      rw [projectFrom_add, List.getElem?_append_right (by rwa [hlength]), hlength] at hv
      have hnear := ih (k - m) (by omega) (mul_nonneg h.nonneg hd)
        (h.after hd hshocks hvariances hwindows) rest hv
      have hspans : phi ^ (1 + (k - m) / m) * (phi * d) = phi ^ (1 + k / m) * d := by
        rw [Nat.div_eq_sub_div hm hreached]
        ring
      rwa [hspans] at hnear

/-- From windows of one and the same number, an equation of one lag each way shrinks the distance by the
persistence in every period. -/
theorem Settles.projectFrom_one_lag {shockWeight varianceWeight : ℝ}
    (h : Settles constant [shockWeight] [varianceWeight] level phi) (horizon : ℕ) (x : ℝ) :
    (ofReals constant [shockWeight] [varianceWeight]).projectFrom horizon [number x] [number x] =
      (List.range horizon).map fun k => number (level + phi ^ (k + 1) * (x - level)) := by
  induction horizon generalizing x with
  | zero => rfl
  | succ horizon ih =>
    have hvalue : constant + shockWeight * x + varianceWeight * x = level + phi * (x - level) := by
      have hphi : shockWeight + varianceWeight = phi := by simpa using h.persistence
      rw [← hphi]
      have hlevel := h.level
      rw [← hphi] at hlevel
      linear_combination hlevel
    have hnext : (ofReals constant [shockWeight] [varianceWeight]).next [number x] [number x] =
        number (level + phi * (x - level)) := congrArg number hvalue
    rw [VarianceEquation.projectFrom, hnext, List.range_succ_eq_map, List.map_cons, List.map_map, zero_add,
      pow_one]
    refine congrArg _ ((ih _).trans (List.map_congr_left fun k _ => congrArg number ?_))
    simp only [Nat.succ_eq_add_one]
    ring

/-- After its first period the windows of such an equation hold one and the same variance. -/
theorem Settles.geometric {shockWeight varianceWeight shock variance first v : ℝ} {path : List ℝ} {horizon k : ℕ}
    (h : Settles constant [shockWeight] [varianceWeight] level phi)
    (hpath : (ofReals constant [shockWeight] [varianceWeight]).projectFrom horizon [number shock]
      [number variance] = path.map number)
    (hfirst : path.head? = some first) (hv : path[k]? = some v) : v - level = phi ^ k * (first - level) := by
  obtain ⟨rest, rfl⟩ := List.head?_eq_some_iff.mp hfirst
  cases horizon with
  | zero => exact absurd hpath.symm (List.cons_ne_nil _ _)
  | succ horizon =>
    obtain ⟨hnext, hrest⟩ := List.cons.inj hpath
    rw [hnext] at hrest
    replace hrest := (h.projectFrom_one_lag horizon first).symm.trans hrest
    cases k with
    | zero =>
      obtain rfl : first = v := Option.some.inj hv
      rw [pow_zero, one_mul]
    | succ k =>
      have hentry : (rest.map number)[k]? = some (number v) := by
        rw [List.getElem?_map, show rest[k]? = some v from hv, Option.map_some]
      have hinside : k < horizon := by
        have := (List.getElem?_eq_some_iff.mp hentry).1
        rwa [← hrest, List.length_map, List.length_range] at this
      rw [← hrest, List.getElem?_map, List.getElem?_range hinside, Option.map_some, Option.some.injEq,
        number.injEq] at hentry
      rw [← hentry, add_sub_cancel_left]

end Settles

/-! ## Projections of real series -/

section Projection

variable {constant : ℝ} {shockWeights varianceWeights shocks variances : List ℝ} {p q : ℕ}

/-- Real parameters are those of an equation, and a projection from series that are long enough starts from
their latest entries. -/
theorem projectedVariances_ofReals (constant : ℝ) (hp : shockWeights.length = p) (hq : varianceWeights.length = q)
    (hshocks : p ≤ shocks.length) (hvariances : q ≤ variances.length) (horizon : ℕ) :
    projectedVariances p q ((constant :: (shockWeights ++ varianceWeights)).map number) (shocks.map number)
        (variances.map number) horizon =
      .ok ((ofReals constant shockWeights varianceWeights).projectFrom horizon
        ((latest p shocks).map number) ((latest q variances).map number)) := by
  have hparameters : ofParameters p q ((constant :: (shockWeights ++ varianceWeights)).map number) =
      .ok (ofReals constant shockWeights varianceWeights) := by
    subst hp hq
    simp [ofParameters, ofReals]
  have hlatest (n : ℕ) (series : List ℝ) : latest n (series.map number) = (latest n series).map number := by
    rw [latest, latest, ← List.map_reverse, ← List.map_take]
  have hshockCount : (ofReals constant shockWeights varianceWeights).shockWeights.length = p := by
    rw [← hp]
    exact List.length_map _
  have hvarianceCount : (ofReals constant shockWeights varianceWeights).varianceWeights.length = q := by
    rw [← hq]
    exact List.length_map _
  rw [projectedVariances_eq_ok _ hparameters hshockCount hvarianceCount (by simpa using hshocks)
    (by simpa using hvariances), project, hshockCount, hvarianceCount, hlatest, hlatest]

/-- Every projected variance is a real number. -/
theorem exists_path_of_near {level : ℝ} {d : ℕ → ℝ} {path : List Exact}
    (h : ∀ k v, path[k]? = some v → Near level (d k) v) :
    ∃ values : List ℝ, path = values.map number ∧ ∀ k v, values[k]? = some v → |v - level| ≤ d k := by
  have hreal : ∀ v ∈ path, ∃ y, v = number y := by
    intro v hv
    obtain ⟨k, hk⟩ := List.mem_iff_getElem?.mp hv
    obtain ⟨y, -, rfl⟩ := h k v hk
    exact ⟨y, rfl⟩
  obtain ⟨values, rfl⟩ := exists_number_of_forall_mem hreal
  refine ⟨values, rfl, fun k v hv => near_number.mp (h k _ ?_)⟩
  rw [List.getElem?_map, hv, Option.map_some]

/-- Weights that sum below one keep the constant over what they lack of one. -/
theorem settles_longRun (constant : ℝ) (hshockWeights : ∀ w ∈ shockWeights, 0 ≤ w)
    (hvarianceWeights : ∀ w ∈ varianceWeights, 0 ≤ w) (h : shockWeights.sum + varianceWeights.sum < 1) :
    Settles constant shockWeights varianceWeights (constant / (1 - (shockWeights.sum + varianceWeights.sum)))
      (shockWeights.sum + varianceWeights.sum) := by
  refine ⟨hshockWeights, hvarianceWeights, rfl, h.le, ?_⟩
  have hrest : 1 - (shockWeights.sum + varianceWeights.sum) ≠ 0 := (sub_pos.mpr h).ne'
  field_simp
  ring

theorem length_latest {n : ℕ} {series : List ℝ} (h : n ≤ series.length) : (latest n series).length = n := by
  rw [latest, List.length_take, List.length_reverse, min_eq_left h]

/-- One of some numbers is farthest from a level. -/
theorem exists_farthest {xs : List ℝ} (h : xs ≠ []) (level : ℝ) :
    ∃ farthest, IsGreatest {d | ∃ x ∈ xs, |x - level| = d} farthest := by
  obtain ⟨x, hx, hfarthest⟩ := Set.exists_max_image {x | x ∈ xs} (fun x => |x - level|) (List.finite_toSet _)
    (List.exists_mem_of_ne_nil _ h)
  refine ⟨|x - level|, ⟨x, hx, rfl⟩, ?_⟩
  rintro d ⟨y, hy, rfl⟩
  exact hfarthest y hy

/-- Projected variances contract to the long-run variance of the equation, whatever its constant is. With as
many periods in a span as the longer lag reaches back, the first span is closer to the long-run variance than
the farthest of the entries from which the projection starts, by the persistence, and each further span by the
persistence once more. With one lag each way every period is closer by exactly the persistence. -/
theorem projection_contracts_to_long_run (hp : shockWeights.length = p) (hq : varianceWeights.length = q)
    (hlags : 1 ≤ p) (hshockWeights : ∀ w ∈ shockWeights, 0 ≤ w) (hvarianceWeights : ∀ w ∈ varianceWeights, 0 ≤ w)
    (hpersistence : shockWeights.sum + varianceWeights.sum < 1) (hshocks : max p q ≤ shocks.length)
    (hvariances : max p q ≤ variances.length) (horizon : ℕ) :
    let phi := shockWeights.sum + varianceWeights.sum
    let longRun := constant / (1 - phi)
    ∃ (path : List ℝ) (farthest : ℝ),
      projectedVariances p q ((constant :: (shockWeights ++ varianceWeights)).map number) (shocks.map number)
        (variances.map number) horizon = .ok (path.map number) ∧ path.length = horizon ∧
      IsGreatest {d | ∃ x ∈ latest p shocks ++ latest q variances, |x - longRun| = d} farthest ∧
      (∀ k v, path[k]? = some v → |v - longRun| ≤ phi ^ (1 + k / max p q) * farthest) ∧
      (p = 1 → q = 1 → ∀ first, path.head? = some first →
        ∀ k v, path[k]? = some v → v - longRun = phi ^ k * (first - longRun)) := by
  intro phi longRun
  have hsettles := settles_longRun constant hshockWeights hvarianceWeights hpersistence
  have hshockWindow := length_latest ((le_max_left p q).trans hshocks)
  have hvarianceWindow := length_latest ((le_max_right p q).trans hvariances)
  have hne : latest p shocks ++ latest q variances ≠ [] := by
    rw [← List.length_pos_iff, List.length_append]
    omega
  obtain ⟨farthest, hgreatest⟩ := exists_farthest hne longRun
  have hnear {window : List ℝ} (hwindow : ∀ y ∈ window, y ∈ latest p shocks ++ latest q variances) :
      ∀ y ∈ window.map number, Near longRun farthest y := by
    intro y hy
    obtain ⟨z, hz, rfl⟩ := List.mem_map.mp hy
    exact near_number.mpr (hgreatest.2 ⟨z, hwindow z hz, rfl⟩)
  have hdistance : 0 ≤ farthest := by
    obtain ⟨x, -, rfl⟩ := hgreatest.1
    exact abs_nonneg _
  have hwindows : Within shockWeights varianceWeights longRun farthest ((latest p shocks).map number)
      ((latest q variances).map number) := by
    refine ⟨?_, ?_, hnear fun _ hy => List.mem_append_left _ hy, hnear fun _ hy => List.mem_append_right _ hy⟩
    · rw [List.length_map, hshockWindow, hp]
    · rw [List.length_map, hvarianceWindow, hq]
  have hprojected := projectedVariances_ofReals constant hp hq ((le_max_left p q).trans hshocks)
    ((le_max_right p q).trans hvariances) horizon
  obtain ⟨path, hpath, hcontracts⟩ := exists_path_of_near fun k v =>
    hsettles.contracts hdistance (hlags.trans (le_max_left p q)) (hp.trans_le (le_max_left p q))
      (hq.trans_le (le_max_right p q)) hwindows horizon k
  have hlength : path.length = horizon := by
    rw [← List.length_map (f := number), ← hpath, length_projectFrom]
  refine ⟨path, farthest, hprojected.trans (congrArg _ hpath), hlength, hgreatest, hcontracts, ?_⟩
  rintro rfl rfl first hfirst k v hv
  obtain ⟨shockWeight, rfl⟩ := List.length_eq_one_iff.mp hp
  obtain ⟨varianceWeight, rfl⟩ := List.length_eq_one_iff.mp hq
  obtain ⟨shock, hshock⟩ := List.length_eq_one_iff.mp hshockWindow
  obtain ⟨variance, hvariance⟩ := List.length_eq_one_iff.mp hvarianceWindow
  rw [hshock, hvariance] at hpath
  exact hsettles.geometric hpath hfirst hv

/-- Two shock weights and one variance weight, with the long-run variance four: the third period is in the second
span. With one weight each, three quarters in all, the third period is closer by their square. -/
theorem projection_contracts_to_long_run_three_periods :
    (projectedVariances 2 1 ([1, 1 / 4, 1 / 4, 1 / 4].map number) ([4, 8].map number) ([4, 8].map number) 3 =
        .ok ([6, 6, 11 / 2].map number) ∧
      IsGreatest {d : ℝ | ∃ x ∈ [8, 4] ++ [8], |x - 4| = d} 4 ∧ |(11 / 2 : ℝ) - 4| ≤ (3 / 4) ^ 2 * 4) ∧
    projectedVariances 1 1 ([1, 1 / 2, 1 / 4].map number) ([8].map number) ([4].map number) 3 =
        .ok ([6, 11 / 2, 41 / 8].map number) ∧
      (41 / 8 : ℝ) - 4 = (3 / 4) ^ 2 * (6 - 4) := by
  have htwo : projectedVariances 2 1 ([1, 1 / 4, 1 / 4, 1 / 4].map number) ([4, 8].map number)
      ([4, 8].map number) 3 = .ok ([6, 6, 11 / 2].map number) := by
    norm_num [projectedVariances, ofParameters, checkWeights, project, VarianceEquation.projectFrom, latest,
      next, addProducts, PortfolioLab.slide, bind, Except.bind, pure, Except.pure]
  have hone : projectedVariances 1 1 ([1, 1 / 2, 1 / 4].map number) ([8].map number) ([4].map number) 3 =
      .ok ([6, 11 / 2, 41 / 8].map number) := by
    norm_num [projectedVariances, ofParameters, checkWeights, project, VarianceEquation.projectFrom, latest,
      next, addProducts, PortfolioLab.slide, bind, Except.bind, pure, Except.pure]
  have hinjective := List.map_injective_iff.mpr fun (a b : ℝ) (h : number a = number b) => number.inj h
  have hlevel : (1 : ℝ) / (1 - 3 / 4) = 4 := by norm_num
  refine ⟨⟨htwo, ?_⟩, hone, ?_⟩
  · have hphi : ([1 / 4, 1 / 4] : List ℝ).sum + [1 / 4].sum = 3 / 4 := by norm_num
    obtain ⟨path, farthest, hpath, -, hgreatest, hbound, -⟩ := @projection_contracts_to_long_run 1
      [1 / 4, 1 / 4] [1 / 4] [4, 8] [4, 8] 2 1 rfl rfl (by decide) (by norm_num) (by norm_num) (by norm_num)
      (by decide) (by decide) 3
    rw [hphi, hlevel] at hgreatest hbound
    obtain rfl : [6, 6, 11 / 2] = path := hinjective (Except.ok.inj (htwo.symm.trans hpath))
    have hfour : IsGreatest {d : ℝ | ∃ x ∈ [8, 4] ++ [8], |x - 4| = d} 4 := by
      refine ⟨⟨8, by simp, by norm_num⟩, ?_⟩
      rintro d ⟨x, hx, rfl⟩
      have hcases : x = 8 ∨ x = 4 ∨ x = 8 := by simpa using hx
      rcases hcases with rfl | rfl | rfl <;> norm_num
    obtain rfl : farthest = 4 := hgreatest.unique hfour
    exact ⟨hfour, hbound 2 (11 / 2) rfl⟩
  · have hphi : ([1 / 2] : List ℝ).sum + [1 / 4].sum = 3 / 4 := by norm_num
    obtain ⟨path, farthest, hpath, -, -, -, hgeometric⟩ := @projection_contracts_to_long_run 1 [1 / 2] [1 / 4] [8]
      [4] 1 1 rfl rfl (by decide) (by norm_num) (by norm_num) (by norm_num) (by decide) (by decide) 3
    rw [hphi, hlevel] at hgeometric
    obtain rfl : [6, 11 / 2, 41 / 8] = path := hinjective (Except.ok.inj (hone.symm.trans hpath))
    exact hgeometric rfl rfl 6 rfl 2 (41 / 8) rfl

end Projection

end VarianceEquation
end PortfolioLab
