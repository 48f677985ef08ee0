import PortfolioLab.Program.Constraints
import PortfolioLab.Proofs.ExactNumbers

/-!
# Linear programs over exact numbers

Feasible points and optima, and the scalar products of real vectors that the rows of a program are read as.
-/

namespace PortfolioLab

/-! ## Feasible points -/

section Feasible

variable {α : Type} [Scalar α]

def Range.Holds (range : Range α) (x : α) : Prop :=
  (∀ l, range.lower = some l → l ≤ x) ∧ ∀ u, range.upper = some u → x ≤ u

structure Constraints.Feasible (c : Constraints α) (x : List α) : Prop where
  length : x.length = c.ranges.length
  limits : ∀ row ∈ c.limits, Scalar.dot row.1 x ≤ row.2
  equations : ∀ row ∈ c.equations, Scalar.dot row.1 x = row.2
  ranges : ∀ entry ∈ c.ranges.zip x, entry.1.Holds entry.2

end Feasible

/-- A feasible point with no feasible point of lower value. -/
structure LinearProgram.IsOptimum (p : LinearProgram Exact) (x : List ℝ) : Prop where
  feasible : p.Feasible (x.map .number)
  le_value : ∀ y : List ℝ, p.Feasible (y.map .number) → p.value (x.map .number) ≤ p.value (y.map .number)

open Exact

@[simp] theorem share_holds (x : ℝ) : Range.share.Holds (number x) ↔ 0 ≤ x ∧ x ≤ 1 := by
  simp [Range.share, Range.Holds, zero_eq, one_eq]

@[simp] theorem free_holds (x : ℝ) : Range.free.Holds (number x) := by
  simp [Range.free, Range.Holds]

@[simp] theorem nonnegative_holds (x : ℝ) : Range.nonnegative.Holds (number x) ↔ 0 ≤ x := by
  simp [Range.nonnegative, Range.Holds, zero_eq]

theorem replicate_zip_number (range : Range Exact) (xs : List ℝ) :
    (List.replicate xs.length range).zip (xs.map number) = xs.map fun x => (range, number x) := by
  induction xs with
  | nil => rfl
  | cons x rest ih =>
    rw [List.length_cons, List.replicate_succ, List.map_cons, List.zip_cons_cons, ih, List.map_cons]

/-! ## Scalar products of numbers -/

noncomputable def realDot (xs ys : List ℝ) : ℝ := (List.zipWith (· * ·) xs ys).sum

def indicator (n i : ℕ) : List ℝ := (List.range n).map fun j => if j = i then 1 else 0

section Products

variable {xs ys : List ℝ}

theorem dot_number (xs ys : List ℝ) :
    Scalar.dot (xs.map number) (ys.map number) = number (realDot xs ys) := by
  have hproducts : List.zipWith (· * ·) (xs.map number) (ys.map number) =
      (List.zipWith (· * ·) xs ys).map number := by
    simp [List.zipWith_map, List.map_zipWith]
  rw [Scalar.dot, hproducts, realDot, ← runningSum_number]
  rfl

theorem unit_eq_indicator (n i : ℕ) : (Scalar.unit n i : List Exact) = (indicator n i).map number := by
  rw [Scalar.unit, indicator, List.map_map]
  refine List.map_congr_left fun j _ => ?_
  by_cases h : j = i <;> simp [h, zero_eq, one_eq]

theorem realDot_append (h : xs.length = ys.length) (xs' ys' : List ℝ) :
    realDot (xs ++ xs') (ys ++ ys') = realDot xs ys + realDot xs' ys' := by
  rw [realDot, List.zipWith_append h, List.sum_append, realDot, realDot]

theorem realDot_cons (x y : ℝ) (xs ys : List ℝ) : realDot (x :: xs) (y :: ys) = x * y + realDot xs ys := rfl

theorem realDot_neg (xs ys : List ℝ) : realDot (xs.map (- ·)) ys = -realDot xs ys := by
  induction xs generalizing ys with
  | nil => simp [realDot]
  | cons x xs ih =>
    cases ys with
    | nil => simp [realDot]
    | cons y ys =>
      rw [List.map_cons, realDot_cons, realDot_cons, ih]
      ring

theorem realDot_sub {xs' : List ℝ} (h : xs.length = xs'.length) (ys : List ℝ) :
    realDot (List.zipWith (· - ·) xs xs') ys = realDot xs ys - realDot xs' ys := by
  induction xs generalizing xs' ys with
  | nil =>
    rw [List.length_eq_zero_iff.mp h.symm]
    simp [realDot]
  | cons x xs ih =>
    cases xs' with
    | nil => exact absurd h (by simp)
    | cons x' xs' =>
      cases ys with
      | nil => simp [realDot]
      | cons y ys =>
        rw [List.zipWith_cons_cons, realDot_cons, realDot_cons, realDot_cons, ih (Nat.succ_injective h)]
        ring

theorem realDot_replicate (c : ℝ) (ys : List ℝ) : realDot (List.replicate ys.length c) ys = c * ys.sum := by
  induction ys with
  | nil => simp [realDot]
  | cons y ys ih =>
    rw [List.length_cons, List.replicate_succ, realDot_cons, ih, List.sum_cons]
    ring

theorem realDot_indicator {i : ℕ} (h : i < ys.length) : realDot (indicator ys.length i) ys = ys.getD i 0 := by
  induction ys generalizing i with
  | nil => exact absurd h (Nat.not_lt_zero _)
  | cons y ys ih =>
    rw [List.length_cons, indicator, List.range_succ_eq_map, List.map_cons, List.map_map, realDot_cons]
    cases i with
    | zero =>
      have hzero : (List.range ys.length).map ((fun j => if j = 0 then (1 : ℝ) else 0) ∘ Nat.succ) =
          List.replicate ys.length 0 := by
        simp [List.map_const', Function.comp_def]
      rw [hzero, realDot_replicate]
      simp
    | succ i =>
      have hrest : (List.range ys.length).map ((fun j => if j = i + 1 then (1 : ℝ) else 0) ∘ Nat.succ) =
          indicator ys.length i := by
        simp [indicator, Function.comp_def]
      rw [hrest, ih (Nat.lt_of_succ_lt_succ h)]
      simp

end Products

/-! ## Optima -/

namespace LinearProgram

/-- The values of the feasible points that begin with some numbers. -/
def valuesFrom (p : LinearProgram Exact) (w : List ℝ) : Set ℝ :=
  {v | ∃ rest : List ℝ, p.Feasible ((w ++ rest).map number) ∧ p.value ((w ++ rest).map number) = number v}

variable {p : LinearProgram Exact} {c : List ℝ}

theorem value_number (hobjective : p.objective = c.map number) (x : List ℝ) :
    p.value (x.map number) = number (realDot c x) := by
  rw [value, hobjective, dot_number]

/-- Where the least value from the first `k` numbers of a point is a function of these, optima are the
points that begin with a minimum of the function. -/
theorem exists_isOptimum_iff {k : ℕ} {P : List ℝ → Prop} {m : List ℝ → ℝ}
    (hobjective : p.objective = c.map number)
    (hfront : ∀ x : List ℝ, p.Feasible (x.map number) → P (x.take k)) (hlength : ∀ w, P w → w.length = k)
    (hleast : ∀ w, P w → IsLeast (p.valuesFrom w) (m w)) (w : List ℝ) :
    (∃ x, p.IsOptimum x ∧ x.take k = w) ↔ P w ∧ ∀ w', P w' → m w ≤ m w' := by
  have hbelow : ∀ x : List ℝ, p.Feasible (x.map number) → m (x.take k) ≤ realDot c x := by
    intro x hx
    refine (hleast _ (hfront x hx)).2 ⟨x.drop k, ?_, ?_⟩
    · rwa [List.take_append_drop]
    · rw [List.take_append_drop, value_number hobjective]
  constructor
  · rintro ⟨x, hx, rfl⟩
    refine ⟨hfront x hx.feasible, fun w' hw' => ?_⟩
    obtain ⟨rest, hfeasible, hvalue⟩ := (hleast w' hw').1
    have hle := hx.le_value _ hfeasible
    rw [hvalue, value_number hobjective, number_le] at hle
    exact (hbelow x hx.feasible).trans hle
  · rintro ⟨hw, hmin⟩
    obtain ⟨rest, hfeasible, hvalue⟩ := (hleast w hw).1
    refine ⟨w ++ rest, ⟨hfeasible, fun y hy => ?_⟩, by rw [← hlength w hw, List.take_left]⟩
    rw [hvalue, value_number hobjective, number_le]
    exact (hmin _ (hfront y hy)).trans (hbelow y hy)

end LinearProgram

end PortfolioLab
