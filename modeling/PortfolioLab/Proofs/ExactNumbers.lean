import Mathlib.Analysis.SpecialFunctions.Log.Basic
import Mathlib.Analysis.SpecialFunctions.Trigonometric.Basic
import PortfolioLab.Numeric.Summation

/-!
# Exact arithmetic

Real numbers, the two infinities and not-a-number, with operations that do not round. Where doubles
answer with an infinity or with not-a-number, so do these, except that there is one zero only. Statistics
and allocations over them are the formulas of mathematics, and still meet whatever a solver may return.
-/

namespace PortfolioLab

/-- A real number, an infinity or not-a-number. -/
inductive Exact where
  | number (x : ℝ)
  | infinite (negative : Bool)
  | notANumber

namespace Exact

/-- Infinities of different signs have no sum. -/
noncomputable def add : Exact → Exact → Exact
  | number x, number y => number (x + y)
  | number _, infinite s => infinite s
  | infinite s, number _ => infinite s
  | infinite s, infinite t => if s = t then infinite s else notANumber
  | _, _ => notANumber

noncomputable def neg : Exact → Exact
  | number x => number (-x)
  | infinite s => infinite (!s)
  | notANumber => notANumber

open Classical in
/-- An infinity with the sign of a product of which `x` is a factor; zero has no such product. -/
noncomputable def infiniteBy (x : ℝ) (s : Bool) : Exact :=
  if x = 0 then notANumber else infinite (decide (x < 0) ^^ s)

noncomputable def mul : Exact → Exact → Exact
  | number x, number y => number (x * y)
  | number x, infinite s => infiniteBy x s
  | infinite s, number y => infiniteBy y s
  | infinite s, infinite t => infinite (s ^^ t)
  | _, _ => notANumber

open Classical in
noncomputable def div : Exact → Exact → Exact
  | number x, number y => if y = 0 then infiniteBy x false else number (x / y)
  | number _, infinite _ => number 0
  | infinite s, number y => infinite (decide (y < 0) ^^ s)
  | _, _ => notANumber

/-- The order, in which not-a-number has no place. -/
def Le : Exact → Exact → Prop
  | number x, number y => x ≤ y
  | number _, infinite t => t = false
  | infinite s, number _ => s = true
  | infinite s, infinite t => s = true ∨ t = false
  | _, _ => False

def Lt : Exact → Exact → Prop
  | number x, number y => x < y
  | number _, infinite t => t = false
  | infinite s, number _ => s = true
  | infinite s, infinite t => s = true ∧ t = false
  | _, _ => False

open Classical in
noncomputable def sqrt : Exact → Exact
  | number x => if x < 0 then notANumber else number (Real.sqrt x)
  | infinite false => infinite false
  | _ => notANumber

open Classical in
noncomputable def log : Exact → Exact
  | number x => if x < 0 then notANumber else if x = 0 then infinite true else number (Real.log x)
  | infinite false => infinite false
  | _ => notANumber

noncomputable def expLessOne : Exact → Exact
  | number x => number (Real.exp x - 1)
  | infinite false => infinite false
  | infinite true => number (-1)
  | notANumber => notANumber

def isFinite : Exact → Bool
  | number _ => true
  | _ => false

noncomputable def ceil : Exact → Int
  | number x => ⌈x⌉
  | _ => 0

open Classical in
noncomputable instance scalar : Scalar Exact where
  add := add
  sub x y := add x (neg y)
  mul := mul
  div := div
  neg := neg
  zero := number 0
  one := number 1
  natCast n := number n
  lt := Lt
  le := Le
  ofScientific m s e := number (OfScientific.ofScientific m s e)
  ofRatio n d := div (number n) (number d)
  sqrt := sqrt
  log := log
  expLessOne := expLessOne
  pi := number Real.pi
  isFinite := isFinite
  ceil := ceil
  decLt := inferInstance
  decLe := inferInstance

variable {x y : ℝ}

theorem zero_eq : (0 : Exact) = number 0 := rfl

theorem one_eq : (1 : Exact) = number 1 := rfl

theorem natCast_eq (n : ℕ) : (n : Exact) = number n := rfl

theorem ofNat_eq (n : ℕ) [n.AtLeastTwo] : (OfNat.ofNat n : Exact) = number (OfNat.ofNat n) := rfl

theorem ofScientific_eq (m : ℕ) (s : Bool) (e : ℕ) :
    (OfScientific.ofScientific m s e : Exact) = number (OfScientific.ofScientific m s e) := rfl

@[simp] theorem number_add : number x + number y = number (x + y) := rfl

@[simp] theorem number_neg : -number x = number (-x) := rfl

@[simp] theorem number_sub : number x - number y = number (x - y) := by
  rw [sub_eq_add_neg]
  rfl

@[simp] theorem number_mul : number x * number y = number (x * y) := rfl

@[simp] theorem number_div (h : y ≠ 0) : number x / number y = number (x / y) := if_neg h

@[simp] theorem number_lt : number x < number y ↔ x < y := Iff.rfl

@[simp] theorem number_le : number x ≤ number y ↔ x ≤ y := Iff.rfl

@[simp] theorem isFinite_number : Scalar.isFinite (number x) = true := rfl

theorem not_le_of_lt {a b : Exact} (h : a < b) : ¬ b ≤ a := by
  intro hle
  cases a with
  | number x =>
    cases b with
    | number y => exact (not_le.mpr h : ¬ y ≤ x) hle
    | infinite t => exact Bool.false_ne_true (h.symm.trans hle)
    | notANumber => exact h
  | infinite s =>
    cases b with
    | number y => exact Bool.false_ne_true (hle.symm.trans h)
    | infinite t =>
      obtain ⟨rfl, rfl⟩ := h
      rcases hle with hle | hle <;> cases hle
    | notANumber => exact h
  | notANumber => cases b <;> exact h

@[simp] theorem all_isFinite_number (xs : List ℝ) :
    (xs.map number).all Scalar.isFinite = true := by
  induction xs with
  | nil => rfl
  | cons x rest ih => simp [ih]

/-- Finite numbers are real numbers. -/
theorem exists_number_of_all_isFinite {xs : List Exact} (h : xs.all Scalar.isFinite = true) :
    ∃ ys : List ℝ, xs = ys.map number := by
  induction xs with
  | nil => exact ⟨[], rfl⟩
  | cons x rest ih =>
    rw [List.all_cons, Bool.and_eq_true] at h
    obtain ⟨ys, rfl⟩ := ih h.2
    cases x with
    | number y => exact ⟨y :: ys, rfl⟩
    | infinite s => exact absurd h.1 Bool.false_ne_true
    | notANumber => exact absurd h.1 Bool.false_ne_true

theorem exists_number_of_forall_mem {xs : List Exact} (h : ∀ x ∈ xs, ∃ y, x = number y) :
    ∃ ys : List ℝ, xs = ys.map number := by
  refine exists_number_of_all_isFinite (List.all_eq_true.mpr fun x hx => ?_)
  obtain ⟨y, rfl⟩ := h x hx
  rfl

theorem log_number (h : 0 < x) : Scalar.log (number x) = number (Real.log x) :=
  (if_neg h.le.not_gt).trans (if_neg h.ne')

end Exact

/-! ## Sums that do not round -/

namespace Scalar

variable {α M : Type} [Scalar α] [AddCommMonoid M] {f : M → α}

theorem runningSum_map (hadd : ∀ a b, f a + f b = f (a + b)) (start : M) (xs : List M) :
    runningSum (f start) (xs.map f) = f (start + xs.sum) := by
  induction xs generalizing start with
  | nil => simp [runningSum]
  | cons x rest ih =>
    have hstep : runningSum (f start) ((x :: rest).map f) = runningSum (f (start + x)) (rest.map f) := by
      rw [← hadd]
      rfl
    rw [hstep, ih, List.sum_cons, add_assoc]

theorem combineLanes_map (hzero : f 0 = 0) (hadd : ∀ a b, f a + f b = f (a + b)) (lanes : List M) :
    combineLanes (lanes.map f) = f lanes.sum := by
  unfold combineLanes
  split
  · next h =>
    simp only [List.map_eq_cons_iff, List.map_eq_nil_iff] at h
    obtain ⟨a, _, rfl, rfl, b, _, rfl, rfl, c, _, rfl, rfl, d, _, rfl, rfl, e, _, rfl, rfl,
      g, _, rfl, rfl, i, _, rfl, rfl, j, _, rfl, rfl, rfl⟩ := h
    simp only [hadd, List.sum_cons, List.sum_nil, add_zero, add_assoc]
  · rw [← hzero, runningSum_map hadd, zero_add]

theorem laneSum_map (hzero : f 0 = 0) (hadd : ∀ a b, f a + f b = f (a + b)) (lanes xs : List M)
    (hlanes : lanes.length = 8) :
    laneSum (lanes.map f) (xs.map f) = f (lanes.sum + xs.sum) := by
  induction hn : xs.length using Nat.strong_induction_on generalizing lanes xs with
  | _ n ih =>
    rw [laneSum, List.length_map]
    by_cases hshort : xs.length < 8
    · rw [if_pos hshort, combineLanes_map hzero hadd, runningSum_map hadd]
    · have htake : (xs.take 8).length = 8 := by
        rw [List.length_take]
        omega
      have hrow : List.zipWith (· + ·) (lanes.map f) ((xs.map f).take 8) =
          (List.zipWith (· + ·) lanes (xs.take 8)).map f := by
        rw [← List.map_take, List.zipWith_map, List.map_zipWith]
        simp only [hadd]
      rw [if_neg hshort, hrow, ← List.map_drop,
        ih (xs.drop 8).length (by rw [List.length_drop]; omega) _ _ (by simp [hlanes, htake]) rfl,
        ← List.sum_add_sum_eq_sum_zipWith_of_length_eq _ _ (hlanes.trans htake.symm), add_assoc,
        ← List.sum_append, List.take_append_drop]

/-- Where addition does not round, the pairwise sum is the sum. -/
theorem sum_map (hzero : f 0 = 0) (hadd : ∀ a b, f a + f b = f (a + b)) (xs : List M) :
    sum (xs.map f) = f xs.sum := by
  induction hn : xs.length using Nat.strong_induction_on generalizing xs with
  | _ n ih =>
    rw [sum, List.length_map]
    by_cases hshort : xs.length < 8
    · rw [if_pos hshort, ← hzero, runningSum_map hadd, zero_add]
    · rw [if_neg hshort, ← List.map_take, ← List.map_drop]
      by_cases hlanes : xs.length ≤ 128
      · have htake : (xs.take 8).length = 8 := by
          rw [List.length_take]
          omega
        rw [if_pos hlanes, laneSum_map hzero hadd _ _ htake, ← List.sum_append, List.take_append_drop]
      · rw [if_neg hlanes]
        simp only [← List.map_take, ← List.map_drop]
        rw [ih _ (by rw [List.length_take]; omega) _ rfl, ih _ (by rw [List.length_drop]; omega) _ rfl,
          hadd, ← List.sum_append, List.take_append_drop]

end Scalar

namespace Exact

@[simp] theorem sum_number (xs : List ℝ) : Scalar.sum (xs.map number) = number xs.sum :=
  Scalar.sum_map zero_eq (fun _ _ => number_add) xs

theorem runningSum_number (xs : List ℝ) : Scalar.runningSum 0 (xs.map number) = number xs.sum := by
  rw [zero_eq, Scalar.runningSum_map (fun _ _ => number_add), zero_add]

theorem mean_number {xs : List ℝ} (h : xs ≠ []) :
    Scalar.mean (xs.map number) = number (xs.sum / xs.length) := by
  have hcount : ((xs.length : ℕ) : ℝ) ≠ 0 := Nat.cast_ne_zero.mpr (List.length_pos_iff.mpr h).ne'
  rw [Scalar.mean, sum_number, List.length_map, natCast_eq, number_div hcount]

theorem magnitude_number (x : ℝ) : Scalar.magnitude (number x) = number |x| := by
  by_cases h : x < 0
  · rw [abs_of_neg h]
    exact if_pos h
  · rw [abs_of_nonneg (not_lt.mp h)]
    exact if_neg h

theorem larger_number (x y : ℝ) : Scalar.larger (number x) (number y) = number (max x y) := by
  by_cases h : y ≤ x
  · rw [max_eq_left h]
    exact if_pos h
  · rw [max_eq_right (not_le.mp h).le]
    exact (if_neg h).trans (if_pos (le_refl x))

theorem largest_number (first : ℝ) (xs : List ℝ) :
    Scalar.largest (number first) (xs.map number) = number (xs.foldl max first) := by
  induction xs generalizing first with
  | nil => rfl
  | cons x rest ih =>
    rw [List.foldl_cons, ← ih, ← larger_number]
    rfl

theorem largest_number_lt_iff {first bound : ℝ} {xs : List ℝ} :
    Scalar.largest (number first) (xs.map number) < number bound ↔ first < bound ∧ ∀ x ∈ xs, x < bound := by
  rw [largest_number, number_lt]
  induction xs generalizing first with
  | nil => simp
  | cons x rest ih => rw [List.foldl_cons, ih, max_lt_iff, List.forall_mem_cons, and_assoc]

end Exact
end PortfolioLab
