import Mathlib.Algebra.Order.Star.Real
import Mathlib.LinearAlgebra.Matrix.PosDef
import PortfolioLab.Allocation.Guard
import PortfolioLab.Proofs.LinearPrograms

/-!
# Real vectors and matrices as lists

A vector of reals is the list of its entries, and a matrix the list of its rows. On such lists the
operations of the library are those of linear algebra, and dividing a covariance by its mean variance keeps
it symmetric and positive definite.
-/

namespace PortfolioLab

open Matrix

namespace Exact

section Lists

variable {m n : ℕ}

noncomputable def vectorOf (x : Fin n → ℝ) : List Exact := (List.ofFn x).map number

noncomputable def matrixOf (A : Matrix (Fin m) (Fin n) ℝ) : List (List Exact) :=
  List.ofFn fun i => vectorOf (A.row i)

theorem vectorOf_injective : Function.Injective (vectorOf (n := n)) := fun _ _ h =>
  List.ofFn_injective (List.map_injective_iff.mpr (fun _ _ => number.inj) h)

theorem map_vectorOf {x y : Fin n → ℝ} {f : Exact → Exact} (h : ∀ i, f (number (x i)) = number (y i)) :
    (vectorOf x).map f = vectorOf y := by
  simp only [vectorOf, List.map_ofFn]
  exact congrArg List.ofFn (funext h)

variable (x y : Fin n → ℝ) (A : Matrix (Fin m) (Fin n) ℝ)

@[simp] theorem length_vectorOf : (vectorOf x).length = n := by simp [vectorOf]

@[simp] theorem length_matrixOf : (matrixOf A).length = m := by simp [matrixOf]

@[simp] theorem getD_vectorOf (i : Fin n) (default : Exact) :
    (vectorOf x).getD i default = number (x i) := by
  simp [vectorOf, List.getD_eq_getElem?_getD]

@[simp] theorem getD_matrixOf (i : Fin m) (default : List Exact) :
    (matrixOf A).getD i default = vectorOf (A.row i) := by
  simp [matrixOf, List.getD_eq_getElem?_getD]

theorem zipWith_mul_vectorOf :
    List.zipWith (· * ·) (vectorOf x) (vectorOf y) = vectorOf fun i => x i * y i := by
  refine List.ext_getElem (by simp) fun i _ _ => ?_
  simp [vectorOf]

theorem set_vectorOf (i : Fin n) (t : ℝ) :
    (vectorOf x).set i (number t) = vectorOf (Function.update x i t) := by
  refine List.ext_getElem (by simp) fun j _ hj => ?_
  rw [length_vectorOf] at hj
  by_cases h : j = i
  · subst h
    simp [vectorOf]
  · have hne : (⟨j, hj⟩ : Fin n) ≠ i := fun he => h (congrArg Fin.val he)
    simp [vectorOf, List.getElem_set_ne (Ne.symm h), Function.update_of_ne hne]

@[simp] theorem sum_vectorOf : Scalar.sum (vectorOf x) = number (∑ i, x i) := by
  rw [vectorOf, sum_number, List.sum_ofFn]

@[simp] theorem dot_vectorOf : Scalar.dot (vectorOf x) (vectorOf y) = number (x ⬝ᵥ y) := by
  have hproducts : List.zipWith (· * ·) (List.ofFn x) (List.ofFn y) = List.ofFn fun i => x i * y i :=
    List.ext_getElem (by simp) fun i _ _ => by simp
  rw [vectorOf, vectorOf, dot_number, realDot, hproducts, List.sum_ofFn, dotProduct]

@[simp] theorem mulVec_matrixOf : Scalar.mulVec (matrixOf A) (vectorOf x) = vectorOf (A *ᵥ x) := by
  have hrows : (fun row => Scalar.dot row (vectorOf x)) ∘ (fun i => vectorOf (A.row i)) =
      number ∘ (A *ᵥ x) :=
    funext fun i => dot_vectorOf (A.row i) x
  rw [Scalar.mulVec, matrixOf, List.map_ofFn, hrows, ← List.map_ofFn, vectorOf]

@[simp] theorem entry_matrixOf (i : Fin m) (j : Fin n) : Scalar.entry (matrixOf A) i j = number (A i j) := by
  rw [Scalar.entry, getD_matrixOf, getD_vectorOf, row_apply]

@[simp] theorem diagonal_matrixOf (A : Matrix (Fin n) (Fin n) ℝ) :
    Scalar.diagonal (matrixOf A) = vectorOf A.diag := by
  refine List.ext_getElem (by simp [Scalar.diagonal]) fun i hi _ => ?_
  have hi : i < n := by simpa [Scalar.diagonal] using hi
  simpa [Scalar.diagonal, vectorOf] using entry_matrixOf A ⟨i, hi⟩ ⟨i, hi⟩

theorem mean_vectorOf [NeZero n] : Scalar.mean (vectorOf x) = number ((∑ i, x i) / n) := by
  rw [Scalar.mean, sum_vectorOf, length_vectorOf, natCast_eq, number_div (Nat.cast_ne_zero.mpr (NeZero.ne n))]

/-- The largest of zero and the entries is below a bound exactly if all of them are. -/
theorem largest_vectorOf_lt_iff {bound : ℝ} :
    Scalar.largest 0 (vectorOf x) < number bound ↔ 0 < bound ∧ ∀ i, x i < bound := by
  rw [zero_eq, vectorOf, largest_number_lt_iff]
  simp

end Lists

/-! ## Normalised covariances -/

section Normalized

variable {n : ℕ} {M : Matrix (Fin n) (Fin n) ℝ}

noncomputable def meanVariance (M : Matrix (Fin n) (Fin n) ℝ) : ℝ := M.trace / n

noncomputable def relative (M : Matrix (Fin n) (Fin n) ℝ) : Matrix (Fin n) (Fin n) ℝ := (meanVariance M)⁻¹ • M

theorem isSymm_of_posDef (hM : M.PosDef) : M.IsSymm := by
  have h := hM.isHermitian
  rwa [IsHermitian, conjTranspose_eq_transpose_of_trivial] at h

theorem variance_pos_of_ne (hM : M.PosDef) {y : Fin n → ℝ} (hy : y ≠ 0) : 0 < y ⬝ᵥ M *ᵥ y := by
  have h := hM.dotProduct_mulVec_pos hy
  rwa [star_trivial] at h

theorem meanVariance_pos [NeZero n] (hM : M.PosDef) : 0 < meanVariance M :=
  div_pos hM.trace_pos (Nat.cast_pos.mpr (NeZero.pos n))

theorem relative_posDef [NeZero n] (hM : M.PosDef) : (relative M).PosDef :=
  hM.smul (inv_pos.mpr (meanVariance_pos hM))

/-- The mean variance of a positive definite covariance is positive, and every entry is divided by it. -/
theorem normalized_matrixOf [NeZero n] (hM : M.PosDef) : normalized (matrixOf M) = matrixOf (relative M) := by
  have hscale : Scalar.mean (Scalar.diagonal (matrixOf M)) = number (meanVariance M) := by
    rw [diagonal_matrixOf, mean_vectorOf]
    rfl
  have hpos := meanVariance_pos hM
  have hpositive : (0 : Exact) < number (meanVariance M) := hpos
  have hrow (i : Fin n) : (vectorOf (M.row i)).map (· / number (meanVariance M)) =
      vectorOf ((relative M).row i) :=
    map_vectorOf fun j => (number_div hpos.ne').trans (congrArg number (div_eq_inv_mul _ _))
  rw [normalized, hscale, if_pos hpositive, matrixOf, List.map_ofFn, matrixOf]
  exact congrArg List.ofFn (funext hrow)

end Normalized

end Exact
end PortfolioLab
