import PortfolioLab.Numeric.Scalar

/-!
# The incomplete beta function

The regularized incomplete beta function at half-integer parameters, as the tail of Student's
distribution needs it. Its continued fraction converges quickly on the near side of the mean; the
far side follows by reflection.
-/

namespace PortfolioLab.IncompleteBeta

/-- The beta function at `(k / 2, 1 / 2)`, by its recurrence from the values at a half and at
one. -/
def halfBeta : Nat → Float
  | 0 => 0
  | 1 => Scalar.pi
  | 2 => 2
  | k + 3 => halfBeta (k + 1) * (Float.ofNat (k + 1) / Float.ofNat (k + 2))

/-- A denominator kept away from zero. -/
def guarded (x : Float) : Float := if x.abs < 1e-300 then 1e-300 else x

/-- The state of the continued fraction: numerator ratio, denominator ratio, value. -/
structure Convergent where
  c : Float
  d : Float
  value : Float

def Convergent.extend (s : Convergent) (coefficient : Float) : Convergent :=
  let d := 1 / guarded (1 + coefficient * s.d)
  let c := guarded (1 + coefficient / s.c)
  ⟨c, d, s.value * (c * d)⟩

def fraction (a b x : Float) : Nat → Nat → Convergent → Float
  | 0, _, s => s.value
  | fuel + 1, step, s =>
    let m := Float.ofNat step
    let even := m * (b - m) * x / ((a + 2 * m - 1) * (a + 2 * m))
    let odd := -(a + m) * (a + b + m) * x / ((a + 2 * m) * (a + 2 * m + 1))
    let next := (s.extend even).extend odd
    if (next.value - s.value).abs ≤ 1e-17 * next.value.abs then next.value
    else fraction a b x fuel (step + 1) next

/-- The continued fraction of the function at `x`, without its leading power. -/
def continued (a b x : Float) : Float :=
  let d := 1 / guarded (1 - (a + b) * x / (a + 1))
  fraction a b x 500 1 ⟨1, d, d⟩

/-- The regularized function at `(k / 2, 1 / 2)` and `x`, where `y = 1 - x`. -/
def regularized (k : Nat) (x y : Float) : Float :=
  let a := Float.ofNat k / 2
  if x ≤ 0 then 0
  else if y ≤ 0 then 1
  else
    let power := Float.exp (a * x.log) * y.sqrt / halfBeta k
    if x < (a + 1) / (a + 2.5) then power * continued a 0.5 x / a
    else 1 - power * continued 0.5 a y / 0.5

end PortfolioLab.IncompleteBeta
