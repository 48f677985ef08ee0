import PortfolioLab.Numeric.Matrix

/-!
# The spectrum of a symmetric matrix

Plane rotations make a symmetric matrix diagonal: each clears one pair of mirrored entries, and
sweeps over all pairs shrink what the later rotations bring back. The diagonal then holds the
eigenvalues.
-/

namespace PortfolioLab.Scalar

variable {α : Type} [Scalar α]

/-- The cosine and sine of the rotation that clears the off-diagonal entry `b` of the symmetric
block with diagonal `a`, `d`: of the two such rotations, the smaller. -/
def clearingRotation (a b d : α) : α × α :=
  let tau := (d - a) / (b + b)
  let root := sqrt (1 + tau * tau)
  let t := if tau < 0 then 1 / (tau - root) else 1 / (tau + root)
  let c := 1 / sqrt (1 + t * t)
  (c, t * c)

def rotateEntries (p q : Nat) (c s : α) (x : List α) : List α :=
  let xp := x.getD p 0
  let xq := x.getD q 0
  (x.set p (c * xp - s * xq)).set q (s * xp + c * xq)

/-- Conjugate a symmetric matrix by the rotation of the plane of coordinates `p` and `q` that
clears their common entry. An entry that does not show beside the diagonal stays. -/
def rotatePlane (rows : List (List α)) (p q : Nat) : List (List α) :=
  let b := entry rows p q
  let small := magnitude (entry rows p p) + magnitude (entry rows q q)
  if small + magnitude b ≤ small then rows
  else
    let (c, s) := clearingRotation (entry rows p p) b (entry rows q q)
    let half := rows.map (rotateEntries p q c s)
    let rowP := half.getD p []
    let rowQ := half.getD q []
    (half.set p (subVec (scaleBy c rowP) (scaleBy s rowQ))).set q
      (addVec (scaleBy s rowP) (scaleBy c rowQ))

def planes (n : Nat) : List (Nat × Nat) :=
  (List.range n).flatMap fun p => ((List.range n).filter (p < ·)).map fun q => (p, q)

def rotationSweep (rows : List (List α)) : List (List α) :=
  (planes rows.length).foldl (fun m (p, q) => rotatePlane m p q) rows

def eigenvalues : Nat → List (List α) → List α
  | 0, rows => diagonal rows
  | sweeps + 1, rows => eigenvalues sweeps (rotationSweep rows)

/-- How many sweeps make every entry off the diagonal negligible. -/
def rotationSweeps : Nat := 16

/-- The ratio of the extreme singular values of a symmetric matrix. -/
def conditionNumber (rows : List (List α)) : α :=
  match (eigenvalues rotationSweeps rows).map magnitude with
  | [] => 1
  | first :: rest => largest first rest / smallest first rest

end PortfolioLab.Scalar
