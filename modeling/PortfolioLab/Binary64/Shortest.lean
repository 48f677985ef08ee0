import PortfolioLab.Binary64.Basic
import PortfolioLab.Decimal.Basic

/-!
# The shortest decimal that reads back

Every double is the nearest double of an interval of reals; the interval holds its ends exactly
when the mantissa is even. `shortest` is the decimal of fewest digits in that interval, and of
those the one nearest to the double. If a decimal grid has a point in the interval, then one of
the two grid neighbours of the double lies in it, so testing these two on grids of one, two, …
seventeen digits is enough; seventeen digits always read back.
-/

namespace PortfolioLab.Binary64

/-- The exponent of the leading decimal digit of the positive fraction `n / d`. -/
def decimalExponent (n d : Nat) : Int :=
  let estimate : Int := (Decimal.digitCount n : Int) - Decimal.digitCount d
  if d * tenTo estimate.toNat ≤ n * tenTo (-estimate).toNat then estimate else estimate - 1

/-- The reals that round to a double, in units of a quarter of its last place: the double itself,
the two ends, and whether the ends belong. Below a power of two the lower neighbour is nearer. -/
structure Interval where
  value : Nat
  lower : Nat
  upper : Nat
  closed : Bool
  exponent : Int

def Dyadic.interval (d : Dyadic) : Interval :=
  let lower := if d.mantissa = twoTo 52 ∧ -1074 < d.exponent then 1 else 2
  ⟨4 * d.mantissa, 4 * d.mantissa - lower, 4 * d.mantissa + 2, d.mantissa % 2 = 0, d.exponent - 2⟩

def Interval.holds (i : Interval) (c : Nat) (grid : Int) : Bool :=
  let point := c * tenTo grid.toNat * twoTo (-i.exponent).toNat
  let unit := tenTo (-grid).toNat * twoTo i.exponent.toNat
  (i.lower * unit < point && point < i.upper * unit) ||
    (i.closed && (point == i.lower * unit || point == i.upper * unit))

/-- The multiple of `10 ^ grid` that stands for the interval's double on this grid: the nearer of
the two neighbours that lie in the interval, the even one of two equally near. -/
def Interval.candidate? (i : Interval) (grid : Int) : Option Nat :=
  let n := i.value * twoTo i.exponent.toNat * tenTo (-grid).toNat
  let d := twoTo (-i.exponent).toNat * tenTo grid.toNat
  let below := n / d
  let twice := 2 * (n % d)
  match i.holds below grid, i.holds (below + 1) grid with
  | true, true =>
    some (if twice < d ∨ (twice = d ∧ below % 2 = 0) then below else below + 1)
  | true, false => some below
  | false, true => some (below + 1)
  | false, false => none

/-- The first grid of at least `digits` digits that has a point in the interval. -/
def Interval.search (i : Interval) (leading : Int) : Nat → Nat → Nat × Int
  | 0, _ => (0, 0)
  | fuel + 1, digits =>
    let grid := leading + 1 - digits
    match i.candidate? grid with
    | some c => (c, grid)
    | none => i.search leading fuel (digits + 1)

/-- A coefficient without its trailing zeros, which move to the exponent. -/
def dropZeros : Nat → Nat × Int → Nat × Int
  | 0, pair => pair
  | fuel + 1, (c, e) => if c % 10 = 0 ∧ 0 < c then dropZeros fuel (c / 10, e + 1) else (c, e)

/-- The decimal of fewest digits that reads back as the double. -/
def Dyadic.shortest (d : Dyadic) : Decimal :=
  if d.mantissa = 0 then ⟨d.negative, 0, 0⟩
  else
    let leading := decimalExponent d.fraction.1 d.fraction.2
    let (c, e) := dropZeros 20 (d.interval.search leading 17 1)
    ⟨d.negative, c, e⟩

def shortest? (x : Float) : Option Decimal := (decode? x).map Dyadic.shortest

end PortfolioLab.Binary64
