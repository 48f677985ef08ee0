import PortfolioLab.Money.Cents

/-!
# Price bars and true ranges

A bar holds the prices of one symbol in one period; every price but the closing one may be
missing. The true range of a bar is the widest of its own range and the distances of its high and
low from the close before it. A bar without high and low counts with the move of its close, so the
first bar counts only if it has both.
-/

namespace PortfolioLab

/-- The prices of one symbol in one period, in cents. -/
structure Bar where
  close : Cents
  opening : Option Cents := none
  high : Option Cents := none
  low : Option Cents := none
  deriving Repr, DecidableEq, Inhabited

namespace Bar

def worst (b : Bar) : Cents := b.low.getD b.close

def best (b : Bar) : Cents := b.high.getD b.close

/-- The first price known: the opening one, else the high, else the close. -/
def gapReference (b : Bar) : Cents := (b.opening <|> b.high).getD b.close

/-- The true range of a bar after the close `previous`, if it has one. -/
def trueRange? (previous : Option Cents) (b : Bar) : Option Int :=
  match b.high, b.low, previous with
  | some high, some low, some p => some (max (high - low) (max (abs (high - p)) (abs (low - p))))
  | some high, some low, none => some (high - low)
  | _, _, some p => some (abs (b.close - p))
  | _, _, none => none
where
  /-- The magnitude of an integer. -/
  abs (n : Int) : Int := n.natAbs

def trueRangesFrom : Option Cents → List Bar → List Int
  | _, [] => []
  | previous, b :: bars =>
    (b.trueRange? previous).toList ++ trueRangesFrom (some b.close) bars

def trueRanges (bars : List Bar) : List Int := trueRangesFrom none bars

/-- The last `lookback` entries; a lookback that is not positive drops entries from the start. -/
def lastEntries (lookback : Int) (ranges : List Int) : List Int :=
  if 0 < lookback then ranges.drop (ranges.length - lookback.toNat)
  else ranges.drop (-lookback).toNat

/-- The mean of the last `lookback` true ranges, rounded to a cent; none if there are none. -/
def averageTrueRange (bars : List Bar) (lookback : Int) : Option Cents :=
  match lastEntries lookback (trueRanges bars) with
  | [] => none
  | ranges => some (divHalfEven (Cents.total ranges) ranges.length)

end Bar
end PortfolioLab
