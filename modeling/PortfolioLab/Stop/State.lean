import PortfolioLab.Money.Conversion
import PortfolioLab.Stop.Bar
import PortfolioLab.Stop.Rule

/-!
# The state of one stop

A stop is active from the entry of its position until a bar breaches its threshold; then it is
triggered, and closed once the position is left. A stop that needs the average true range waits
without a threshold until that range is positive. A trailing stop is raised after each bar that
it survives and is never lowered.
-/

namespace PortfolioLab

inductive StopStatus where
  | active
  | triggered
  | closed
  deriving Repr, DecidableEq, Inhabited

def StopStatus.name : StopStatus → String
  | active => "active"
  | triggered => "triggered"
  | closed => "closed"

structure StopState where
  rule : StopRule
  entry : Cents
  peak : Cents
  status : StopStatus := .active
  threshold : Option Cents := none
  offset : Option Cents := none

/-- A breach: the threshold in force, the price at which the position is left, and whether the bar
opened at or below the threshold. -/
structure Breach where
  threshold : Cents
  exitPrice : Cents
  gapped : Bool
  deriving Repr, DecidableEq

namespace StopState

def fresh (rule : StopRule) (entry : Cents) : StopState := { rule, entry, peak := entry }

def setOffset (amount : Cents) : Transition StopState Unit := modify ({ · with offset := some amount })

/-- Put the threshold `distance` below `reference`, but not below zero. -/
def setBelow (reference distance : Cents) : Transition StopState Unit := do
  let level ← Transition.require (Cents.check (reference - distance))
  modify ({ · with threshold := some (max level 0) })

/-- Set the first threshold. A rule that needs the average true range `range` does nothing while
there is none or it is not positive. -/
def arm (range : Option Cents) : Transition StopState Unit := do
  let s ← get
  match s.rule.kind with
  | .fixed fraction =>
    let distance ← Transition.require (Money.scale s.entry (.real fraction))
    let level ← Transition.require (Cents.check (s.entry - distance))
    modify ({ · with threshold := some level })
  | .trailing amount =>
    let distance ← Transition.require (Money.toCents (.real amount))
    setOffset distance
    setBelow s.peak distance
  | .atr multiplier =>
    match range with
    | none => pure ()
    | some r =>
      if 0 < r then
        let distance ← Transition.require (Money.scale r (.real multiplier))
        setOffset distance
        setBelow s.entry distance
  | .trailingAtr multiplier =>
    match range with
    | none => pure ()
    | some r =>
      if 0 < r then
        let distance ← Transition.require (Money.scale r (.real multiplier))
        setOffset distance
        setBelow s.peak distance

/-- Follow the best price of a bar; the threshold only rises. -/
def ratchet (bar : Bar) (s : StopState) : StopState :=
  if !s.rule.kind.trails then s
  else
    let peak := max s.peak bar.best
    match s.offset with
    | none => { s with peak }
    | some offset =>
      let candidate := max (peak - offset) 0
      match s.threshold with
      | none => { s with peak, threshold := some candidate }
      | some level => { s with peak, threshold := some (if level < candidate then candidate else level) }

/-- The breach of an armed stop by a bar, if the bar's lowest price reaches the threshold. -/
def breach? (policy : GapPolicy) (bar : Bar) (s : StopState) : Option Breach :=
  match s.threshold with
  | none => none
  | some level =>
    if bar.worst ≤ level then
      let gapped : Bool := bar.gapReference ≤ level
      some ⟨level, if gapped ∧ policy = .worsePrice then bar.gapReference else level, gapped⟩
    else none

/-- One bar for an active stop: a breach triggers it; otherwise a waiting stop is armed from the
history, which ends with this bar, and the stop follows the bar. -/
def observe (policy : GapPolicy) (history : List Bar) (bar : Bar) :
    Transition StopState (Option Breach) := do
  let s ← get
  match s.breach? policy bar with
  | some breach =>
    modify ({ · with status := .triggered })
    return some breach
  | none =>
    if s.threshold.isNone then arm (Bar.averageTrueRange history s.rule.lookback)
    modify (ratchet bar)
    return none

end StopState
end PortfolioLab
