import PortfolioLab.Register
import PortfolioLab.Stop.State

/-!
# The book of stops

The stops of all open positions of a run, with the rules that new positions get, the policy for
gaps and the order of simultaneous exits. Stops of one period are processed in a fixed order: the
symbols of the priority list first, in the order of their last places in it, then all others by
code points.
-/

namespace PortfolioLab

def lastIndex? (priority : List String) (symbol : String) : Option Nat :=
  (priority.reverse.findIdx? (· == symbol)).map (priority.length - 1 - ·)

def precedes (priority : List String) (a b : String) : Bool :=
  match lastIndex? priority a, lastIndex? priority b with
  | some i, some j => if i = j then a ≤ b else i < j
  | some _, none => true
  | none, some _ => false
  | none, none => a ≤ b

def stopOrder (symbols priority : List String) : List String := symbols.mergeSort (precedes priority)

structure StopBook where
  rules : Register StopRule
  policy : GapPolicy := .worsePrice
  priority : List String := []
  states : Register StopState := []

structure StopTrigger where
  symbol : String
  kind : String
  breach : Breach
  deriving Repr, DecidableEq

/-- What a caller gives as the rule of a symbol: a rule, or something else. -/
abbrev RuleEntry := Option StopRule

inductive StopAssignment where
  | none
  | shared (rule : StopRule)
  | bySymbol (entries : List (String × RuleEntry))

/-- The rules of a run by symbol. A shared rule goes to every symbol; an entry that is no rule is
refused. -/
def StopAssignment.resolve (symbols : List String) : StopAssignment → Except Failure (Register StopRule)
  | none => .ok []
  | shared rule => .ok (Register.ofPairs (symbols.map (·, rule)))
  | bySymbol entries => do
    let rules ← entries.mapM fun (symbol, entry) =>
      match entry with
      | some rule => .ok (symbol, rule)
      | Option.none => refuse (.notAStopRule symbol)
    return Register.ofPairs rules

namespace StopBook

def onState {α : Type} (symbol : String) (state : StopState) (step : Transition StopState α) :
    Transition StopBook α := fun book =>
  let (result, after) := step.outcome state
  (result, { book with states := book.states.put symbol after })

/-- Give a position entered at `entry` its stop, if its symbol has a rule. A stop that cannot be
armed is not entered. -/
def enter (symbol : String) (entry : Cents) (history : List Bar) : Transition StopBook Bool := do
  let book ← get
  match book.rules.find? symbol with
  | none => return false
  | some rule =>
    let range := if rule.kind.usesRange then Bar.averageTrueRange history rule.lookback else none
    let (_, state) ← Transition.require ((StopState.arm range).commit (.fresh rule entry))
    modify ({ · with states := book.states.put symbol state })
    return true

/-- Drop the stop of a position that was sold in a rebalance. -/
def release (symbol : String) (book : StopBook) : StopBook :=
  { book with states := book.states.remove symbol }

/-- Take the stop of a position that was left out of the book, closed. -/
def close (symbol : String) : Transition StopBook StopState := do
  let book ← get
  match book.states.find? symbol with
  | none => throw .unknownKey
  | some state =>
    set (book.release symbol)
    return { state with status := .closed }

/-- Test one stop against this period's bar of its symbol, if both are there and it is active. -/
def visit (bars : Register Bar) (histories : Register (List Bar)) (symbol : String) :
    Transition StopBook (Option StopTrigger) := do
  let book ← get
  match book.states.find? symbol, bars.find? symbol with
  | some state, some bar =>
    if state.status = .active then
      let history := (histories.find? symbol).getD []
      let breach ← onState symbol state (StopState.observe book.policy history bar)
      return breach.map (⟨symbol, state.rule.kind.name, ·⟩)
    else return none
  | _, _ => return none

/-- Test every active stop against this period's bars, in their fixed order. A triggered stop
stays in the book until its position is left. -/
def evaluate (bars : Register Bar) (histories : Register (List Bar)) :
    Transition StopBook (List StopTrigger) := do
  let book ← get
  let found ← (stopOrder book.states.symbols book.priority).mapM (visit bars histories)
  return found.filterMap id

end StopBook
end PortfolioLab
