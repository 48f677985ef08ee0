import PortfolioLab.Instant.Basic
import PortfolioLab.Value.Basic

/-!
# Failures

Every way in which an operation of the library can fail, by cause, and the wording of each cause.
A refusal of the caller's data and an amount that leaves the range of cents are the library's own
failures and have a message; the others are failures of a step below it and have none, except the
divisions by zero.
-/

namespace PortfolioLab

inductive InvalidInput where
  | notADecimal (value : Value)
  | nonFiniteAmount (value : Value)
  | priceUnits (typeName : String)
  | negativePrice (cents : Int)
  | negativeCost
  | fractionalRate (field : String) (rate : Float)
  | unknownStopKind (value : Value)
  | shortLookback
  | fixedFraction
  | rangeMultiplier
  | trailingDistance
  | trailingSign
  | gapPolicy (value : Value)
  | notAStopRule (symbol : String)
  | notAPriceSchedule
  | missingColumns (schedule : String) (columns : List String)
  | emptyPrices
  | duplicateRows (schedule : String)
  | infinitePrice (column : String)
  | lowAboveBody
  | highBelowBody
  | duplicateTime (time : Instant)
  | nonFiniteWeight (symbol : String) (time : Instant)
  | negativeWeight (symbol : String) (time : Instant)
  | excessWeight (time : Instant)
  | unmatchedTimes (times : List Instant)
  | negativeCash
  | notOneDimensional (shape : List Nat)
  | emptyReturns
  | nonFiniteReturns
  | periodsPerYear (value : Value)
  | riskFreeRate
  | riskFree
  | tailLevel (alpha : Float)
  | executor (kind : String)
  | unknownSymbols (symbols : List String)
  | notAMatrix (shape : List Nat)
  | symbolsRequired
  | emptyMatrix
  | symbolCount (symbols columns : Nat)
  | duplicateSymbols
  | lagOrders (shocks variances : Int)
  | meanMode (value : Value)
  | shortHorizon

inductive RangeFault where
  | value (value : Value)
  | cents (amount : Int)
  | factor (value : Value)

inductive ZeroDivision where
  | amount
  | quantity
  | share
  deriving DecidableEq

/-- The level of a settings document at which reading it fails. -/
inductive DocumentFault where
  | characters
  | tokens
  | arrangement
  | references
  | construction
  deriving DecidableEq

inductive Failure where
  /-- Data of the caller is refused. -/
  | invalidInput (cause : InvalidInput)
  /-- An amount leaves the range of cents. -/
  | outOfRange (cause : RangeFault)
  /-- No strategy of an allocation method produced weights. -/
  | noStrategy (method : String)
  | divisionByZero (quotient : ZeroDivision)
  /-- A value of a type that the operation does not take. -/
  | wrongType
  /-- A value of the right type that the operation cannot read. -/
  | badValue
  | unknownKey
  | unknownIndex
  /-- A document that is no table where a table is read. -/
  | notATable
  /-- An infinite number where a count or a finite number is needed. -/
  | infiniteCount
  /-- A decimal whose exponent leaves the range of the working precision. -/
  | exponentOverflow
  /-- A matrix whose decomposition does not exist. -/
  | singularMatrix
  /-- An arithmetic fault that a solver reports. -/
  | floatingPoint
  /-- A single number where a series is needed. -/
  | noAxis
  | notADate
  | document (fault : DocumentFault)

/-- A shape as it is shown in messages: lengths in parentheses, a lone one with a comma. -/
def shapeText : List Nat → String
  | [n] => s!"({n},)"
  | shape => "(" ++ ", ".intercalate (shape.map toString) ++ ")"

def quotedList (items : List String) : String :=
  "[" ++ ", ".intercalate (items.map Text.quoted) ++ "]"

def InvalidInput.message : InvalidInput → String
  | notADecimal v => "not a decimal value: " ++ v.literal
  | nonFiniteAmount v => "non-finite monetary value: " ++ v.literal
  | priceUnits name => "price units must be int, got " ++ name
  | negativePrice cents => s!"price cannot be negative: {cents} cents"
  | negativeCost => "cost model parameters must be non-negative"
  | fractionalRate field rate =>
    field ++ " must be a whole number of basis points, got " ++ Binary64.text rate
  | unknownStopKind v => "unknown stop kind " ++ v.literal
  | shortLookback => "stop lookback must be >= 1"
  | fixedFraction => "fixed stop requires 0 < pct < 1"
  | rangeMultiplier => "ATR stop requires a positive multiplier"
  | trailingDistance => "trailing stop needs exactly one of offset or multiplier"
  | trailingSign => "trailing stop offset must be positive"
  | gapPolicy v =>
    "gap_policy must be one of " ++ quotedList ["threshold", "worse_price"] ++ ", got " ++ v.literal
  | notAStopRule symbol => "stop config for " ++ symbol ++ " must be a StopConfig"
  | notAPriceSchedule =>
    "price_schedule must be a DataFrame or a mapping of symbol -> Series"
  | missingColumns schedule columns =>
    schedule ++ " is missing required columns " ++ quotedList columns
  | emptyPrices => "price_schedule cannot be empty"
  | duplicateRows schedule => schedule ++ " has duplicate (event_time, symbol) rows"
  | infinitePrice column => "price_schedule " ++ column ++ " prices must be finite"
  | lowAboveBody => "price_schedule has rows with low above open/close"
  | highBelowBody => "price_schedule has rows with high below open/close"
  | duplicateTime t => "weight_schedule has duplicate timestamp " ++ t.plainText
  | nonFiniteWeight symbol t => "non-finite weight for " ++ symbol ++ " at " ++ t.plainText
  | negativeWeight symbol t =>
    "negative weight for " ++ symbol ++ " at " ++ t.plainText ++ "; short selling is not modeled"
  | excessWeight t => "weights at " ++ t.plainText ++ " sum above 1.0"
  | unmatchedTimes times =>
    "weight_schedule timestamps without price periods: [" ++
      ", ".intercalate (times.map Instant.listedText) ++ "]"
  | negativeCash => "initial_cash cannot be negative"
  | notOneDimensional shape => "returns must be one-dimensional, got shape " ++ shapeText shape
  | emptyReturns => "returns cannot be empty"
  | nonFiniteReturns => "returns contains non-finite values"
  | periodsPerYear v => "periods_per_year must be positive, got " ++ v.display
  | riskFreeRate => "risk_free_rate must be finite"
  | riskFree => "risk_free must be finite"
  | tailLevel alpha => "alpha must lie in (0, 1), got " ++ Binary64.text alpha
  | executor kind => "executor must be one of ('process', 'thread'), got " ++ Text.quoted kind
  | unknownSymbols symbols =>
    "symbols not found in returns_matrix columns: " ++ quotedList symbols
  | notAMatrix shape => "returns_matrix must be 2-D (T x N), got shape " ++ shapeText shape
  | symbolsRequired => "symbols are required for array input"
  | emptyMatrix => "returns_matrix cannot be empty"
  | symbolCount symbols columns =>
    s!"symbols has {symbols} entries but returns_matrix has {columns} columns"
  | duplicateSymbols => "symbols must be unique"
  | lagOrders p q => s!"GARCH orders must satisfy p >= 1, q >= 0; got p={p}, q={q}"
  | meanMode v => "mean_mode must be one of ('zero', 'constant'), got " ++ v.literal
  | shortHorizon => "horizon must be >= 1"

def RangeFault.message : RangeFault → String
  | value v => v.literal ++ " exceeds the fixed-point range of 92233720368547758.07"
  | cents n =>
    s!"amount of {n} cents exceeds fixed-point range [-9223372036854775808, 9223372036854775807]"
  | factor v => "scale factor " ++ v.literal ++ " exceeds the fixed-point range"

def ZeroDivision.message : ZeroDivision → String
  | amount => "division by zero in fixed-point amount"
  | quantity => "integer division or modulo by zero"
  | share => "float division by zero"

def Failure.message? : Failure → Option String
  | invalidInput cause => some cause.message
  | outOfRange cause => some cause.message
  | noStrategy method => some (method ++ ": no strategy produced weights")
  | divisionByZero quotient => some quotient.message
  | _ => none

/-! ## Failures as the caller sees them -/

/-- The most digits that an integer may have to be written in a message. -/
def shownDigits : Nat := 4300

def isShownInt (n : Int) : Bool := Decimal.digitCount n.natAbs ≤ shownDigits

namespace Value

mutual

/-- Whether the literal of a value can be written: every integer in it can. -/
def isShown : Value → Bool
  | int n => isShownInt n
  | list items => areShown items
  | table entries => entriesAreShown entries
  | _ => true

def areShown : List Value → Bool
  | [] => true
  | v :: vs => isShown v && areShown vs

def entriesAreShown : List (Value × Value) → Bool
  | [] => true
  | (k, v) :: rest => isShown k && isShown v && entriesAreShown rest

end

end Value

def InvalidInput.isShown : InvalidInput → Bool
  | notADecimal v => v.isShown
  | nonFiniteAmount v => v.isShown
  | negativePrice cents => isShownInt cents
  | unknownStopKind v => v.isShown
  | gapPolicy v => v.isShown
  | periodsPerYear v => v.isShown
  | lagOrders p q => isShownInt p && isShownInt q
  | meanMode v => v.isShown
  | _ => true

def RangeFault.isShown : RangeFault → Bool
  | value v => v.isShown
  | cents n => isShownInt n
  | factor v => v.isShown

/-- The failure that the caller sees. A failure whose message cannot be written gives way to that of
writing it. -/
def Failure.surfaced : Failure → Failure
  | invalidInput cause => if cause.isShown then invalidInput cause else badValue
  | outOfRange cause => if cause.isShown then outOfRange cause else badValue
  | e => e

/-- The outcome that the caller sees. -/
def surface {α : Type} (r : Except Failure α) : Except Failure α := r.mapError Failure.surfaced

def refuse {α : Type} (cause : InvalidInput) : Except Failure α := .error (.invalidInput cause)

/-! ## Steps that may fail -/

/-- A step that changes a state and may fail. The state after a failed step is part of its result: it
holds the changes that the step made before it failed. -/
abbrev Transition (σ α : Type) : Type := ExceptT Failure (StateM σ) α

namespace Transition

def require {σ α : Type} (result : Except Failure α) : Transition σ α := ExceptT.mk (pure result)

def outcome {σ α : Type} (step : Transition σ α) (state : σ) : Except Failure α × σ := step.run state

/-- The step as a whole: a failure drops the state. -/
def commit {σ α : Type} (step : Transition σ α) (state : σ) : Except Failure (α × σ) :=
  match step.outcome state with
  | (.ok a, after) => .ok (a, after)
  | (.error e, _) => .error e

end Transition
end PortfolioLab
