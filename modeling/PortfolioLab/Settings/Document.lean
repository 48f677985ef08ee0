import PortfolioLab.Document.Contents
import PortfolioLab.Document.Layout
import PortfolioLab.Register
import PortfolioLab.Settings.Basic

/-!
# Settings documents

Settings are kept as a document with a section per group of parameters. A section refuses fields
that it does not have, and has defaults for fields that the document leaves out. A document without
contents stands for the defaults.
-/

namespace PortfolioLab

abbrev Fields : Type := Register Value

namespace Fields

def checkNames (known : List String) (fields : Fields) : Except Failure Unit :=
  if fields.all fun field => known.contains field.1 then .ok () else .error .wrongType

def getD (fields : Fields) (name : String) (default : Value) : Value :=
  (fields.find? name).getD default

/-- The fields of a table whose keys are all texts. -/
def ofEntries (entries : List (Value × Value)) : Except Failure Fields := do
  let pairs ← entries.mapM fun (key, value) =>
    match key with
    | .text name => .ok (name, value)
    | _ => .error .wrongType
  return Register.ofPairs pairs

def ofTable : Value → Except Failure Fields
  | .table entries => ofEntries entries
  | _ => .error .wrongType

end Fields

def characterTexts (s : String) : List Value := s.toList.map fun c => .text c.toString

/-- The items of a value that can be gone through. -/
def Value.items : Value → Except Failure (List Value)
  | .list items => .ok items
  | .table entries => .ok (entries.map (·.1))
  | .text s => .ok (characterTexts s)
  | _ => .error .wrongType

def Value.pair (v : Value) : Except Failure (Value × Value) := do
  match ← v.items with
  | [key, value] => return (key, value)
  | _ => throw .badValue

/-- The entries of a table, or of anything made of pairs. -/
def Value.entries : Value → Except Failure (List (Value × Value))
  | .table entries => .ok entries
  | v => do (← v.items).mapM Value.pair

namespace CostSettings

def names : List String := ["commission_bps", "slippage_bps", "min_trade_fee"]

def ofFields (fields : Fields) : Except Failure CostSettings := do
  fields.checkNames names
  let base : CostSettings := {}
  return {
    commission := fields.getD "commission_bps" base.commission
    slippage := fields.getD "slippage_bps" base.slippage
    minimumFee := fields.getD "min_trade_fee" base.minimumFee }

def toValue (s : CostSettings) : Value := .table [
  (.text "commission_bps", s.commission),
  (.text "slippage_bps", s.slippage),
  (.text "min_trade_fee", s.minimumFee)]

end CostSettings

namespace RunSettings

def names : List String :=
  ["initial_cash", "periods_per_year", "risk_free_rate", "gap_policy", "stop_priority"]

/-- The symbols of a priority list; an empty value stands for none. -/
def priorityOf (v : Value) : Except Failure (List Value) := if v.isEmpty then .ok [] else v.items

def ofFields (fields : Fields) (priority : List Value) : Except Failure RunSettings := do
  fields.checkNames names
  let base : RunSettings := {}
  return {
    initialCash := fields.getD "initial_cash" base.initialCash
    periodsPerYear := fields.getD "periods_per_year" base.periodsPerYear
    riskFreeRate := fields.getD "risk_free_rate" base.riskFreeRate
    gapPolicy := fields.getD "gap_policy" base.gapPolicy
    stopPriority := priority }

def toValue (s : RunSettings) : Value := .table [
  (.text "initial_cash", s.initialCash),
  (.text "periods_per_year", s.periodsPerYear),
  (.text "risk_free_rate", s.riskFreeRate),
  (.text "gap_policy", s.gapPolicy),
  (.text "stop_priority", .list s.stopPriority)]

end RunSettings

namespace AllocationSettings

def names : List String :=
  ["min_periods", "max_condition_number", "max_iterations", "tolerance", "weight_tolerance",
    "risk_parity_tolerance", "lp_max_iterations"]

def ofFields (fields : Fields) : Except Failure AllocationSettings := do
  fields.checkNames names
  let base : AllocationSettings := {}
  return {
    minimumPeriods := fields.getD "min_periods" base.minimumPeriods
    maxCondition := fields.getD "max_condition_number" base.maxCondition
    maxIterations := fields.getD "max_iterations" base.maxIterations
    tolerance := fields.getD "tolerance" base.tolerance
    weightTolerance := fields.getD "weight_tolerance" base.weightTolerance
    parityTolerance := fields.getD "risk_parity_tolerance" base.parityTolerance
    programIterations := fields.getD "lp_max_iterations" base.programIterations }

def toValue (s : AllocationSettings) : Value := .table [
  (.text "min_periods", s.minimumPeriods),
  (.text "max_condition_number", s.maxCondition),
  (.text "max_iterations", s.maxIterations),
  (.text "tolerance", s.tolerance),
  (.text "weight_tolerance", s.weightTolerance),
  (.text "risk_parity_tolerance", s.parityTolerance),
  (.text "lp_max_iterations", s.programIterations)]

end AllocationSettings

namespace VolatilitySettings

def names : List String := ["max_iterations", "tolerance", "min_observations"]

def ofFields (fields : Fields) : Except Failure VolatilitySettings := do
  fields.checkNames names
  let base : VolatilitySettings := {}
  return {
    maxIterations := fields.getD "max_iterations" base.maxIterations
    tolerance := fields.getD "tolerance" base.tolerance
    minimumObservations := fields.getD "min_observations" base.minimumObservations }

def toValue (s : VolatilitySettings) : Value := .table [
  (.text "max_iterations", s.maxIterations),
  (.text "tolerance", s.tolerance),
  (.text "min_observations", s.minimumObservations)]

end VolatilitySettings

namespace Settings

/-- The value of a section in a document, an empty table if it has none. -/
def section? (document : List (Value × Value)) (name : String) : Value :=
  ((document.find? fun entry => Value.same entry.1 (.text name)).map (·.2)).getD (.table [])

/-- The settings of a document. The section of runs may also be given as a list of pairs; sections
that are not known are passed over. -/
def ofEntries (document : List (Value × Value)) : Except Failure Settings := do
  let runEntries ← (section? document "backtest").entries
  let given := runEntries.find? fun entry => Value.same entry.1 (.text "stop_priority")
  let priority ← RunSettings.priorityOf ((given.map (·.2)).getD (.list []))
  let costs ← CostSettings.ofFields (← Fields.ofTable (section? document "costs"))
  let run ← RunSettings.ofFields (← Fields.ofEntries runEntries) priority
  let allocation ← AllocationSettings.ofFields (← Fields.ofTable (section? document "optimizer"))
  let volatility ← VolatilitySettings.ofFields (← Fields.ofTable (section? document "garch"))
  return { costs, run, allocation, volatility }

def ofValue : Value → Except Failure Settings
  | .table document => ofEntries document
  | _ => .error .notATable

def toValue (s : Settings) : Value := .table [
  (.text "costs", s.costs.toValue),
  (.text "backtest", s.run.toValue),
  (.text "optimizer", s.allocation.toValue),
  (.text "garch", s.volatility.toValue)]

def same (s t : Settings) : Bool := Value.same s.toValue t.toValue

def ofDocument (text : String) : Except Failure Settings := do
  let v ← Document.read text
  ofValue (if v.isEmpty then .table [] else v)

def toDocument (s : Settings) : String := Document.write s.toValue

end Settings
end PortfolioLab
