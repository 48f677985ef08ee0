/-!
# Features

The table of what the library can and cannot do, for callers that choose between
implementations.
-/

namespace PortfolioLab.Features

def version : String := "0.5.0"

/-- Every known feature, and whether it is supported. -/
def table : List (String × Bool) := [
  ("backtest", true),
  ("backtest_stops", true),
  ("backtest_sweep", true),
  ("metrics", true),
  ("optimize_min_variance", true),
  ("optimize_max_sharpe", true),
  ("optimize_risk_parity", true),
  ("optimize_cvar", true),
  ("optimize_cdar", true),
  ("garch", true),
  ("stats_spearman", true),
  ("stats_quintile_spread", true),
  ("short_selling", false),
  ("intraperiod_order_book", false)]

/-- Whether a feature is supported; an unknown one is not. -/
def supports (name : String) : Bool := (table.lookup name).getD false

end PortfolioLab.Features
