import PortfolioLab.Allocation.Method
import PortfolioLab.Backtest.Sweep
import PortfolioLab.Features
import PortfolioLab.Settings.Costs
import PortfolioLab.Settings.Document
import PortfolioLab.Statistics.RankCorrelation
import PortfolioLab.Statistics.ScoreSpread
import PortfolioLab.Volatility.Forecast
import PortfolioLab.Proofs.Amounts
import PortfolioLab.Proofs.Ordering
import PortfolioLab.Proofs.Registers
import PortfolioLab.Proofs.Settlement
import PortfolioLab.Proofs.TradeLog
import PortfolioLab.Proofs.Stops
import PortfolioLab.Proofs.Balance
import PortfolioLab.Proofs.Phases
import PortfolioLab.Proofs.Runs
import PortfolioLab.Proofs.Journal
import PortfolioLab.Proofs.Schedules
import PortfolioLab.Proofs.Simulation
import PortfolioLab.Proofs.Bookkeeping
import PortfolioLab.Proofs.Twins
import PortfolioLab.Proofs.Foresight
import PortfolioLab.Proofs.Rounding
import PortfolioLab.Proofs.RoundTrips
import PortfolioLab.Proofs.StopPass
import PortfolioLab.Proofs.StopCalls
import PortfolioLab.Proofs.FirstBreach
import PortfolioLab.Proofs.Postings
import PortfolioLab.Proofs.TradingDays
import PortfolioLab.Proofs.Inertia
import PortfolioLab.Proofs.Fractions
import PortfolioLab.Proofs.StopRules
import PortfolioLab.Proofs.StopLives
import PortfolioLab.Proofs.Ranges
import PortfolioLab.Proofs.Surroundings
import PortfolioLab.Proofs.Exits
import PortfolioLab.Proofs.SideBySide
import PortfolioLab.Proofs.TieBreaks
import PortfolioLab.Proofs.Quotes
import PortfolioLab.Proofs.Bystanders
import PortfolioLab.Proofs.InputOrders
import PortfolioLab.Proofs.MoneyFailures
import PortfolioLab.Proofs.FallbackChain
import PortfolioLab.Proofs.NumericalFailures
import PortfolioLab.Proofs.Compounding
import PortfolioLab.Proofs.VarianceFloors
import PortfolioLab.Proofs.Forecasts
import PortfolioLab.Proofs.TailPrograms
import PortfolioLab.Proofs.Purchases
import PortfolioLab.Proofs.Breaches
import PortfolioLab.Proofs.Orders
import PortfolioLab.Proofs.Targets
import PortfolioLab.Proofs.Repetition
import PortfolioLab.Proofs.NearestCents
import PortfolioLab.Proofs.FailedFills
import PortfolioLab.Proofs.FailedPasses
import PortfolioLab.Proofs.CostDrift
import PortfolioLab.Proofs.NegativePrices
import PortfolioLab.Proofs.Arming
import PortfolioLab.Proofs.ConsistentBars
import PortfolioLab.Proofs.ExitPrices
import PortfolioLab.Proofs.DrawdownPrograms
import PortfolioLab.Proofs.EqualRisk
import PortfolioLab.Proofs.Continuation
import PortfolioLab.Proofs.LongRun
import PortfolioLab.Proofs.UnitShocks
import PortfolioLab.Proofs.SharpeRatios
import PortfolioLab.Proofs.Drawdowns
import PortfolioLab.Proofs.TailMeans
import PortfolioLab.Proofs.ScoreGroups
import PortfolioLab.Proofs.WeightTables
import PortfolioLab.Proofs.NearestQuotients
import PortfolioLab.Proofs.Fees
import PortfolioLab.Proofs.Sizing
import PortfolioLab.Proofs.TrueRanges
import PortfolioLab.Proofs.FeasibleParameters
