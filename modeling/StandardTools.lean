import StandardTools.Lib.Causal
import StandardTools.Lib.Between
import StandardTools.Lib.Smoothing
import StandardTools.Lib.Runs
import StandardTools.Lib.OrderStatistics
import StandardTools.Lib.LinearViews
import StandardTools.Lib.DampedScaling
import StandardTools.Lib.ScalingPotential
import StandardTools.Lib.Drawdown
import StandardTools.Lib.Scatter
import StandardTools.Lib.PlaneRotation
import StandardTools.Lib.PartialSums
import StandardTools.Lib.Partition
import StandardTools.Lib.Threads
import StandardTools.Lib.Layers
import StandardTools.Lib.Simulation
import StandardTools.Lib.Binary64
import StandardTools.Core.Double
import StandardTools.Core.ValueObjects
import StandardTools.Core.Cmath
import StandardTools.Core.Checked
import StandardTools.Core.Binary64
import StandardTools.Core.Libm
import StandardTools.Config.Load
import StandardTools.Indicators.Calculator
import StandardTools.Indicators.Averages
import StandardTools.Indicators.Ranges
import StandardTools.Indicators.Reflection
import StandardTools.Indicators.Affine
import StandardTools.Indicators.Causality
import StandardTools.Indicators.PriceUnit
import StandardTools.Indicators.WarmUp
import StandardTools.Metrics.RiskReturn
import StandardTools.Metrics.OneDrawdown
import StandardTools.Metrics.TailRisk
import StandardTools.Backtest.Engine
import StandardTools.Backtest.Run
import StandardTools.Backtest.Ledger
import StandardTools.Backtest.NoLookAhead
import StandardTools.Backtest.Solvency
import StandardTools.Backtest.WalkForward
import StandardTools.Backtest.Windows
import StandardTools.Backtest.Compounding
import StandardTools.Backtest.CombinedTrades
import StandardTools.Backtest.CombinedMetrics
import StandardTools.Backtest.OutOfSample
import StandardTools.Backtest.GridSearch
import StandardTools.Backtest.Failure
import StandardTools.Backtest.Exposure
import StandardTools.Backtest.Commission
import StandardTools.Backtest.MonteCarlo
import StandardTools.Backtest.Resampling
import StandardTools.Backtest.DrawdownInterval
import StandardTools.Backtest.PriceUnit
import StandardTools.Backtest.CapitalUnit
import StandardTools.Backtest.Crossover
import StandardTools.Backtest.Reflection
import StandardTools.Analysis.Options
import StandardTools.Analysis.NoArbitrage
import StandardTools.Analysis.Calculator
import StandardTools.Analysis.Multivariate
import StandardTools.Analysis.Requests
import StandardTools.Analysis.Observations
import StandardTools.Analysis.Regression
import StandardTools.Analysis.Cointegration
import StandardTools.Analysis.Correlation
import StandardTools.Analysis.Parity
import StandardTools.Analysis.Domain
import StandardTools.Analysis.PrincipalComponents
import StandardTools.Analysis.Hurst
import StandardTools.Analysis.Jacobi
import StandardTools.Portfolio.Matrices
import StandardTools.Portfolio.Inverse
import StandardTools.Portfolio.Optimizer
import StandardTools.Portfolio.Funds
import StandardTools.Portfolio.Frontier
import StandardTools.Portfolio.BlackLitterman
import StandardTools.Portfolio.Targets
import StandardTools.Portfolio.Sharpe
import StandardTools.Portfolio.Posterior
import StandardTools.Portfolio.MasterFormula
import StandardTools.Portfolio.RiskParity
import StandardTools.Portfolio.RiskBudget
import StandardTools.Portfolio.EqualRisk
import StandardTools.Portfolio.Pivots
import StandardTools.Portfolio.Equivariance
import StandardTools.Portfolio.Validation
import StandardTools.Portfolio.AssetOrder
import StandardTools.Portfolio.ExpertViews
import StandardTools.Portfolio.ViewOrder
import StandardTools.MarketData.Service
import StandardTools.MarketData.Transparency
import StandardTools.MarketData.Concurrent
import StandardTools.MarketData.Keys
import StandardTools.MarketData.Settled
import StandardTools.MarketData.Synthetic
import StandardTools.Screener.Service
import StandardTools.Screener.Universe
import StandardTools.Screener.Hardcoded
import StandardTools.Audit.Chain
import StandardTools.Audit.Soundness
import StandardTools.Audit.TamperEvidence
import StandardTools.Audit.Interleaving
import StandardTools.Audit.Postgres
import StandardTools.Audit.RoundTrip
import StandardTools.Audit.Export
import StandardTools.Audit.Backends
import StandardTools.Audit.Cli
import StandardTools.Api.Handlers
import StandardTools.Api.Calls
import StandardTools.Api.Attribution
import StandardTools.Api.Encoding
import StandardTools.Api.Completeness
import StandardTools.Api.Retries
import StandardTools.Api.Parsing
import StandardTools.Api.Routes
import StandardTools.Api.Concurrency
import StandardTools.Api.Auth
import StandardTools.Api.Startup
import StandardTools.Api.IndicatorParams
import StandardTools.Agent.Tool
import StandardTools.Agent.Requests
import StandardTools.Agent.Results
import StandardTools.Agent.Dispatcher
import StandardTools.Agent.Answers
import StandardTools.Agent.Stateless
import StandardTools.Agent.Texts
import StandardTools.Agent.Replay
