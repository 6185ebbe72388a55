import Kryon.Lib.Program
import Kryon.Lib.Transition
import Kryon.Lib.Book
import Kryon.KryonMath
import Kryon.RiskLib
import Kryon.World
import Kryon.OracleAdapter
import Kryon.RiskParams
import Kryon.Bitmap
import Kryon.Ledger
import Kryon.Health
import Kryon.Engine
import Kryon.Vault
import Kryon.Abi
import Kryon.Insurance
import Kryon.FeeRouter
import Kryon.Liquidation
import Kryon.OrderGateway
import Kryon.System
import Kryon.Lib.Clearing
import Kryon.Trade
import Kryon.Holdings
import Kryon.Books
import Kryon.Settlement
import Kryon.Effects
import Kryon.Solvency
import Kryon.Sample
import Kryon.FundingPool
import Kryon.Validity
import Kryon.FeeLedger
import Kryon.Lib.Epochs
import Kryon.Shares
import Kryon.History
import Kryon.Orders
import Kryon.Backstop
import Kryon.Deficits
import Kryon.Lib.Latch
import Kryon.Pauses
import Kryon.Timelock
import Kryon.Veto
import Kryon.Escape
import Kryon.Lib.Average
import Kryon.MarketClock
import Kryon.MarkTwap
import Kryon.FundingClock
import Kryon.Lib.Median
import Kryon.Feeds
import Kryon.PushPrices
import Kryon.Snapshots
import Kryon.Lib.Agreement
import Kryon.RiskEngine
import Kryon.Differential
import Kryon.Debts
import Kryon.Margins
import Kryon.Basis
import Kryon.Deleveraging
import Kryon.Dust
import Kryon.Registry
import Kryon.Portfolios
import Kryon.Lib.Pool
import Kryon.Staking
import Kryon.Lib.Prefix
import Kryon.Matching
import Kryon.MatchSafety
import Kryon.MatchPriority
import Kryon.ReduceOnly
import Kryon.MatcherDb
import Kryon.Rejections
import Kryon.Lib.Numbering
import Kryon.FillIds
import Kryon.TxJobs
import Kryon.LiveTxs
import Kryon.FillTable
import Kryon.ShardInv
import Kryon.Release
import Kryon.Stranded
import Kryon.Stream
import Kryon.MarketTick
import Kryon.TxSender
import Kryon.SubmitOnce
import Kryon.TxNonces
import Kryon.Reconciler
import Kryon.Intake
import Kryon.Lib.Delivery
import Kryon.Indexer
import Kryon.Lib.Replay
import Kryon.Projections
import Kryon.Rebuild
import Kryon.LiveRun
import Kryon.Lib.Keyed
import Kryon.Metrics
import Kryon.Aggregator
import Kryon.StatPasses
import Kryon.Withdrawals
import Kryon.Closeouts
import Kryon.Restoring
import Kryon.Previews
import Kryon.Predictions
import Kryon.BackstopFills
import Kryon.Unwinder
import Kryon.Lib.Grouping
import Kryon.Amounts
import Kryon.Lib.Reverts
import Kryon.PauseReverts
import Kryon.Overflows
import Kryon.Progress
import Kryon.LiquidationKeeper
import Kryon.BadDebtKeeper
import Kryon.UnwindSignatures
import Kryon.OrderTicket
import Kryon.OrderSizes
import Kryon.Quotes
import Kryon.Lib.Der
import Kryon.KmsSignatures
import Kryon.Lib.WorkQueue
import Kryon.Batches
import Kryon.Custody
import Kryon.Downturns
import Kryon.DepositCaps
import Kryon.Authority
import Kryon.Freezes
import Kryon.Cooldowns
import Kryon.Exposure
import Kryon.FeeBounds
import Kryon.Lib.OrderedMap
import Kryon.Lib.Cursor
import Kryon.Lib.Hysteresis
import Kryon.PublicBook
import Kryon.Wire
import Kryon.StreamServer
import Kryon.StreamRegister
import Kryon.StreamDelivery
import Kryon.TradeTape
import Kryon.MarketStream
import Kryon.MarketSockets
import Kryon.Alerting
import Kryon.Digests
import Kryon.UnwindEnvelope
import Kryon.Consent
