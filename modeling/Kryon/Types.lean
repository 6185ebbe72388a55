import Mathlib.Algebra.Ring.Nat
import Mathlib.Data.Fintype.Basic
import Mathlib.Data.Fintype.Card
import Mathlib.Logic.Function.Basic
/-!
# Types — addresses, errors and the records the contracts share

`uint256`, `uint64` and the smaller unsigned words are `Nat`, and signed words are `Int`; where a width decides an
outcome, the function that reads the value checks it, as the source does.  Account addresses and market ids are finite
types, so that a sum over every account or every market is a sum over the type.
-/
namespace Kryon

-- The wraps of a literal, by name: every module then builds its literals on the same proof.
instance neZero_address : NeZero (2 ^ 160) := ⟨by decide⟩
instance neZero_bytes32 : NeZero (2 ^ 256) := ⟨by decide⟩

/-- A 160-bit account address. -/
def Address : Type := Fin (2 ^ 160)

instance : DecidableEq Address := inferInstanceAs (DecidableEq (Fin (2 ^ 160)))
instance : Fintype Address := inferInstanceAs (Fintype (Fin (2 ^ 160)))
instance (n : Nat) : OfNat Address n := ⟨Fin.ofNat (2 ^ 160) n⟩

/-- A `uint32` market id. -/
def MarketId : Type := Fin (2 ^ 32)

instance : DecidableEq MarketId := inferInstanceAs (DecidableEq (Fin (2 ^ 32)))
instance : Fintype MarketId := inferInstanceAs (Fintype (Fin (2 ^ 32)))
instance (n : Nat) : OfNat MarketId n := ⟨Fin.ofNat (2 ^ 32) n⟩

def MarketId.toNat (m : MarketId) : Nat := Fin.val m

/-- The `uint32` a number below `2 ^ 32` is. -/
def MarketId.ofNat (n : Nat) : MarketId := Fin.ofNat (2 ^ 32) n

theorem MarketId.toNat_injective {m n : MarketId} (h : m.toNat = n.toNat) : m = n := Fin.ext h

theorem MarketId.toNat_ofNat {n : Nat} (h : n < 2 ^ 32) : (MarketId.ofNat n).toNat = n := Nat.mod_eq_of_lt h

theorem MarketId.ofNat_toNat (m : MarketId) : MarketId.ofNat m.toNat = m :=
  MarketId.toNat_injective (MarketId.toNat_ofNat m.isLt)

abbrev Bytes := List UInt8

/-- A 32-byte word: an EIP-712 digest. -/
abbrev Bytes32 := Fin (2 ^ 256)

/-- Membership in a list of hashes is decided by their equality. -/
instance Bytes32.lawfulBEq : LawfulBEq Bytes32 := inferInstance

/-- The reverts: the protocol's errors, OpenZeppelin's and the compiler's own. -/
inductive Error where
  | mathOverflow
  | divisionByZero
  | invalidAmount
  | invalidPrice
  | invalidConfig
  | staleOracle
  | oracleConfidenceTooWide
  | insufficientCollateral
  | notLiquidatable
  | unauthorized
  | assetDisabled
  | positionNotFound
  | directionMismatch
  | priceOutsideBand
  | openInterestExceeded
  | liquidationWouldNotImproveHealth
  | insuranceFundInsufficient
  | orderExpired
  | orderCancelled
  | orderOverfilled
  | selfTrade
  | duplicateOracleSource
  | tooManyPositions
  | depositCapExceeded
  | aggregateOiPolicyExceeded
  | noBadDebtToOffset
  | positionNotInProfit
  | zeroAddress
  | collateralNotSupported (token : Address)
  | invalidSignature
  | nonceReused
  | fillBelowMinNotional
  | marketInactive (marketId : MarketId)
  | parameterOutOfBounds (name : String) (value : Int)
  | onlySelf
  | batchTooLarge
  | insufficientBatchGas
  | feeRateOutOfBounds
  | netFeeBelowFloor
  | unknownFeeTier (tier : Nat)
  | unknownMarket (marketId : MarketId)
  | unknownFeed (id : Nat)
  | cooldownActive
  | noPendingUnstake
  | unstakePending
  | hasOpenPositions
  | insuranceAccount
  | pauseCooldownActive
  | vetoCooldownActive
  | executionPaused
  | backstopUnwindDisabled
  | backstopLimitExceeded
  | enforcedPause
  | expectedPause
  | accessControlUnauthorizedAccount
  | tokenTransferFailed
  | outOfGas
  | abiDecoding
  | panic
  deriving DecidableEq

/-- An account's net position in one market: `size` is signed, `openNotional` is its signed cost basis. -/
structure Position where
  size : Int
  openNotional : Int
  lastFundingIndex : Int
  deriving DecidableEq

def Position.empty : Position := ⟨0, 0, 0⟩

structure MarketParams where
  oracleId : Nat
  initialMarginBps : Nat
  maintenanceMarginBps : Nat
  liquidationFeeBps : Nat
  maxExecutionDeviationBps : Nat
  maxOracleConfidenceBps : Nat
  maxOracleAge : Nat
  maxLeverageBps : Nat
  active : Bool
  listed : Bool
  maxOpenInterest : Int
  minFillNotional : Int
  deriving DecidableEq

structure FundingConfig where
  premiumCoeff : Int
  maxRatePerHour : Int
  deriving DecidableEq

structure FundingState where
  longIndex : Int
  shortIndex : Int
  ratePerHour : Int
  lastUpdate : Nat
  deriving DecidableEq

structure MarkState where
  lastPrice : Int
  lastTs : Nat
  cumulative : Int
  windowStart : Nat
  deriving DecidableEq

structure AccountHealth where
  collateralValue : Int
  unrealizedPnl : Int
  equity : Int
  initialMarginRequired : Int
  maintenanceMarginRequired : Int
  freeCollateral : Int
  marginRatio : Int
  liquidatable : Bool
  deriving DecidableEq

structure RiskCollateral where
  value : Int
  haircutBps : Nat

structure RiskPosition where
  positionId : Nat
  marketId : MarketId
  size : Int
  entryPrice : Int
  margin : Int
  isLong : Bool
  lastFundingIndex : Int
  isolated : Bool

structure RiskMarket where
  marketId : MarketId
  initialMarginBps : Nat
  maintenanceMarginBps : Nat
  liquidationFeeBps : Nat
  active : Bool
  oraclePrice : Int
  fundingIndexLong : Int
  fundingIndexShort : Int

inductive LiquidationMode where
  | none
  | partial_
  | full
  deriving DecidableEq

structure LiquidationPlan where
  mode : LiquidationMode
  positionId : Nat
  closeSize : Int
  penalty : Int
  expectedHealth : AccountHealth

inductive OracleSource where
  | none
  | quorum
  deriving DecidableEq

structure OracleSnapshot where
  price : Int
  confidence : Int
  publishTime : Nat
  writeTime : Nat
  source : OracleSource
  sourceCount : Nat
  deriving DecidableEq

/-- A trader's signed intent. -/
structure Order where
  owner : Address
  marketId : MarketId
  isLong : Bool
  size : Nat
  limitPrice : Nat
  reduceOnly : Bool
  nonce : Nat
  expiry : Nat
  referrer : Address
  deriving DecidableEq

/-- A signed off-chain cancel. -/
structure Cancel where
  owner : Address
  nonce : Nat
  deadline : Nat
  deriving DecidableEq

/-- One matched fill as submitted by the operator. -/
structure Fill where
  fillId : Nat
  maker : Order
  makerSignature : Bytes
  taker : Order
  takerSignature : Bytes
  size : Nat
  price : Nat
  deriving DecidableEq

end Kryon
