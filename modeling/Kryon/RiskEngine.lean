import Kryon.KryonMath
/-!
# RiskEngine — the Rust reference: `protocol_core` and `risk_engine`

The crates the Solidity libraries were ported from.  Rust's `i128`, `u32` and `u64` are types of their own here: every
value of `I128` is in range, and arithmetic checks its result.  Errors, order of the checks and loops are the crates'.
-/
namespace Kryon

open Program

/-- An `i128`. -/
@[ext] structure I128 where
  val : Int
  inRange : M.InRange val
  deriving DecidableEq

/-- An `ethnum::I256`. -/
@[ext] structure I256 where
  val : Int
  inRange : -2 ^ 255 ≤ val ∧ val < 2 ^ 255

namespace I128

def ZERO : I128 := ⟨0, by decide⟩
def ONE : I128 := ⟨1, by decide⟩
def MAX : I128 := ⟨I128_MAX, by decide⟩

theorem u32_inRange (n : UInt32) : M.InRange n.toNat := by
  have h := n.toNat_lt
  simp only [M.InRange, I128_MIN, I128_MAX]
  omega

/-- `bps as i128`. -/
def ofU32 (n : UInt32) : I128 := ⟨n.toNat, u32_inRange n⟩

theorem u64_inRange (n : UInt64) : M.InRange n.toNat := by
  have h := n.toNat_lt
  simp only [M.InRange, I128_MIN, I128_MAX]
  omega

/-- `elapsed as i128`. -/
def ofU64 (n : UInt64) : I128 := ⟨n.toNat, u64_inRange n⟩

theorem sub_inRange (a b : UInt32) : M.InRange (a.toNat - b.toNat) := by
  have ha := a.toNat_lt
  have hb := b.toNat_lt
  simp only [M.InRange, I128_MIN, I128_MAX]
  omega

/-- `a as i128 - b as i128`, which no two `u32` can overflow. -/
def subU32 (a b : UInt32) : I128 := ⟨a.toNat - b.toNat, sub_inRange a b⟩

theorem neg_inRange (a : I128) (ha : 0 < a.val) : M.InRange (-a.val) := by
  have h := a.inRange
  simp only [M.InRange, I128_MIN, I128_MAX] at h ⊢
  omega

/-- `-a`, for an `a` that is not `i128::MIN`. -/
def neg (a : I128) (ha : 0 < a.val) : I128 := ⟨-a.val, neg_inRange a ha⟩

/-- A value `i128` can hold, or `None`. -/
def checked (v : Int) : Option I128 := if h : M.InRange v then some ⟨v, h⟩ else none

end I128

namespace I256

theorem i128_inRange (a : I128) : -2 ^ 255 ≤ a.val ∧ a.val < 2 ^ 255 := by
  have h := a.inRange
  simp only [M.InRange, I128_MIN, I128_MAX] at h
  omega

/-- `I256::from`. -/
def ofI128 (a : I128) : I256 := ⟨a.val, i128_inRange a⟩

def checked (v : Int) : Option I256 := if h : -2 ^ 255 ≤ v ∧ v < 2 ^ 255 then some ⟨v, h⟩ else none

def checkedMul (a b : I256) : Option I256 := checked (a.val * b.val)

def checkedDiv (a b : I256) : Option I256 := if b.val = 0 then none else checked (a.val.tdiv b.val)

end I256

/-- The errors of `CoreError` that the risk engine returns. -/
inductive CoreError where
  | mathOverflow
  | divisionByZero
  | invalidAmount
  | invalidPrice
  | invalidConfig
  | insufficientCollateral
  | notLiquidatable
  deriving DecidableEq

/-- `Option::ok_or`. -/
def okOr {α : Type} (o : Option α) (e : CoreError) : Except CoreError α :=
  match o with
  | some a => .ok a
  | none => .error e

/-! ## protocol_core: fixed.rs and accounting.rs -/

namespace ProtocolCore

def PRECISION : I128 := ⟨10 ^ 18, by decide⟩
def BPS_DENOMINATOR : I128 := ⟨10000, by decide⟩
def SECS_PER_HOUR : UInt64 := 3600

def checkedAdd (a b : I128) : Except CoreError I128 := okOr (I128.checked (a.val + b.val)) .mathOverflow

def checkedSub (a b : I128) : Except CoreError I128 := okOr (I128.checked (a.val - b.val)) .mathOverflow

/-- Widens to 256 bits before it multiplies, and truncates toward zero. -/
def mulDiv (a b denominator : I128) : Except CoreError I128 := do
  revertIf (denominator.val = 0) .divisionByZero
  let value ← okOr ((I256.checkedMul (.ofI128 a) (.ofI128 b)).bind (I256.checkedDiv · (.ofI128 denominator)))
    .mathOverflow
  okOr (I128.checked value.val) .mathOverflow

def mulPrecision (a b : I128) : Except CoreError I128 := mulDiv a b PRECISION

def divPrecision (a b : I128) : Except CoreError I128 := mulDiv a PRECISION b

def applyBps (amount : I128) (bps : UInt32) : Except CoreError I128 := do
  revertIf ((I128.ofU32 bps).val > BPS_DENOMINATOR.val) .invalidConfig
  mulDiv amount (.ofU32 bps) BPS_DENOMINATOR

inductive MarginMode where
  | cross
  | isolated
  deriving DecidableEq

structure MarketConfig where
  initialMarginBps : UInt32
  maintenanceMarginBps : UInt32
  liquidationFeeBps : UInt32
  active : Bool

structure MarketSnapshot where
  config : MarketConfig
  oraclePrice : I128
  fundingIndexLong : I128
  fundingIndexShort : I128

structure Position where
  positionId : UInt64
  marketId : MarketId
  size : I128
  entryPrice : I128
  margin : I128
  isLong : Bool
  lastFundingIndex : I128
  mode : MarginMode

structure CollateralBalance where
  value : I128
  haircutBps : UInt32

structure AccountSnapshot where
  collateral : List CollateralBalance
  positions : List Position

/-- A `Map<u32, MarketSnapshot>`: at most one entry a key. -/
structure Markets where
  entries : List (MarketId × MarketSnapshot)
  nodup : (entries.map Prod.fst).Nodup

def Markets.get (markets : Markets) (marketId : MarketId) : Option MarketSnapshot :=
  (markets.entries.find? (fun e => e.1 = marketId)).map Prod.snd

def collateralValueAfterHaircut (value : I128) (haircutBps : UInt32) : Except CoreError I128 :=
  if value.val < 0 then pure value
  else do
    let haircut ← applyBps value haircutBps
    checkedSub value haircut

def notional (size price : I128) : Except CoreError I128 := do
  revertIf (size.val ≤ 0 ∨ price.val ≤ 0) .invalidAmount
  mulPrecision size price

def signedPositionPnl (position : Position) (markPrice : I128) : Except CoreError I128 := do
  revertIf (markPrice.val ≤ 0 ∨ position.size.val ≤ 0 ∨ position.entryPrice.val ≤ 0) .invalidPrice
  let priceDelta ←
    (if position.isLong then checkedSub markPrice position.entryPrice else checkedSub position.entryPrice markPrice)
  mulPrecision position.size priceDelta

def fundingPnl (position : Position) (currentIndex : I128) : Except CoreError I128 := do
  let delta ← checkedSub currentIndex position.lastFundingIndex
  let raw ← mulPrecision position.size delta
  checkedSub .ZERO raw

def addSigned (values : List I128) : Except CoreError I128 := values.foldlM checkedAdd .ZERO

end ProtocolCore

/-! ## risk_engine: margin.rs, liquidation.rs and funding.rs -/

namespace RiskEngine

open ProtocolCore

structure AccountHealth where
  collateralValue : I128
  unrealizedPnl : I128
  equity : I128
  initialMarginRequired : I128
  maintenanceMarginRequired : I128
  freeCollateral : I128
  marginRatio : I128
  liquidatable : Bool
  deriving DecidableEq

/-- `pnl_buf.len()`. -/
def PNL_BUF_LEN : Nat := 64

def getMarket (markets : Markets) (marketId : MarketId) : Except CoreError MarketSnapshot :=
  okOr (markets.get marketId) .invalidConfig

/-- What the first pass accumulates; `pnl_count` is the length of `pnlBuf`. -/
structure Totals where
  pnlBuf : List I128
  initial : I128
  maintenance : I128
  lockedIsolatedMargin : I128
  anyIsolatedLiquidatable : Bool

/-- One turn of the first pass. -/
def addPosition (markets : Markets) (t : Totals) (p : ProtocolCore.Position) : Except CoreError Totals := do
  revertIf (t.pnlBuf.length ≥ PNL_BUF_LEN) .invalidConfig
  let market ← getMarket markets p.marketId
  revertIf (market.config.active = false) .invalidConfig
  let currentFunding := if p.isLong then market.fundingIndexLong else market.fundingIndexShort
  let tradePnl ← signedPositionPnl p market.oraclePrice
  let fPnl ← fundingPnl p currentFunding
  let upnl ← checkedAdd tradePnl fPnl
  let n ← notional p.size market.oraclePrice
  let im ← applyBps n market.config.initialMarginBps
  let initial ← checkedAdd t.initial im
  let mm ← applyBps n market.config.maintenanceMarginBps
  let maintenance ← checkedAdd t.maintenance mm
  if p.mode = .isolated then do
    let lockedIsolatedMargin ← checkedAdd t.lockedIsolatedMargin p.margin
    let isoMaintenance ← applyBps n market.config.maintenanceMarginBps
    let isoEquity ← checkedAdd p.margin upnl
    pure ⟨t.pnlBuf ++ [upnl], initial, maintenance, lockedIsolatedMargin,
      if isoMaintenance.val > 0 ∧ isoEquity.val < isoMaintenance.val then true else t.anyIsolatedLiquidatable⟩
  else pure ⟨t.pnlBuf ++ [upnl], initial, maintenance, t.lockedIsolatedMargin, t.anyIsolatedLiquidatable⟩

def addCollateral (total : I128) (c : CollateralBalance) : Except CoreError I128 := do
  let v ← collateralValueAfterHaircut c.value c.haircutBps
  checkedAdd total v

/-- One turn of the second pass, over the isolated equity and the cross PnL. -/
def addEquity (t : I128 × I128) (e : ProtocolCore.Position × I128) : Except CoreError (I128 × I128) :=
  if e.1.mode = .isolated then do
    let iso ← checkedAdd e.1.margin e.2
    let isolatedEquity ← checkedAdd t.1 iso
    pure (isolatedEquity, t.2)
  else do
    let crossUnrealized ← checkedAdd t.2 e.2
    pure (t.1, crossUnrealized)

/-- One turn of the last pass. -/
def addCrossMaintenance (markets : Markets) (t : I128) (p : ProtocolCore.Position) : Except CoreError I128 :=
  if p.mode = .cross then do
    let market ← getMarket markets p.marketId
    let n ← notional p.size market.oraclePrice
    let mm ← applyBps n market.config.maintenanceMarginBps
    checkedAdd t mm
  else pure t

def marginRatioOf (equity maintenance : I128) : Except CoreError I128 :=
  if maintenance.val > 0 then divPrecision equity maintenance else pure .MAX

def accountHealth (account : AccountSnapshot) (markets : Markets) : Except CoreError AccountHealth := do
  let totalCollateralValue ← account.collateral.foldlM addCollateral .ZERO
  let t ← account.positions.foldlM (addPosition markets) ⟨[], .ZERO, .ZERO, .ZERO, false⟩
  let crossCollateral ← checkedSub totalCollateralValue t.lockedIsolatedMargin
  let (isolatedEquity, crossUnrealized) ← (account.positions.zip t.pnlBuf).foldlM addEquity (.ZERO, .ZERO)
  let unrealizedPnl ← addSigned t.pnlBuf
  let cross ← checkedAdd crossCollateral crossUnrealized
  let equity ← checkedAdd cross isolatedEquity
  let freeCollateral ← checkedSub equity t.initial
  let marginRatio ← marginRatioOf equity t.maintenance
  let crossMaintenance ← account.positions.foldlM (addCrossMaintenance markets) .ZERO
  let crossEquity ← checkedAdd crossCollateral crossUnrealized
  let crossLiquidatable := decide (crossMaintenance.val > 0) && decide (crossEquity.val < crossMaintenance.val)
  pure {
    collateralValue := totalCollateralValue
    unrealizedPnl := unrealizedPnl
    equity := equity
    initialMarginRequired := t.initial
    maintenanceMarginRequired := t.maintenance
    freeCollateral := freeCollateral
    marginRatio := marginRatio
    liquidatable := crossLiquidatable || t.anyIsolatedLiquidatable }

def validateWithdrawal (account : AccountSnapshot) (markets : Markets) (withdrawalValue : I128) :
    Except CoreError AccountHealth := do
  revertIf (withdrawalValue.val < 0) .invalidAmount
  let health ← accountHealth account markets
  let collateralValue ← checkedSub health.collateralValue withdrawalValue
  let equity ← checkedSub health.equity withdrawalValue
  let freeCollateral ← checkedSub equity health.initialMarginRequired
  let marginRatio ← marginRatioOf equity health.maintenanceMarginRequired
  revertIf (equity.val < health.initialMarginRequired.val) .insufficientCollateral
  pure { health with
    collateralValue := collateralValue
    equity := equity
    freeCollateral := freeCollateral
    marginRatio := marginRatio
    liquidatable := decide (health.maintenanceMarginRequired.val > 0) &&
      decide (equity.val < health.maintenanceMarginRequired.val) }

structure LiquidationPlan where
  mode : LiquidationMode
  positionId : UInt64
  closeSize : I128
  penalty : I128
  expectedHealth : AccountHealth

def findPosition (account : AccountSnapshot) (positionId : UInt64) : Except CoreError ProtocolCore.Position :=
  okOr (account.positions.find? (fun p => p.positionId = positionId)) .invalidConfig

/-- `min_size_to_cover`: the smallest close that restores maintenance net of the penalty. -/
def minSizeToCover (position : ProtocolCore.Position) (market : MarketSnapshot) (shortfall positionNotional : I128) :
    Except CoreError I128 := do
  let marginRateBps := I128.subU32 market.config.maintenanceMarginBps market.config.liquidationFeeBps
  if marginRateBps.val ≤ 0 then pure position.size
  else do
    let freedPerSize ← mulDiv positionNotional marginRateBps BPS_DENOMINATOR
    if freedPerSize.val ≤ 0 then pure position.size
    else do
      let q ← mulDiv position.size shortfall freedPerSize
      checkedAdd q .ONE

def planLiquidation (account : AccountSnapshot) (markets : Markets) (targetPositionId : UInt64)
    (partialLiquidationBps : UInt32) : Except CoreError LiquidationPlan := do
  let health ← accountHealth account markets
  revertIf (health.liquidatable = false) .notLiquidatable
  revertIf (partialLiquidationBps.toNat = 0 ∨ partialLiquidationBps.toNat > 10000) .invalidConfig
  let position ← findPosition account targetPositionId
  let market ← getMarket markets position.marketId
  let shortfall ← checkedSub health.maintenanceMarginRequired health.equity
  let positionNotional ← notional position.size market.oraclePrice
  let maxPartialSize ← mulDiv position.size (.ofU32 partialLiquidationBps) BPS_DENOMINATOR
  let minSizeToCover ← minSizeToCover position market shortfall positionNotional
  let closeSize :=
    if minSizeToCover.val ≥ position.size.val then position.size
    else if minSizeToCover.val ≤ maxPartialSize.val then minSizeToCover
    else maxPartialSize
  let closeNotional ← notional closeSize market.oraclePrice
  let penalty ← applyBps closeNotional market.config.liquidationFeeBps
  pure {
    mode := if closeSize.val ≥ position.size.val then .full else .partial_
    positionId := targetPositionId
    closeSize := closeSize
    penalty := penalty
    expectedHealth := health }

structure FundingConfig where
  imbalanceCoeff : I128
  maxRatePerHour : I128

structure FundingState where
  longIndex : I128
  shortIndex : I128
  ratePerHour : I128
  lastUpdate : UInt64

def MAX_FUNDING_ELAPSED_SECS : UInt64 := 3600

def clamp (value min max : I128) : I128 :=
  if value.val < min.val then min else if value.val > max.val then max else value

def updateFromPremium (cfg : FundingConfig) (state : FundingState) (premium : I128) (now : UInt64) :
    Except CoreError FundingState :=
  if h : cfg.imbalanceCoeff.val < 0 ∨ cfg.maxRatePerHour.val ≤ 0 then .error .invalidConfig
  else if now ≤ state.lastUpdate then pure state
  else do
    let rawRate ← mulPrecision premium cfg.imbalanceCoeff
    let rate := clamp rawRate (cfg.maxRatePerHour.neg (by omega)) cfg.maxRatePerHour
    let elapsed := Min.min (now - state.lastUpdate) MAX_FUNDING_ELAPSED_SECS
    let delta ← mulDiv rate (.ofU64 elapsed) (.ofU64 SECS_PER_HOUR)
    let longIndex ← checkedAdd state.longIndex delta
    let shortIndex ← checkedSub state.shortIndex delta
    pure ⟨longIndex, shortIndex, rate, now⟩

def premiumFromMark (mark index : I128) : Except CoreError I128 := do
  revertIf (index.val ≤ 0) .invalidPrice
  let d ← checkedSub mark index
  divPrecision d index

end RiskEngine
end Kryon
