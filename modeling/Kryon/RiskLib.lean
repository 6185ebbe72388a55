import Kryon.KryonMath
/-!
# RiskLib — account health, liquidation sizing and funding rates

The pure margin math: `RiskLib.accountHealth` over a list of positions, `LiquidationLib.planLiquidation` over a health,
and `FundingLib` over the funding clock.  Each loop of the source is a left fold of one body over the source's array.
-/
namespace Kryon

open Program

namespace RiskLib

/-- The health buffer's fixed capacity. -/
def MAX_POSITIONS : Nat := 64

def collateralValueAfterHaircut (value : Int) (haircutBps : Nat) : Except Error Int :=
  if value < 0 then pure value
  else do
    let haircut ← M.applyBps value haircutBps
    M.sub value haircut

/-- Leverage cap implied by an initial-margin requirement, in bps. -/
def impliedMaxLeverageBps (initialMarginBps : Nat) : Except Error Nat := do
  revertIf (initialMarginBps = 0) .invalidConfig
  pure (100000000 / initialMarginBps)

def maxLeverageBps (initialMarginBps : Nat) : Except Error Int := do
  revertIf (initialMarginBps = 0) .invalidConfig
  M.mulDiv 10000 PRECISION initialMarginBps

def notional (size price : Int) : Except Error Int := do
  revertIf (size ≤ 0 ∨ price ≤ 0) .invalidAmount
  M.mulPrecision size price

def signedPositionPnl (p : RiskPosition) (markPrice : Int) : Except Error Int := do
  revertIf (markPrice ≤ 0 ∨ p.size ≤ 0 ∨ p.entryPrice ≤ 0) .invalidPrice
  let priceDelta ← (if p.isLong then M.sub markPrice p.entryPrice else M.sub p.entryPrice markPrice)
  M.mulPrecision p.size priceDelta

def fundingPnl (p : RiskPosition) (currentIndex : Int) : Except Error Int := do
  let delta ← M.sub currentIndex p.lastFundingIndex
  let owed ← M.mulPrecision p.size delta
  M.sub 0 owed

def findMarket (markets : List RiskMarket) (marketId : MarketId) : Except Error RiskMarket :=
  match markets.find? (fun m => m.marketId = marketId) with
  | some m => .ok m
  | none => .error .invalidConfig

/-- What the first loop over the positions accumulates. -/
structure Totals where
  upnls : List Int
  initial : Int
  maintenance : Int
  lockedIsolated : Int
  anyIsolatedLiquidatable : Bool

/-- One turn of the first loop: a position's PnL, its margins and, when it is isolated, its own liquidation test. -/
def addPosition (markets : List RiskMarket) (t : Totals) (e : RiskPosition × Nat) : Except Error Totals := do
  let (p, i) := e
  revertIf (i ≥ MAX_POSITIONS) .invalidConfig
  let m ← findMarket markets p.marketId
  revertIf (m.active = false) .invalidConfig
  let currentFunding := if p.isLong then m.fundingIndexLong else m.fundingIndexShort
  let tradePnl ← signedPositionPnl p m.oraclePrice
  let fPnl ← fundingPnl p currentFunding
  let upnl ← M.add tradePnl fPnl
  let n ← notional p.size m.oraclePrice
  let im ← M.applyBps n m.initialMarginBps
  let initial ← M.add t.initial im
  let mm ← M.applyBps n m.maintenanceMarginBps
  let maintenance ← M.add t.maintenance mm
  if p.isolated then do
    let lockedIsolated ← M.add t.lockedIsolated p.margin
    let isoMaintenance ← M.applyBps n m.maintenanceMarginBps
    let isoEquity ← M.add p.margin upnl
    pure ⟨t.upnls ++ [upnl], initial, maintenance, lockedIsolated,
      t.anyIsolatedLiquidatable || (decide (isoMaintenance > 0) && decide (isoEquity < isoMaintenance))⟩
  else pure ⟨t.upnls ++ [upnl], initial, maintenance, t.lockedIsolated, t.anyIsolatedLiquidatable⟩

def addCollateral (total : Int) (c : RiskCollateral) : Except Error Int := do
  let v ← collateralValueAfterHaircut c.value c.haircutBps
  M.add total v

/-- One turn of the second loop: isolated losses count in full, never floored at the margin. -/
def addEquity (t : Int × Int) (e : RiskPosition × Int) : Except Error (Int × Int) :=
  if e.1.isolated then do
    let iso ← M.add e.1.margin e.2
    let isolatedEquity ← M.add t.1 iso
    pure (isolatedEquity, t.2)
  else do
    let crossUnrealized ← M.add t.2 e.2
    pure (t.1, crossUnrealized)

/-- One turn of the last loop: the maintenance of the cross positions. -/
def addCrossMaintenance (markets : List RiskMarket) (t : Int) (p : RiskPosition) : Except Error Int :=
  if p.isolated then pure t
  else do
    let m ← findMarket markets p.marketId
    let n ← notional p.size m.oraclePrice
    let mm ← M.applyBps n m.maintenanceMarginBps
    M.add t mm

def marginRatioOf (equity maintenance : Int) : Except Error Int :=
  if maintenance > 0 then M.divPrecision equity maintenance else pure I128_MAX

def accountHealth (collateral : List RiskCollateral) (positions : List RiskPosition) (markets : List RiskMarket) :
    Except Error AccountHealth := do
  let totalCollateral ← collateral.foldlM addCollateral 0
  let t ← positions.zipIdx.foldlM (addPosition markets) ⟨[], 0, 0, 0, false⟩
  -- May be negative: that is the underwater signal, never clamped.
  let crossCollateral ← M.sub totalCollateral t.lockedIsolated
  let (isolatedEquity, crossUnrealized) ← (positions.zip t.upnls).foldlM addEquity (0, 0)
  let unrealized ← t.upnls.foldlM M.add 0
  let cross ← M.add crossCollateral crossUnrealized
  let equity ← M.add cross isolatedEquity
  let freeCollateral ← M.sub equity t.initial
  let marginRatio ← marginRatioOf equity t.maintenance
  let crossMaintenance ← positions.foldlM (addCrossMaintenance markets) 0
  let crossEquity ← M.add crossCollateral crossUnrealized
  pure {
    collateralValue := totalCollateral
    unrealizedPnl := unrealized
    equity := equity
    initialMarginRequired := t.initial
    maintenanceMarginRequired := t.maintenance
    freeCollateral := freeCollateral
    marginRatio := marginRatio
    liquidatable :=
      (decide (crossMaintenance > 0) && decide (crossEquity < crossMaintenance)) || t.anyIsolatedLiquidatable }

/-- The health after `withdrawalValue` is removed. -/
def applyWithdrawal (h : AccountHealth) (withdrawalValue : Int) : Except Error AccountHealth := do
  let collateralValue ← M.sub h.collateralValue withdrawalValue
  let equity ← M.sub h.equity withdrawalValue
  let freeCollateral ← M.sub equity h.initialMarginRequired
  let marginRatio ← marginRatioOf equity h.maintenanceMarginRequired
  pure { h with
    collateralValue := collateralValue
    equity := equity
    freeCollateral := freeCollateral
    marginRatio := marginRatio
    liquidatable :=
      decide (h.maintenanceMarginRequired > 0) && decide (equity < h.maintenanceMarginRequired) }

def validateWithdrawal (collateral : List RiskCollateral) (positions : List RiskPosition) (markets : List RiskMarket)
    (withdrawalValue : Int) : Except Error AccountHealth := do
  revertIf (withdrawalValue < 0) .invalidAmount
  let h ← accountHealth collateral positions markets
  let h ← applyWithdrawal h withdrawalValue
  revertIf (h.equity < h.initialMarginRequired) .insufficientCollateral
  pure h

end RiskLib

/-! ## LiquidationLib -/

namespace LiquidationLib

def find (positions : List RiskPosition) (positionId : Nat) : Except Error RiskPosition :=
  match positions.find? (fun p => p.positionId = positionId) with
  | some p => .ok p
  | none => .error .invalidConfig

/-- The smallest close that restores maintenance net of the penalty: `size * shortfall / (notional * (mm - fee))`, and
one more unit against rounding. -/
def minToCover (position : RiskPosition) (market : RiskMarket) (shortfall positionNotional : Int) :
    Except Error Int := do
  let marginRateBps : Int := market.maintenanceMarginBps - market.liquidationFeeBps
  if marginRateBps ≤ 0 then pure position.size
  else do
    let freed ← M.mulDiv positionNotional marginRateBps 10000
    if freed ≤ 0 then pure position.size
    else do
      let q ← M.mulDiv position.size shortfall freed
      M.add q 1

/-- Sizes the smallest close that restores maintenance, capped at `partialLiquidationBps` of the position. -/
def planLiquidation (collateral : List RiskCollateral) (positions : List RiskPosition) (markets : List RiskMarket)
    (targetPositionId partialLiquidationBps : Nat) : Except Error LiquidationPlan := do
  let health ← RiskLib.accountHealth collateral positions markets
  revertIf (health.liquidatable = false) .notLiquidatable
  revertIf (partialLiquidationBps = 0 ∨ partialLiquidationBps > 10000) .invalidConfig
  let position ← find positions targetPositionId
  let market ← RiskLib.findMarket markets position.marketId
  let shortfall ← M.sub health.maintenanceMarginRequired health.equity
  let positionNotional ← RiskLib.notional position.size market.oraclePrice
  let maxPartial ← M.mulDiv position.size partialLiquidationBps 10000
  let minToCover ← minToCover position market shortfall positionNotional
  let closeSize :=
    if minToCover ≥ position.size then position.size
    else if minToCover ≤ maxPartial then minToCover
    else maxPartial
  let closeNotional ← RiskLib.notional closeSize market.oraclePrice
  let penalty ← M.applyBps closeNotional market.liquidationFeeBps
  pure {
    mode := if closeSize ≥ position.size then .full else .partial_
    positionId := targetPositionId
    closeSize := closeSize
    penalty := penalty
    expectedHealth := health }

end LiquidationLib

/-! ## FundingLib -/

namespace FundingLib

/-- Cap on the elapsed time one update may charge for. -/
def MAX_FUNDING_ELAPSED_SECS : Nat := 3600

/-- Advances the funding indexes; `now ≤ lastUpdate` returns the state unchanged. -/
def updateFromPremium (cfg : FundingConfig) (state : FundingState) (premium : Int) (now : Nat) :
    Except Error FundingState := do
  revertIf (cfg.premiumCoeff < 0 ∨ cfg.maxRatePerHour ≤ 0) .invalidConfig
  if now ≤ state.lastUpdate then pure state
  else do
    let rawRate ← M.mulPrecision premium cfg.premiumCoeff
    let rate := M.clamp rawRate (-cfg.maxRatePerHour) cfg.maxRatePerHour
    let elapsed := Nat.min (now - state.lastUpdate) MAX_FUNDING_ELAPSED_SECS
    let delta ← M.mulDiv rate elapsed M.SECS_PER_HOUR
    let longIndex ← M.add state.longIndex delta
    let shortIndex ← M.sub state.shortIndex delta
    pure ⟨longIndex, shortIndex, rate, now⟩

/-- `(mark - index) / index`, scaled by `PRECISION`. -/
def premiumFromMark (mark index : Int) : Except Error Int := do
  revertIf (index ≤ 0) .invalidPrice
  let d ← M.sub mark index
  M.divPrecision d index

end FundingLib
end Kryon
