import Kryon.World
/-!
# RiskParams — per-market risk configuration inside hard bounds
-/
namespace Kryon.RiskParams

open Program
open Function (update)

def MIN_INITIAL_MARGIN_BPS : Nat := 100
def MAX_INITIAL_MARGIN_BPS : Nat := 5000
def MIN_MAINTENANCE_MARGIN_BPS : Nat := 25
def MAX_LIQUIDATION_FEE_BPS : Nat := 500
def MAX_EXECUTION_DEVIATION_BPS : Nat := 1000
def MAX_ORACLE_AGE : Nat := 300
def MAX_ORACLE_CONFIDENCE_BPS : Nat := 500
def MAX_OPEN_INTEREST : Int := 10 ^ 30
def MAX_MIN_FILL_NOTIONAL : Int := 100000 * 10 ^ 18
def MAX_PREMIUM_COEFF : Int := 10 * 10 ^ 18
def MAX_FUNDING_RATE_PER_HOUR : Int := 10 ^ 16
def MAX_OI_POLICY_BPS : Nat := 1000000
def MAX_MARKETS : Nat := 32
def MAX_MARKET_ID : Nat := 255

/-- A value held between two bounds, or `ParameterOutOfBounds` under the field's name. -/
def checkBounds (name : String) (value lo hi : Int) : Except Error Unit :=
  revertIf (value < lo ∨ value > hi) (.parameterOutOfBounds name value)

def validateMarket (p : MarketParams) : Except Error Unit := do
  revertIf (p.oracleId = 0) .invalidConfig
  checkBounds "initialMarginBps" p.initialMarginBps MIN_INITIAL_MARGIN_BPS MAX_INITIAL_MARGIN_BPS
  checkBounds "maintenanceMarginBps" p.maintenanceMarginBps MIN_MAINTENANCE_MARGIN_BPS p.initialMarginBps
  -- A penalty above maintenance would itself push a just-liquidatable account into bad debt.
  revertIf (p.liquidationFeeBps > MAX_LIQUIDATION_FEE_BPS ∨ p.liquidationFeeBps > p.maintenanceMarginBps)
    (.parameterOutOfBounds "liquidationFeeBps" p.liquidationFeeBps)
  checkBounds "maxExecutionDeviationBps" p.maxExecutionDeviationBps 1 MAX_EXECUTION_DEVIATION_BPS
  checkBounds "maxOracleAge" p.maxOracleAge 1 MAX_ORACLE_AGE
  checkBounds "maxOracleConfidenceBps" p.maxOracleConfidenceBps 1 MAX_ORACLE_CONFIDENCE_BPS
  -- The bound is computed only once the value is known to be nonzero; `initialMarginBps` is nonzero by now.
  let implied ← RiskLib.impliedMaxLeverageBps p.initialMarginBps
  checkBounds "maxLeverageBps" p.maxLeverageBps 1 implied
  checkBounds "maxOpenInterest" p.maxOpenInterest 1 MAX_OPEN_INTEREST
  checkBounds "minFillNotional" p.minFillNotional 0 MAX_MIN_FILL_NOTIONAL

/-- Lists a market or replaces its parameters; a listed market keeps its oracle. -/
def setMarket (w : World) (msg : Msg) (marketId : MarketId) (params : MarketParams) : Except Error World := do
  w.onlyRole .risk .riskAdmin msg.sender
  revertIf (marketId = 0 ∨ marketId.toNat > MAX_MARKET_ID) .invalidConfig
  validateMarket params
  let m := w.risk.markets marketId
  let ids ←
    (if m.listed = false then do
      revertIf (w.risk.ids.length ≥ MAX_MARKETS) .invalidConfig
      pure (w.risk.ids ++ [marketId])
    else do
      revertIf (m.oracleId ≠ params.oracleId) .invalidConfig
      pure w.risk.ids)
  pure { w with risk := { w.risk with
    ids := ids
    markets := update w.risk.markets marketId { params with listed := true } } }

/-- A listed market's parameters. -/
def market (w : World) (marketId : MarketId) : Except Error MarketParams := do
  let m := w.risk.markets marketId
  revertIf (m.listed = false) (.unknownMarket marketId)
  pure m

def setMarketActive (w : World) (msg : Msg) (marketId : MarketId) (active : Bool) : Except Error World := do
  w.onlyRole .risk .riskAdmin msg.sender
  let m ← market w marketId
  pure { w with risk := { w.risk with markets := update w.risk.markets marketId { m with active := active } } }

def setFundingConfig (w : World) (msg : Msg) (marketId : MarketId) (cfg : FundingConfig) : Except Error World := do
  w.onlyRole .risk .riskAdmin msg.sender
  let _ ← market w marketId
  checkBounds "premiumCoeff" cfg.premiumCoeff 0 MAX_PREMIUM_COEFF
  checkBounds "maxRatePerHour" cfg.maxRatePerHour 1 MAX_FUNDING_RATE_PER_HOUR
  pure { w with risk := { w.risk with funding := update w.risk.funding marketId cfg } }

def setOiPolicy (w : World) (msg : Msg) (marketId : MarketId) (bps : Nat) : Except Error World := do
  w.onlyRole .risk .riskAdmin msg.sender
  let _ ← market w marketId
  revertIf (bps > MAX_OI_POLICY_BPS) (.parameterOutOfBounds "oiPolicyBps" bps)
  revertIf (w.risk.totalOiPolicyBps < w.risk.oiPolicyBps marketId) .panic
  let newTotal := w.risk.totalOiPolicyBps - w.risk.oiPolicyBps marketId + bps
  revertIf (w.risk.maxTotalOiPolicyBps ≠ 0 ∧ newTotal > w.risk.maxTotalOiPolicyBps) .aggregateOiPolicyExceeded
  pure { w with risk := { w.risk with
    oiPolicyBps := update w.risk.oiPolicyBps marketId bps
    totalOiPolicyBps := newTotal } }

def setMaxTotalOiPolicyBps (w : World) (msg : Msg) (bps : Nat) : Except Error World := do
  w.onlyRole .risk .riskAdmin msg.sender
  revertIf (bps > MAX_OI_POLICY_BPS * MAX_MARKETS) (.parameterOutOfBounds "maxTotalOiPolicyBps" bps)
  pure { w with risk := { w.risk with maxTotalOiPolicyBps := bps } }

end Kryon.RiskParams
