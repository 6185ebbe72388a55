import Kryon.FeeRouter
/-!
# Liquidation — permissionless liquidation and auto-deleveraging

A liquidation moves the closed size to the backstop at the oracle index, pays a capped reward, routes the rest of the
penalty and requires the account to have improved.  ADL closes part of the backstop's position against a counterparty in
profit and takes the realized gain, up to the unfunded shortfall.
-/
namespace Kryon.Liquidation

open Program

def MAX_REWARD_BPS_CAP : Nat := 1000
def MIN_PARTIAL_BPS : Nat := 1000

def setParams (w : World) (msg : Msg) (maxRewardBps partialBps : Nat) : Except Error World := do
  w.onlyRole .liquidation .riskAdmin msg.sender
  revertIf (maxRewardBps = 0 ∨ maxRewardBps > MAX_REWARD_BPS_CAP) .invalidConfig
  revertIf (partialBps < MIN_PARTIAL_BPS ∨ partialBps > 10000) .invalidConfig
  pure { w with liquidation := ⟨maxRewardBps, partialBps⟩ }

/-- The size `liquidate` closes: the plan, or the whole position once equity is not positive, capped by the caller. -/
def closeSizeFor (w : World) (trader : Address) (marketId : MarketId) (maxSize : Nat) :
    Except Error (Int × AccountHealth) := do
  let pos := w.engine.positions (trader, marketId)
  revertIf (pos.size = 0) .positionNotFound
  let (planned, before) ← Engine.planLiquidationSize w trader marketId w.liquidation.partialLiquidationBps
  let planned := if before.equity ≤ 0 then M.abs pos.size else planned
  let closeSize := M.min planned (M.toBoundedInt maxSize)
  revertIf (closeSize ≤ 0) .invalidAmount
  pure (closeSize, before)

/-- The penalty: a capped reward to the liquidator, the remainder to the fee router. -/
def payPenalty (D : Deployment) (w : World) (msg : Msg) (trader : Address) (marketId : MarketId)
    (closeSize price : Int) : Except Error World := do
  let m ← RiskParams.market w marketId
  let closedNotional ← RiskLib.notional closeSize price
  let penalty ← M.applyBps closedNotional m.liquidationFeeBps
  let rewardCap ← M.applyBps closedNotional w.liquidation.maxRewardBps
  let reward := M.min penalty rewardCap
  let w ← Vault.transferInternal w D.liquidation trader msg.sender reward
  if penalty > reward then do
    let w ← Vault.transferInternal w D.liquidation trader D.feeRouter (penalty - reward)
    FeeRouter.accrueLiquidationFee D w D.liquidation (penalty - reward)
  else pure w

/-- Whether a close improved the account: the ratio rose, or, when equity is not positive on both sides, maintenance
fell. -/
def improved (before after : AccountHealth) : Bool :=
  if before.equity > 0 ∧ after.equity > 0 then decide (after.marginRatio > before.marginRatio)
  else decide (after.maintenanceMarginRequired < before.maintenanceMarginRequired)

/-- Liquidates up to `maxSize` of `trader`'s position. -/
def liquidate (D : Deployment) (w : World) (msg : Msg) (trader : Address) (marketId : MarketId) (maxSize : Nat) :
    Except Error World := do
  w.whenNotPaused .liquidation
  revertIf (trader = msg.sender) .unauthorized
  revertIf (trader = D.insurance) .insuranceAccount
  revertIf (maxSize = 0) .invalidAmount
  let (closeSize, before) ← closeSizeFor w trader marketId maxSize
  let price ← Engine.indexPrice w marketId
  let (w, _) ← Engine.liquidationTransfer D w D.liquidation trader D.insurance marketId closeSize price
  let w ← payPenalty D w msg trader marketId closeSize price
  let after ← Engine.accountHealth w trader
  revertIf (improved before after = false) .liquidationWouldNotImproveHealth
  -- Insurance is the last resort, and only once nothing is left to close.
  if Engine.positionCount w trader = 0 ∧ w.vault.balances trader < 0 then do
    let (w, _) ← Insurance.settleBadDebt D w trader
    pure w
  else pure w

/-- Auto-deleverages a counterparty in profit against the backstop's opposite position. -/
def adl (D : Deployment) (w : World) (counterparty : Address) (marketId : MarketId) (maxSize : Nat) :
    Except Error World := do
  w.whenNotPaused .liquidation
  revertIf (counterparty = D.insurance) .insuranceAccount
  revertIf (maxSize = 0) .invalidAmount
  let shortfall ← Insurance.unfundedShortfall D w
  revertIf (shortfall ≤ 0) .noBadDebtToOffset
  let cp := w.engine.positions (counterparty, marketId)
  let bs := w.engine.positions (D.insurance, marketId)
  revertIf (cp.size = 0 ∨ bs.size = 0) .positionNotFound
  revertIf (decide (cp.size > 0) = decide (bs.size > 0)) .directionMismatch
  let price ← Engine.indexPrice w marketId
  let absCp := M.abs cp.size
  let n ← RiskLib.notional absCp price
  let upnl := (if cp.size > 0 then 1 else -1) * n - cp.openNotional
  revertIf (upnl ≤ 0) .positionNotInProfit
  let closeSize := M.min (M.toBoundedInt maxSize) (M.min absCp (M.abs bs.size))
  -- Never realise more gain than the shortfall it is meant to pay down.
  let paying ← M.mulDiv shortfall absCp upnl
  let closeSize := M.min closeSize paying
  revertIf (closeSize ≤ 0) .noBadDebtToOffset
  let (w, realized) ← Engine.adlTransfer D w D.liquidation D.insurance counterparty marketId closeSize price
  let haircut := M.min (M.max realized 0) shortfall
  if haircut > 0 then Vault.transferInternal w D.liquidation counterparty D.insurance haircut else pure w

end Kryon.Liquidation
