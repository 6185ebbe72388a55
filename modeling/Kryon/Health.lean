import Kryon.Bitmap
import Kryon.OracleAdapter
import Kryon.RiskParams
/-!
# Health — the engine's view of an account and Insurance's view of its capital

`Engine.riskInputs` reads an account's open markets into the arrays the risk library takes, and every margin check goes
through it.  The Insurance views price the backstop's own account on the same path.
-/
namespace Kryon

open Program

namespace Engine

/-- The validated oracle index of a market, under the market's own bounds. -/
def indexOf (w : World) (m : MarketParams) : Except Error Int := do
  let snap ← OracleAdapter.getPrice w m.oracleId m.maxOracleAge m.maxOracleConfidenceBps
  pure snap.price

def indexPrice (w : World) (marketId : MarketId) : Except Error Int := do
  let m ← RiskParams.market w marketId
  indexOf w m

def positionCount (w : World) (trader : Address) : Nat := Bitmap.popcount (w.engine.marketBitmap trader)

/-- One position and its market, as the risk library reads them.  Entry comes from the exact basis, floored at one so
that a dust basis stays priceable. -/
def riskInput (w : World) (trader : Address) (id : MarketId) : Except Error (RiskPosition × RiskMarket) := do
  let pos := w.engine.positions (trader, id)
  let m ← RiskParams.market w id
  let f := w.engine.funding id
  let absSize := M.abs pos.size
  let entry ← M.divPrecision (M.abs pos.openNotional) absSize
  let index ← indexOf w m
  pure
    ({ positionId := id.toNat
       marketId := id
       size := absSize
       entryPrice := M.max 1 entry
       margin := 0
       isLong := decide (pos.size > 0)
       lastFundingIndex := pos.lastFundingIndex
       isolated := false },
     { marketId := id
       initialMarginBps := m.initialMarginBps
       maintenanceMarginBps := m.maintenanceMarginBps
       liquidationFeeBps := m.liquidationFeeBps
       active := true
       oraclePrice := index
       fundingIndexLong := f.longIndex
       fundingIndexShort := f.shortIndex })

def riskInputs (w : World) (trader : Address) :
    Except Error (List RiskCollateral × List RiskPosition × List RiskMarket) := do
  let inputs ← (Bitmap.marketIds (w.engine.marketBitmap trader)).mapM (riskInput w trader)
  pure ([⟨w.vault.balances trader, 0⟩], inputs.map (·.1), inputs.map (·.2))

def accountHealth (w : World) (trader : Address) : Except Error AccountHealth := do
  let (c, p, mk) ← riskInputs w trader
  RiskLib.accountHealth c p mk

/-- Account value and whether it could be priced; never reverts. -/
def accountValue (w : World) (trader : Address) : Int × Bool :=
  match accountHealth w trader with
  | .ok h => (h.equity, true)
  | .error _ => (0, false)

def validateWithdrawal (w : World) (trader : Address) (withdrawalValue : Int) : Except Error AccountHealth := do
  let (c, p, mk) ← riskInputs w trader
  RiskLib.validateWithdrawal c p mk withdrawalValue

def planLiquidationSize (w : World) (trader : Address) (marketId : MarketId) (partialBps : Nat) :
    Except Error (Int × AccountHealth) := do
  let (c, p, mk) ← riskInputs w trader
  let plan ← LiquidationLib.planLiquidation c p mk marketId.toNat partialBps
  pure (plan.closeSize, plan.expectedHealth)

/-- Post-fill margin check, after fees are charged. -/
def requireMargin (D : Deployment) (w : World) (trader : Address) (increasedExposure : Bool) : Except Error Unit :=
  if trader = D.insurance ∧ increasedExposure = false then pure ()
  else do
    let h ← accountHealth w trader
    if increasedExposure then revertIf (h.equity < h.initialMarginRequired) .insufficientCollateral
    else if w.engine.marketBitmap trader = 0 then revertIf (h.equity < 0) .insufficientCollateral
    else revertIf (h.liquidatable = true) .insufficientCollateral

end Engine

namespace Insurance
variable (D : Deployment) (w : World)

/-- Operating capital in cash: the ledger balance above staked capital. -/
def operatingBalance : Int := w.vault.balances D.insurance - w.insurance.stakedBalance

/-- Operating capital marked to market, and whether the backstop's markets can be priced. -/
def markedOperatingBalance : Int × Bool :=
  match Engine.accountValue w D.insurance with
  | (equity, true) => (equity - w.insurance.stakedBalance, true)
  | (_, false) => (0, false)

/-- Capacity for the OI policy; zero when the backstop cannot be priced. -/
def effectiveBalance : Int :=
  match markedOperatingBalance D w with
  | (marked, true) => M.max 0 (marked - w.insurance.badDebt)
  | (_, false) => 0

/-- What all stakers could redeem together now. -/
def redeemableStake : Except Error Int :=
  match markedOperatingBalance D w with
  | (marked, true) => pure (M.max 0 (w.insurance.stakedBalance + M.min 0 marked))
  | (_, false) => .error .staleOracle

/-- Recorded deficits that marked operating capital cannot pay. -/
def unfundedShortfall : Except Error Int :=
  match markedOperatingBalance D w with
  | (marked, true) => pure (M.max 0 (w.insurance.badDebt - M.max marked 0))
  | (_, false) => .error .staleOracle

def sharesOf (staker : Address) : Int :=
  let b := w.insurance.shares staker
  if b.epoch = w.insurance.epoch then b.shares else 0

end Insurance
end Kryon
