import Kryon.Ledger
import Kryon.Health
/-!
# Engine — positions, open interest, funding and the time-weighted mark

`trade` is one side of a fill, a liquidation or an ADL: it settles the position's funding, then opens, grows, reduces,
closes or flips it, keeps open interest and the net cost basis in step, and books realized PnL in the vault.
-/
namespace Kryon.Engine

open Program
open Function (update)

def MAX_POSITIONS_PER_ACCOUNT : Nat := 16

/-- The funding index a position of this signed size accrues. -/
def sideIndex (f : FundingState) (size : Int) : Int := if size > 0 then f.longIndex else f.shortIndex

/-- Settles a position's funding against the funding pool: payers round up, receivers round down. -/
def settleFunding (D : Deployment) (w : World) (trader : Address) (marketId : MarketId) (p : Position) :
    Except Error (World × Position) :=
  if p.size = 0 then pure (w, p)
  else do
    let idx := sideIndex (w.engine.funding marketId) p.size
    let d ← M.sub idx p.lastFundingIndex
    let settled := { p with lastFundingIndex := idx }
    if d = 0 then pure (w, settled)
    else if d > 0 then do
      let paid ← M.mulPrecisionUp (M.abs p.size) d
      let w ← Vault.transferInternal w D.engine trader D.engine paid
      pure (w, settled)
    else do
      let received ← M.mulPrecision (M.abs p.size) (-d)
      let w ← Vault.transferInternal w D.engine D.engine trader received
      pure (w, settled)

def changeOpenInterest (w : World) (marketId : MarketId) (isLong : Bool) (amount : Int) : Except Error World := do
  let oi := w.engine.openInterest marketId
  let oi ←
    (if isLong then do
      let long ← M.add oi.long amount
      pure { oi with long := long }
    else do
      let short ← M.add oi.short amount
      pure { oi with short := short })
  pure { w with engine := { w.engine with openInterest := update w.engine.openInterest marketId oi } }

def addMarket (w : World) (trader : Address) (marketId : MarketId) (capped : Bool) : Except Error World := do
  revertIf (marketId.toNat = 0 ∨ marketId.toNat > 255) (.unknownMarket marketId)
  let bitmap := w.engine.marketBitmap trader
  revertIf (capped = true ∧ Bitmap.popcount bitmap ≥ MAX_POSITIONS_PER_ACCOUNT) .tooManyPositions
  pure { w with engine := { w.engine with
    marketBitmap := update w.engine.marketBitmap trader (Bitmap.addMarket bitmap marketId) } }

/-- Opens or grows `p`, which is flat or already on `delta`'s side; returns the basis added. -/
def openSide (w : World) (marketId : MarketId) (m : MarketParams) (p : Position) (delta notional : Int)
    (enforceLimits : Bool) : Except Error (World × Position × Int) := do
  revertIf (enforceLimits = true ∧ m.active = false) (.marketInactive marketId)
  let lastFundingIndex :=
    if p.size = 0 then sideIndex (w.engine.funding marketId) delta else p.lastFundingIndex
  let signedNotional := if delta > 0 then notional else -notional
  let size ← M.add p.size delta
  let openNotional ← M.add p.openNotional signedNotional
  let w ← changeOpenInterest w marketId (decide (delta > 0)) (M.abs delta)
  pure (w, ⟨size, openNotional, lastFundingIndex⟩, signedNotional)

/-- What one side of a trade has done when the position is about to be stored. -/
structure Leg where
  world : World
  position : Position
  basisChange : Int
  increased : Bool
  realized : Int

/-- The trade opens the position or grows it. -/
def increase (w : World) (trader : Address) (marketId : MarketId) (m : MarketParams) (p : Position)
    (delta fillNotional : Int) (reduceOnly enforceLimits : Bool) : Except Error Leg := do
  revertIf (reduceOnly = true) .positionNotFound
  let w ← (if p.size = 0 then addMarket w trader marketId enforceLimits else pure w)
  let (w, p, basis) ← openSide w marketId m p delta fillNotional enforceLimits
  pure ⟨w, p, basis, true, 0⟩

/-- The trade reduces the position, closes it, or closes it and opens the residual on the other side. -/
def reduce (w : World) (marketId : MarketId) (m : MarketParams) (p : Position) (delta price fillNotional : Int)
    (reduceOnly enforceLimits : Bool) : Except Error Leg := do
  let s := p.size
  let absS := M.abs s
  let absD := M.abs delta
  let closeQty := M.min absS absD
  let residual := absD - closeQty
  -- The one fill notional is split so that both portions sum to it exactly.
  let closeNotional ← (if residual = 0 then pure fillNotional else M.mulPrecision closeQty price)
  let removedBasis ← (if closeQty = absS then pure p.openNotional else M.mulDiv p.openNotional closeQty absS)
  let realized := (if s > 0 then closeNotional else -closeNotional) - removedBasis
  let p : Position := { p with
    openNotional := p.openNotional - removedBasis
    size := if s > 0 then s - closeQty else s + closeQty }
  let w ← changeOpenInterest w marketId (decide (s > 0)) (-closeQty)
  if residual > 0 then do
    revertIf (reduceOnly = true) .invalidAmount
    let (w, p, added) ← openSide w marketId m p (if delta > 0 then residual else -residual)
      (fillNotional - closeNotional) enforceLimits
    pure ⟨w, p, -removedBasis + added, true, realized⟩
  else pure ⟨w, p, -removedBasis, false, realized⟩

/-- Writes the position back; a flat one is deleted and its market bit cleared. -/
def storePosition (w : World) (trader : Address) (marketId : MarketId) (p : Position) : Except Error World :=
  if p.size = 0 then
    pure { w with engine := { w.engine with
      positions := update w.engine.positions (trader, marketId) Position.empty
      marketBitmap := update w.engine.marketBitmap trader
        (Bitmap.removeMarket (w.engine.marketBitmap trader) marketId) } }
  else do
    let size ← M.bound128 p.size
    let openNotional ← M.bound128 p.openNotional
    let lastFundingIndex ← M.bound128 p.lastFundingIndex
    pure { w with engine := { w.engine with
      positions := update w.engine.positions (trader, marketId) ⟨size, openNotional, lastFundingIndex⟩ } }

def checkOpenInterest (D : Deployment) (w : World) (marketId : MarketId) (m : MarketParams) (price : Int) :
    Except Error Unit := do
  let o := w.engine.openInterest marketId
  let oi := o.long + o.short
  revertIf (oi > m.maxOpenInterest) .openInterestExceeded
  let bps := w.risk.oiPolicyBps marketId
  if bps = 0 then pure ()
  else do
    let cap ← M.mulDiv (Insurance.effectiveBalance D w) bps 10000
    let n ← RiskLib.notional oi price
    revertIf (n > cap) .insuranceFundInsufficient

def trade (D : Deployment) (w : World) (trader : Address) (marketId : MarketId) (m : MarketParams)
    (delta price fillNotional : Int) (reduceOnly enforceLimits : Bool) : Except Error (World × Bool × Int) := do
  let (w, p) ← settleFunding D w trader marketId (w.engine.positions (trader, marketId))
  let leg ←
    (if p.size = 0 ∨ decide (p.size > 0) = decide (delta > 0) then
      increase w trader marketId m p delta fillNotional reduceOnly enforceLimits
    else reduce w marketId m p delta price fillNotional reduceOnly enforceLimits)
  let w := leg.world
  let netCostBasis ← M.add w.engine.netCostBasis leg.basisChange
  let w := { w with engine := { w.engine with netCostBasis := netCostBasis } }
  let w ← storePosition w trader marketId leg.position
  let w ← (if leg.realized ≠ 0 then Vault.applyPnl D w D.engine trader leg.realized else pure w)
  (if leg.increased = true ∧ enforceLimits = true then checkOpenInterest D w marketId m price else pure ())
  pure (w, leg.increased, leg.realized)

/-! ## The mark -/

/-- Credits the price standing since `lastTs`, then moves `lastTs` to now. -/
def accrueMark (st : MarkState) (now : Nat) : Except Error MarkState :=
  if now > st.lastTs ∧ st.lastPrice > 0 then do
    let standing ← M.mul st.lastPrice ((now - st.lastTs : Nat) : Int)
    let cumulative ← M.add st.cumulative standing
    pure { st with cumulative := cumulative, lastTs := now }
  else pure { st with lastTs := now }

/-- Records an executed price.  Both sides of a fill record the same price, so the second is a no-op. -/
def recordMark (w : World) (marketId : MarketId) (price : Int) : Except Error World := do
  let now := w.timestamp
  let st := w.engine.marks marketId
  if st.lastPrice = price ∧ st.lastTs = now then pure w
  else do
    let st := if st.lastTs = 0 then { st with lastTs := now, windowStart := now } else st
    let st ← accrueMark st now
    let f := w.engine.funding marketId
    -- The funding clock starts with the market's first trade.
    let first := decide (st.lastPrice ≤ 0)
    let st := if first then { st with windowStart := now, cumulative := 0 } else st
    let f := if first = true ∧ f.lastUpdate = 0 then { f with lastUpdate := now } else f
    let price ← M.bound128 price
    pure { w with engine := { w.engine with
      funding := update w.engine.funding marketId f
      marks := update w.engine.marks marketId { st with lastPrice := price } } }

/-- The average since the last read; closes the window.  Zero if the market never traded. -/
def consumeTwap (w : World) (marketId : MarketId) : Except Error (World × Int) := do
  let now := w.timestamp
  let st := w.engine.marks marketId
  if st.lastPrice ≤ 0 then pure (w, 0)
  else do
    let st ← accrueMark st now
    let elapsed := if now > st.windowStart then now - st.windowStart else 0
    let twap ← (if elapsed > 0 then M.mulDiv st.cumulative 1 elapsed else pure st.lastPrice)
    pure ({ w with engine := { w.engine with
      marks := update w.engine.marks marketId { st with cumulative := 0, windowStart := now } } }, twap)

/-! ## Entry points -/

/-- One side of a matched fill.  Gateway only; reports whether exposure grew. -/
def applyFill (D : Deployment) (w : World) (caller trader : Address) (marketId : MarketId) (isBuy : Bool)
    (size price fillNotional : Int) (reduceOnly : Bool) : Except Error (World × Bool) := do
  revertIf (caller ≠ D.gateway) .unauthorized
  w.whenNotPaused .engine
  revertIf (size ≤ 0 ∨ price ≤ 0 ∨ fillNotional ≤ 0) .invalidAmount
  let m ← RiskParams.market w marketId
  let index ← indexOf w m
  let maxDelta ← M.applyBps index m.maxExecutionDeviationBps
  let lo ← M.sub index maxDelta
  revertIf (price < lo) .priceOutsideBand
  let hi ← M.add index maxDelta
  revertIf (price > hi) .priceOutsideBand
  let w ← recordMark w marketId price
  let (w, increased, _) ←
    trade D w trader marketId m (if isBuy then size else -size) price fillNotional reduceOnly true
  pure (w, increased)

/-- Moves `size` of a position to the backstop at `price`.  Liquidation only. -/
def liquidationTransfer (D : Deployment) (w : World) (caller trader receiver : Address) (marketId : MarketId)
    (size price : Int) : Except Error (World × Int) := do
  revertIf (caller ≠ D.liquidation) .unauthorized
  w.whenNotPaused .engine
  let s := (w.engine.positions (trader, marketId)).size
  revertIf (s = 0) .positionNotFound
  revertIf (size ≤ 0 ∨ size > M.abs s ∨ price ≤ 0) .invalidAmount
  let m ← RiskParams.market w marketId
  let n ← M.mulPrecision size price
  let delta := if s > 0 then -size else size
  let (w, _, traderRealizedPnl) ← trade D w trader marketId m delta price n true false
  let (w, _, _) ← trade D w receiver marketId m (-delta) price n false false
  pure (w, traderRealizedPnl)

/-- Closes `size` of the backstop's position against an opposite one.  Liquidation only. -/
def adlTransfer (D : Deployment) (w : World) (caller backstop counterparty : Address) (marketId : MarketId)
    (size price : Int) : Except Error (World × Int) := do
  revertIf (caller ≠ D.liquidation) .unauthorized
  w.whenNotPaused .engine
  let b := (w.engine.positions (backstop, marketId)).size
  let c := (w.engine.positions (counterparty, marketId)).size
  revertIf (b = 0 ∨ c = 0) .positionNotFound
  revertIf (decide (b > 0) = decide (c > 0)) .directionMismatch
  revertIf (size ≤ 0 ∨ size > M.abs b ∨ size > M.abs c ∨ price ≤ 0) .invalidAmount
  let m ← RiskParams.market w marketId
  let n ← M.mulPrecision size price
  let (w, _, counterpartyRealizedPnl) ←
    trade D w counterparty marketId m (if c > 0 then -size else size) price n true false
  let (w, _, _) ← trade D w backstop marketId m (if b > 0 then -size else size) price n true false
  pure (w, counterpartyRealizedPnl)

/-- Advances a market's funding from the mark-vs-index premium. -/
def updateFunding (w : World) (msg : Msg) (marketId : MarketId) : Except Error World := do
  w.onlyRole .engine .keeper msg.sender
  w.whenNotPaused .engine
  let cfg := w.risk.funding marketId
  let m ← RiskParams.market w marketId
  let current := w.engine.funding marketId
  let now := w.timestamp
  let current := if current.lastUpdate = 0 then { current with lastUpdate := now } else current
  let (w, mark) ← consumeTwap w marketId
  let premium ←
    (if mark > 0 then do
      let index ← indexOf w m
      FundingLib.premiumFromMark mark index
    else pure 0)
  let next ← FundingLib.updateFromPremium cfg current premium now
  let longIndex ← M.bound128 next.longIndex
  let shortIndex ← M.bound128 next.shortIndex
  let ratePerHour ← M.bound128 next.ratePerHour
  let f : FundingState := ⟨longIndex, shortIndex, ratePerHour, next.lastUpdate⟩
  pure { w with engine := { w.engine with funding := update w.engine.funding marketId f } }

end Kryon.Engine
