import Kryon.MatcherDb
import Kryon.Indexer
/-!
# Projections — one stored event into the rows of the typed tables

The handlers of the events behind markets, accounts, positions, orders and fills, and the reset a rebuild starts from.  A
rebuild wipes what events alone produce; the rows the matcher and the intake own go back to their state before the chain.
-/
namespace Kryon.Projections

open Matcher (OrderRow FillRow SettledFill)
open Indexer (StoredEvent)
open Function (update)

/-! ## Events and tables -/

/-- The fees and tiers `FillSettled` reports. -/
structure FillFees where
  makerFee : Int
  takerFee : Int
  makerTier : Nat
  takerTier : Nat
deriving DecidableEq

inductive Event where
  | marketListed (marketId : MarketId) (oracleId : Nat)
  | marketParamsSet (marketId : MarketId) (params : MarketParams)
  | marketActiveSet (marketId : MarketId) (active : Bool)
  | marketFeesSet (marketId : MarketId) (makerRate takerRate : Int)
  | priceUpdated (id : Nat) (price : Int)
  | fundingUpdated (marketId : MarketId) (longIndex shortIndex ratePerHour mark : Int)
  | positionChanged (trader : Address) (marketId : MarketId) (size openNotional price realizedPnl : Int)
  | fillSettled (fill : SettledFill) (fees : FillFees)
  | fillRejected (fillId : Bytes32) (reason : String)
  | orderCancelled (owner : Address) (nonce : Nat)
  | noncesCancelledUpTo (owner : Address) (minNonce : Nat)
  | feeTierSet (account : Address) (tier : Nat)
  /-- An event without a handler, or one whose rows are its own. -/
  | other
deriving DecidableEq

/-- The columns of a fill only `FillSettled` writes; `place` is null until it does. -/
structure Settlement where
  fees : FillFees
  place : Option (Nat × Bytes32 × Nat)
deriving DecidableEq

structure PositionRow where
  trader : Address
  marketId : MarketId
  size : Int
  openNotional : Int
  lastPrice : Int
  realizedPnlCum : Int
  lastBlockNumber : Nat
  lastLogIndex : Nat
deriving DecidableEq

structure MarketRow where
  oracleId : Nat
  active : Bool
  /-- The last `MarketParamsSet`. -/
  params : Option MarketParams
  makerRate : Int
  takerRate : Int
  lastMark : Int
  lastIndex : Int
  longFundingIndex : Int
  shortFundingIndex : Int
  fundingRatePerHour : Int
  longOpenInterest : Int
  shortOpenInterest : Int
deriving DecidableEq

structure Tables where
  /-- Orders, fills, nonce floors and jobs, as the matcher reads them. -/
  db : Matcher.Db
  settlements : Bytes32 → Settlement
  feeTier : Address → Nat
  positions : List PositionRow
  markets : MarketId → Option MarketRow

/-- A market's row as it is inserted. -/
def MarketRow.fresh (oracleId : Nat) : MarketRow := ⟨oracleId, false, none, 0, 0, 0, 0, 0, 0, 0, 0, 0⟩

/-! ## Handlers -/

/-- `UPDATE "Market" … WHERE "id" = marketId`. -/
def Tables.updateMarket (t : Tables) (marketId : MarketId) (f : MarketRow → MarketRow) : Tables :=
  { t with markets := update t.markets marketId ((t.markets marketId).map f) }

/-- `INSERT … ON CONFLICT DO UPDATE`: a market listed again keeps its row, under the new feed. -/
def listedRow (oracleId : Nat) : Option MarketRow → MarketRow
  | none => MarketRow.fresh oracleId
  | some row => { row with oracleId := oracleId }

def marketListed (t : Tables) (marketId : MarketId) (oracleId : Nat) : Tables :=
  { t with markets := update t.markets marketId (some (listedRow oracleId (t.markets marketId))) }

/-- Every market priced by the feed. -/
def priceUpdated (t : Tables) (id : Nat) (price : Int) : Tables :=
  { t with markets := fun m => (t.markets m).map fun row =>
      if row.oracleId = id then { row with lastIndex := price } else row }

def PositionRow.key (r : PositionRow) : Address × MarketId := (r.trader, r.marketId)

/-- The row was last written by an older event. -/
def PositionRow.olderThan (r new : PositionRow) : Bool :=
  decide (r.lastBlockNumber < new.lastBlockNumber ∨
    r.lastBlockNumber = new.lastBlockNumber ∧ r.lastLogIndex < new.lastLogIndex)

/-- No row, or one an older event wrote. -/
def applies (rows : List PositionRow) (new : PositionRow) : Bool :=
  rows.all fun r => decide (r.key = new.key → r.olderThan new = true)

/-- `INSERT … ON CONFLICT DO UPDATE`: realized profit accumulates. -/
def upsertPosition (rows : List PositionRow) (new : PositionRow) : List PositionRow :=
  if new.key ∈ rows.map (·.key) then
    rows.map fun r => if r.key = new.key then { new with realizedPnlCum := r.realizedPnlCum + new.realizedPnlCum } else r
  else rows ++ [new]

def longOpenInterest (rows : List PositionRow) (marketId : MarketId) : Int :=
  ((rows.filter fun r => decide (r.marketId = marketId ∧ r.size > 0)).map (·.size)).sum

def shortOpenInterest (rows : List PositionRow) (marketId : MarketId) : Int :=
  ((rows.filter fun r => decide (r.marketId = marketId ∧ r.size < 0)).map (-·.size)).sum

/-- An event older than the last one applied to the position is ignored. -/
def positionChanged (t : Tables) (new : PositionRow) : Tables :=
  if applies t.positions new = true then
    let positions := upsertPosition t.positions new
    { t with
      db := { t.db with positions := update t.db.positions new.key new.size }
      positions := positions }.updateMarket new.marketId fun row => { row with
        longOpenInterest := longOpenInterest positions new.marketId
        shortOpenInterest := shortOpenInterest positions new.marketId }
  else t

/-- The row an event makes of a position. -/
def newPosition (ev : StoredEvent Event) (trader : Address) (marketId : MarketId)
    (size openNotional price realizedPnl : Int) : PositionRow :=
  ⟨trader, marketId, size, openNotional, price, realizedPnl, ev.blockNumber, ev.logIndex⟩

/-- The rows after an event; `now` is the clock a new row is stamped with. -/
def project (now : Int) (t : Tables) (ev : StoredEvent Event) : Tables :=
  match ev.event with
  | .marketListed marketId oracleId => marketListed t marketId oracleId
  | .marketParamsSet marketId params => t.updateMarket marketId fun row => { row with
      params := some params
      active := params.active }
  | .marketActiveSet marketId active => t.updateMarket marketId fun row => { row with active := active }
  | .marketFeesSet marketId makerRate takerRate => t.updateMarket marketId fun row => { row with
      makerRate := makerRate
      takerRate := takerRate }
  | .priceUpdated id price => priceUpdated t id price
  | .fundingUpdated marketId longIndex shortIndex ratePerHour mark => t.updateMarket marketId fun row => { row with
      longFundingIndex := longIndex
      shortFundingIndex := shortIndex
      fundingRatePerHour := ratePerHour
      lastMark := mark }
  | .positionChanged trader marketId size openNotional price realizedPnl =>
    positionChanged t (newPosition ev trader marketId size openNotional price realizedPnl)
  | .fillSettled fill fees => { t with
      db := Matcher.fillSettled t.db now fill
      settlements := update t.settlements fill.fillId ⟨fees, some (ev.blockNumber, ev.txHash, ev.logIndex)⟩ }
  | .fillRejected fillId reason => { t with db := Matcher.fillRejected t.db fillId reason }
  | .orderCancelled owner nonce => { t with db := Matcher.orderCancelled t.db owner nonce }
  | .noncesCancelledUpTo owner minNonce => { t with db := Matcher.noncesCancelledUpTo t.db owner minNonce }
  | .feeTierSet account tier => { t with feeTier := update t.feeTier account tier }
  | .other => t

/-- The market a row of the event refers to, which has to be there. -/
def references : Event → Option MarketId
  | .fundingUpdated marketId _ _ _ _ => some marketId
  | .positionChanged _ marketId _ _ _ _ => some marketId
  | .fillSettled fill _ => some fill.marketId
  | _ => none

/-- Applies one event; a foreign key without its market throws. -/
def applyEvent (now : Int) (t : Tables) (ev : StoredEvent Event) : Option Tables :=
  if (references ev.event).all (fun m => (t.markets m).isSome) = true then some (project now t ev) else none

/-! ## Rebuild -/

def resetFill (r : FillRow) : FillRow := { r with status := .pending, rejectReason := none }

def resetOrder (o : OrderRow) : OrderRow :=
  { o with
    filledSize := 0
    status := if o.status = .partiallyFilled ∨ o.status = .filled then .open_ else o.status }

/-- Resets every event-derived value, ready for a replay. -/
def resetProjections (t : Tables) : Tables where
  db := { t.db with
    fills := t.db.fills.map resetFill
    orders := t.db.orders.map resetOrder
    minValidNonce := fun _ => 0
    positions := fun _ => 0 }
  settlements := fun i => { t.settlements i with place := none }
  feeTier := fun _ => 0
  positions := []
  markets := fun m => (t.markets m).map fun row => MarketRow.fresh row.oracleId

/-- The stored events after a place, in order, at most `batchSize` of them. -/
def page (events : List (StoredEvent Event)) (after : Option (StoredEvent Event)) (batchSize : Nat) :
    List (StoredEvent Event) :=
  ((events.filter fun e => after.all fun a => decide (a.blockNumber < e.blockNumber ∨
      a.blockNumber = e.blockNumber ∧ a.logIndex < e.logIndex)).insertionSort fun e f =>
    e.blockNumber < f.blockNumber ∨ e.blockNumber = f.blockNumber ∧ e.logIndex ≤ f.logIndex).take batchSize

/-- Applies page after page until one is short. -/
def replay (now : Int) (events : List (StoredEvent Event)) (batchSize : Nat) :
    Nat → Option (StoredEvent Event) → Tables → Option Tables
  | 0, _, _ => none
  | fuel + 1, after, t => do
    let rows := page events after batchSize
    let t ← rows.foldlM (applyEvent now) t
    if rows.length < batchSize then pure t else replay now events batchSize fuel rows.getLast? t

/-- Recomputes every projection from the stored events. -/
def rebuild (now : Int) (batchSize : Nat) (events : List (StoredEvent Event)) (t : Tables) : Option Tables :=
  replay now events batchSize (events.length + 1) none (resetProjections t)

end Kryon.Projections
