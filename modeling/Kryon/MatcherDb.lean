import Kryon.Matching
/-!
# MatcherDb — the tables of the matcher and of the indexer

`Order`, `Account`, `Position`, `Fill` and `TxJob`, of one network, and the statements run on them.  A matcher reserves by
inserting PENDING fills, links them to the job that carries them and releases by deleting them; the indexer alone settles
and rejects.  A book is the live orders less what PENDING fills reserve.
-/
namespace Kryon.Matcher

open Matching (EngineOrder)

inductive OrderStatus where
  | open_
  | partiallyFilled
  | filled
  | cancelled
  | expired
deriving DecidableEq

inductive FillStatus where
  | pending
  | settled
  | rejected
deriving DecidableEq

inductive TxJobStatus where
  /-- Signed and persisted, broadcast not yet acknowledged. -/
  | pending
  | submitted
  /-- Superseded by a fee bump at the same nonce. -/
  | replaced
  | confirmed
  | reverted
  /-- The nonce was consumed by another transaction. -/
  | dropped
  /-- Rejected by the node for a reason a retry will not fix. -/
  | failed
deriving DecidableEq

def TxJobStatus.open_ : TxJobStatus → Bool
  | .pending | .submitted => true
  | .replaced | .confirmed | .reverted | .dropped | .failed => false

abbrev JobId := Nat

/-- A signed order and its progress, which the indexer owns. -/
structure OrderRow where
  orderHash : Bytes32
  order : Order
  signature : Bytes
  status : OrderStatus
  filledSize : Int
  createdAt : Int
deriving DecidableEq

/-- A fill of a batch, with both signed orders. -/
structure PlannedFill where
  fillId : Bytes32
  maker : Order
  makerSignature : Bytes
  taker : Order
  takerSignature : Bytes
  size : Int
  price : Int
  marketId : MarketId
  makerOrderHash : Bytes32
  takerOrderHash : Bytes32
  takerIsBuy : Bool
  notional : Int
deriving DecidableEq

structure FillRow where
  fillId : Bytes32
  status : FillStatus
  rejectReason : Option String
  marketId : MarketId
  maker : Address
  taker : Address
  makerOrderHash : Bytes32
  takerOrderHash : Bytes32
  takerIsBuy : Bool
  size : Int
  price : Int
  txJobId : Option JobId
  createdAt : Int
deriving DecidableEq

/-- One broadcast attempt; `data` is the batch it settles. -/
structure TxJob where
  id : JobId
  nonce : Nat
  data : List PlannedFill
  status : TxJobStatus
deriving DecidableEq

structure Db where
  orders : List OrderRow
  minValidNonce : Address → Nat
  positions : Address × MarketId → Int
  fills : List FillRow
  jobs : List TxJob

variable (db : Db)

/-! ## Reservations -/

def pendingRow (f : PlannedFill) (createdAt : Int) : FillRow where
  fillId := f.fillId
  status := .pending
  rejectReason := none
  marketId := f.marketId
  maker := f.maker.owner
  taker := f.taker.owner
  makerOrderHash := f.makerOrderHash
  takerOrderHash := f.takerOrderHash
  takerIsBuy := f.takerIsBuy
  size := f.size
  price := f.price
  txJobId := none
  createdAt := createdAt

/-- `INSERT … ON CONFLICT DO NOTHING`: the row of an id that is there stays. -/
def insertPending (createdAt : Int) (rows : List FillRow) (f : PlannedFill) : List FillRow :=
  if f.fillId ∈ rows.map (·.fillId) then rows else rows ++ [pendingRow f createdAt]

/-- Reserve a batch. -/
def persistPendingFills (createdAt : Int) (fills : List PlannedFill) : Db :=
  { db with fills := fills.foldl (insertPending createdAt) db.fills }

/-- Point the batch's fills at the job that carries them. -/
def linkFillsToJob (fillIds : List Bytes32) (txJobId : JobId) : Db :=
  { db with fills := db.fills.map fun r =>
      if r.fillId ∈ fillIds ∧ r.status = .pending then { r with txJobId := some txJobId } else r }

/-- Give the reserved size back. -/
def releasePendingFills (fillIds : List Bytes32) : Db :=
  { db with fills := db.fills.filter fun r => !decide (r.fillId ∈ fillIds ∧ r.status = .pending) }

/-- Record the reason on a fill without claiming its final status. -/
def recordRejection (fillId : Bytes32) (reason : String) : Db :=
  { db with fills := db.fills.map fun r =>
      if r.fillId = fillId ∧ r.status = .pending then
        { r with rejectReason := some (String.ofList (reason.toList.take 500)) } else r }

/-! ## Orders -/

/-- Statuses an order can still trade from. -/
def OrderStatus.tradeable : OrderStatus → Bool
  | .open_ | .partiallyFilled => true
  | .filled | .cancelled | .expired => false

/-- Retire an order the chain will never settle again. -/
def retireOrder (orderHash : Bytes32) (status : OrderStatus) : Db :=
  { db with orders := db.orders.map fun o =>
      if o.orderHash = orderHash ∧ o.status.tradeable = true then { o with status := status } else o }

/-- What PENDING fills without a reason reserve of an order. -/
def reserved (marketId : MarketId) (orderHash : Bytes32) : Int :=
  ((db.fills.filter fun r => decide (r.status = .pending ∧ r.rejectReason = none ∧ r.marketId = marketId)).map fun r =>
    (if r.makerOrderHash = orderHash then r.size else 0) + if r.takerOrderHash = orderHash then r.size else 0).sum

/-- What is settled plus what is reserved is not available to match. -/
def toEngineOrder (marketId : MarketId) (o : OrderRow) : EngineOrder where
  orderHash := o.orderHash
  owner := o.order.owner
  marketId := o.order.marketId
  isLong := o.order.isLong
  size := o.order.size
  limitPrice := o.order.limitPrice
  reduceOnly := o.order.reduceOnly
  nonce := o.order.nonce
  expiry := o.order.expiry
  filledSize := o.filledSize + reserved db marketId o.orderHash
  createdAt := o.createdAt

/-- The resting book of a market. -/
def loadOrders (marketId : MarketId) (nowSec : Int) : List EngineOrder :=
  ((db.orders.filter fun o =>
      decide (o.order.marketId = marketId ∧ o.status.tradeable = true ∧ nowSec < (o.order.expiry : Int))).map
    (toEngineOrder db marketId)).insertionSort fun a b => Matching.compareArrival a b ≤ 0

/-- The signed order of a hash. -/
def loadSignedOrder (orderHash : Bytes32) : Option OrderRow := db.orders.find? fun o => o.orderHash = orderHash

/-! ## The indexer -/

/-- What of an order is settled. -/
def settledSize (rows : List FillRow) (orderHash : Bytes32) : Int :=
  ((rows.filter fun r => decide (r.status = .settled ∧
    (r.makerOrderHash = orderHash ∨ r.takerOrderHash = orderHash))).map (·.size)).sum

/-- Recompute the orders behind a settled fill; a cancelled or expired one keeps its status. -/
def refreshOrders (hashes : List Bytes32) : Db :=
  { db with orders := db.orders.map fun o =>
      if o.orderHash ∈ hashes then
        let filled := settledSize db.fills o.orderHash
        { o with
          filledSize := min (o.order.size : Int) filled
          status :=
            if o.status = .cancelled ∨ o.status = .expired then o.status
            else if filled ≥ o.order.size then .filled
            else if filled > 0 then .partiallyFilled
            else .open_ }
      else o }

/-- What `FillSettled` reports of a fill. -/
structure SettledFill where
  fillId : Bytes32
  marketId : MarketId
  maker : Address
  taker : Address
  makerOrderHash : Bytes32
  takerOrderHash : Bytes32
  takerIsBuy : Bool
  size : Int
  price : Int
deriving DecidableEq

/-- A row as `FillSettled` leaves it: the event's terms, settled, without a reason. -/
def settledRow (e : SettledFill) (txJobId : Option JobId) (createdAt : Int) : FillRow where
  fillId := e.fillId
  status := .settled
  rejectReason := none
  marketId := e.marketId
  maker := e.maker
  taker := e.taker
  makerOrderHash := e.makerOrderHash
  takerOrderHash := e.takerOrderHash
  takerIsBuy := e.takerIsBuy
  size := e.size
  price := e.price
  txJobId := txJobId
  createdAt := createdAt

/-- `INSERT … ON CONFLICT DO UPDATE`: the event inserts the row or writes over it. -/
def upsertSettled (createdAt : Int) (e : SettledFill) (rows : List FillRow) : List FillRow :=
  if e.fillId ∈ rows.map (·.fillId) then
    rows.map fun r => if r.fillId = e.fillId then settledRow e r.txJobId r.createdAt else r
  else rows ++ [settledRow e none createdAt]

def fillSettled (createdAt : Int) (e : SettledFill) : Db :=
  refreshOrders { db with fills := upsertSettled createdAt e db.fills } [e.makerOrderHash, e.takerOrderHash]

/-- Only fills the matcher recorded can be marked. -/
def fillRejected (fillId : Bytes32) (reason : String) : Db :=
  { db with fills := db.fills.map fun r =>
      if r.fillId = fillId ∧ r.status ≠ .settled then
        { r with status := .rejected, rejectReason := some reason } else r }

/-- `OrderCancelled` marks the order of a nonce. -/
def orderCancelled (owner : Address) (nonce : Nat) : Db :=
  { db with orders := db.orders.map fun o =>
      if o.order.owner = owner ∧ o.order.nonce = nonce ∧ o.status.tradeable = true then
        { o with status := .cancelled } else o }

/-- `NoncesCancelledUpTo` marks every order below a nonce, and moves the account's floor up to it. -/
def noncesCancelledUpTo (owner : Address) (minNonce : Nat) : Db :=
  { db with
    minValidNonce := Function.update db.minValidNonce owner (max (db.minValidNonce owner) minNonce)
    orders := db.orders.map fun o =>
      if o.order.owner = owner ∧ o.order.nonce < minNonce ∧ o.status.tradeable = true then
        { o with status := .cancelled } else o }

/-- The intake inserts an order once, under its hash and under its owner's nonce. -/
def insertOrder (o : OrderRow) : Db :=
  if o.orderHash ∈ db.orders.map (·.orderHash) ∨
      (o.order.owner, o.order.nonce) ∈ db.orders.map (fun r => (r.order.owner, r.order.nonce)) then db
  else { db with orders := db.orders ++ [{ o with status := .open_, filledSize := 0 }] }

end Kryon.Matcher
