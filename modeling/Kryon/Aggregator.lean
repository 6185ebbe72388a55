import Kryon.Metrics
import Kryon.Lib.Transition
import Mathlib.Data.List.MinMax
/-!
# Aggregator — statistics kept by recomputing who may have moved

A pass reads the head, lists the addresses that events after its cursor touched and those whose windows have rolled, and
recomputes each from its own activity, batch by batch; the cursor moves last.  The indexer stores whole blocks and the intake
inserts orders at any moment between, and the process can stop anywhere.
-/
namespace Kryon.Stats

open Transition (Machine Run)
open Keyed (under replace under_replace mem_under)

/-! ## The projections -/

inductive Payload where
  | fill (fillId : Bytes32) (maker taker : Address) (makerOrderHash takerOrderHash : Bytes32) (size price : Int)
  | pnl (address : Address) (kind : PnlKind) (amount : Int)
  | liquidated (trader : Address) (closeSize price penalty : Int)
  | balance (address : Address) (kind : BalanceKind) (internalAmount : Int)
  | other
deriving DecidableEq

/-- An event as stored, timed by its block. -/
structure StoredEvent extends Ordered where
  blockHash : Bytes32
  payload : Payload
deriving DecidableEq

/-- A settled fill. -/
structure FillRow extends Ordered where
  fillId : Bytes32
  maker : Address
  taker : Address
  makerOrderHash : Bytes32
  takerOrderHash : Bytes32
  size : Int
  price : Int
deriving DecidableEq

structure PnlRow extends PnlActivity where
  address : Address

structure LiquidationRow extends LiquidationActivity where
  trader : Address

structure BalanceRow extends BalanceActivity where
  address : Address

/-- What of an order the statistics read. -/
structure OrderRow where
  orderHash : Bytes32
  owner : Address
  referrer : Option Address
deriving DecidableEq

/-- The stored events, which the projections are made of, and the orders. -/
structure Db where
  events : List StoredEvent
  orders : List OrderRow

def fillRow (e : StoredEvent) : Option FillRow :=
  match e.payload with
  | .fill fillId maker taker makerOrderHash takerOrderHash size price =>
    some ⟨e.toOrdered, fillId, maker, taker, makerOrderHash, takerOrderHash, size, price⟩
  | _ => none

/-- Nothing is recorded of an amount of zero. -/
def pnlRow (e : StoredEvent) : Option PnlRow :=
  let row (address : Address) (kind : PnlKind) (amount : Int) : Option PnlRow :=
    if amount = 0 then none else some ⟨⟨e.toOrdered, kind, amount⟩, address⟩
  match e.payload with
  | .pnl address kind amount => row address kind amount
  | .liquidated trader _ _ penalty => row trader .liquidationPenalty (-penalty)
  | _ => none

def liquidationRow (e : StoredEvent) : Option LiquidationRow :=
  match e.payload with
  | .liquidated trader closeSize price _ => some ⟨⟨e.toOrdered, closeSize * price⟩, trader⟩
  | _ => none

def balanceRow (e : StoredEvent) : Option BalanceRow :=
  match e.payload with
  | .balance address kind internalAmount => some ⟨⟨e.toOrdered, kind, internalAmount⟩, address⟩
  | _ => none

/-- `INSERT … ON CONFLICT DO UPDATE`: a fill id settled again is written over. -/
def upsertFill (rows : List FillRow) (f : FillRow) : List FillRow :=
  if f.fillId ∈ rows.map (·.fillId) then rows.map fun r => if r.fillId = f.fillId then f else r else rows ++ [f]

namespace Db
variable (db : Db)

def fills : List FillRow := (db.events.filterMap fillRow).foldl upsertFill []
def pnl : List PnlRow := db.events.filterMap pnlRow
def liquidations : List LiquidationRow := db.events.filterMap liquidationRow
def balances : List BalanceRow := db.events.filterMap balanceRow

end Db

/-- `JOIN "Order"`: the orders on either side of a fill. -/
def joined (orders : List OrderRow) (f : FillRow) : List OrderRow :=
  orders.filter fun o => decide (o.orderHash ∈ [f.makerOrderHash, f.takerOrderHash])

/-- Every event the metrics need of an address. -/
def activityOf (db : Db) (address : Address) : AddressActivity where
  fills := (db.fills.filter fun f => decide (f.maker = address ∨ f.taker = address)).map fun f =>
    ⟨f.toOrdered, f.fillId, f.maker, f.taker, f.size * f.price⟩
  pnl := (db.pnl.filter fun p => decide (p.address = address)).map (·.toPnlActivity)
  liquidations := (db.liquidations.filter fun l => decide (l.trader = address)).map (·.toLiquidationActivity)
  balances := (db.balances.filter fun b => decide (b.address = address)).map (·.toBalanceActivity)
  referrals := db.fills.flatMap fun f =>
    ((joined db.orders f).filter fun o => decide (o.referrer = some address)).map fun o =>
      ⟨f.toOrdered, o.owner, f.size * f.price⟩

/-! ## Queries -/

structure IndexedHead where
  blockNumber : Nat
  blockHash : Bytes32
deriving DecidableEq

/-- The rows the aggregator writes. -/
structure StatTables where
  traderStats : List TraderStatRow
  analytics : List AccountAnalyticsRow
deriving DecidableEq

/-- The newest block with stored events. -/
def indexedHead (db : Db) : Option IndexedHead :=
  (db.events.argmax fun e => e.blockNumber).map fun e => ⟨e.blockNumber, e.blockHash⟩

def blockHashAt (db : Db) (blockNumber : Nat) : Option Bytes32 :=
  (db.events.find? fun e => decide (e.blockNumber = blockNumber)).map (·.blockHash)

/-- Addresses touched by an event after `afterBlock`. -/
def dirtyAddressesSince (db : Db) (afterBlock upToBlock : Nat) : List Address :=
  let inside (o : Ordered) : Bool := decide (afterBlock < o.blockNumber ∧ o.blockNumber ≤ upToBlock)
  let fills := db.fills.filter fun f => inside f.toOrdered
  (fills.map (·.maker) ++ fills.map (·.taker) ++
    (fills.flatMap fun f => (joined db.orders f).filterMap (·.referrer)) ++
    (db.pnl.filter fun p => inside p.toOrdered).map (·.address) ++
    (db.liquidations.filter fun l => inside l.toOrdered).map (·.trader) ++
    (db.balances.filter fun b => inside b.toOrdered).map (·.address)).dedup

/-- The rolling windows at a time. -/
def rolling (now : Int) : List (StatsPeriod × Int) :=
  (STATS_PERIODS.filter (· ≠ .all)).map fun period => (period, windowStart period now)

/-- Addresses whose stored window is none of the current ones. -/
def addressesWithStaleWindow (t : StatTables) (current : List (StatsPeriod × Int)) : List Address :=
  ((t.traderStats.filter fun r =>
    decide (r.period ∈ current.map (·.1) ∧ r.periodStart ∉ current.map (·.2))).map (·.address)).dedup

/-- Every address with any indexed activity, and every one holding a row. -/
def allKnownAddresses (db : Db) (t : StatTables) : List Address :=
  (db.fills.map (·.maker) ++ db.fills.map (·.taker) ++ db.orders.filterMap (·.referrer) ++ db.pnl.map (·.address) ++
    db.liquidations.map (·.trader) ++ db.balances.map (·.address) ++ t.traderStats.map (·.address) ++
    t.analytics.map (·.address)).dedup

/-- Deletes the rows of the addresses and inserts what was computed for them. -/
def replaceAddressStats (t : StatTables) (addresses : List Address) (results : Address → AddressStats) : StatTables where
  traderStats := replace (·.address) addresses (addresses.flatMap fun a => (results a).traderStats) t.traderStats
  analytics := replace (·.address) addresses (addresses.flatMap fun a => (results a).analytics.toList) t.analytics

/-- The tables a recompute of everyone writes, from activity read in any order. -/
def fullRecompute (now : Int) (activity : Address → AddressActivity) (db : Db) (t : StatTables) : StatTables :=
  replaceAddressStats t (allKnownAddresses db t) fun a => computeAddressStats a (activity a) now

/-! ## Passes -/

inductive Phase where
  | idle
  /-- An incremental pass has read the head and the cursor. -/
  | reading (now : Int) (head : Option IndexedHead) (cursor : IndexedHead)
  | recomputing (now : Int) (head : Option IndexedHead) (cursor : IndexedHead) (todo : List Address)
  /-- A batch is computed and not written. -/
  | loaded (now : Int) (head : Option IndexedHead) (cursor : IndexedHead) (batch todo : List Address)
      (results : Address → AddressStats)
  /-- A rebuild has read the head. -/
  | scanning (now : Int) (head : Option IndexedHead)
  | rebuilding (now : Int) (head : Option IndexedHead) (addresses todo : List Address) (results : Address → AddressStats)
  /-- The pass of `now` took in every block up to a number. -/
  | finished (now : Int) (upTo : Option Nat)

structure State where
  db : Db
  stats : StatTables
  cursor : Option IndexedHead
  /-- Milliseconds; it does not go back. -/
  clock : Int
  phase : Phase

/-- The last block of an incremental pass. -/
def upTo (head : Option IndexedHead) (cursor : IndexedHead) : Nat := (head.map (·.blockNumber)).getD cursor.blockNumber

/-- The cursor names a block that is stored as it was. -/
def cursorMatches (db : Db) (cursor : IndexedHead) : Prop :=
  indexedHead db = none ∨ blockHashAt db cursor.blockNumber = some cursor.blockHash

instance (db : Db) (cursor : IndexedHead) : Decidable (cursorMatches db cursor) := inferInstanceAs (Decidable (_ ∨ _))

/-- What a pass loads of an address: its rows, in the order the database returns them. -/
def Loads (db : Db) (addresses : List Address) (activity : Address → AddressActivity) : Prop :=
  ∀ a ∈ addresses, (activityOf db a).Perm (activity a)

def insertOrder (orders : List OrderRow) (o : OrderRow) : List OrderRow :=
  if o.orderHash ∈ orders.map (·.orderHash) then orders else orders ++ [o]

inductive Act where
  | wait (ms : Nat)
  | index (events : List StoredEvent)
  | insertOrder (o : OrderRow)
  | tick
  | rebuild
  | list (addresses : List Address)
  | scan (addresses : List Address)
  | load (batchSize : Nat)
  | write
  | finish
  | crash

/-- No pass is under way. -/
def Phase.resting : Phase → Prop
  | .idle | .finished _ _ => True
  | _ => False

inductive Step : State → Act → State → Prop where
  | wait {s : State} {ms : Nat} : Step s (.wait ms) { s with clock := s.clock + ms }
  -- A window is stored whole, after everything stored.
  | index {s : State} {events : List StoredEvent}
      (hnew : ∀ e ∈ s.db.events, ∀ e' ∈ events, e.blockNumber < e'.blockNumber)
      (horder : events.Pairwise fun e e' => byChainOrder e.toOrdered e'.toOrdered < 0) :
      Step s (.index events) { s with db := { s.db with events := s.db.events ++ events } }
  | insertOrder {s : State} {o : OrderRow} :
      Step s (.insertOrder o) { s with db := { s.db with orders := insertOrder s.db.orders o } }
  | tick {s : State} {cursor : IndexedHead} (hphase : s.phase.resting) (hcursor : s.cursor = some cursor)
      (hmatches : cursorMatches s.db cursor) :
      Step s .tick { s with phase := .reading s.clock (indexedHead s.db) cursor }
  -- No cursor, or one the chain moved under.
  | restart {s : State} (hphase : s.phase.resting) (hcursor : ∀ cursor ∈ s.cursor, ¬ cursorMatches s.db cursor) :
      Step s .tick { s with phase := .scanning s.clock (indexedHead s.db) }
  -- Nightly, or requested.
  | rebuild {s : State} (hphase : s.phase.resting) :
      Step s .rebuild { s with phase := .scanning s.clock (indexedHead s.db) }
  | list {s : State} {now : Int} {head : Option IndexedHead} {cursor : IndexedHead} {addresses : List Address}
      (hphase : s.phase = .reading now head cursor) (hnodup : addresses.Nodup)
      (hmem : ∀ a, a ∈ addresses ↔ a ∈ dirtyAddressesSince s.db cursor.blockNumber (upTo head cursor) ∨
        a ∈ addressesWithStaleWindow s.stats (rolling now)) :
      Step s (.list addresses) { s with phase := .recomputing now head cursor addresses }
  | load {s : State} {now : Int} {head : Option IndexedHead} {cursor : IndexedHead} {todo : List Address} {batchSize : Nat}
      {activity : Address → AddressActivity} (hphase : s.phase = .recomputing now head cursor todo)
      (hloads : Loads s.db (todo.take batchSize) activity) :
      Step s (.load batchSize) { s with
        phase := .loaded now head cursor (todo.take batchSize) (todo.drop batchSize)
          (fun a => computeAddressStats a (activity a) now) }
  | write {s : State} {now : Int} {head : Option IndexedHead} {cursor : IndexedHead} {batch todo : List Address}
      {results : Address → AddressStats} (hphase : s.phase = .loaded now head cursor batch todo results) :
      Step s .write { s with
        stats := replaceAddressStats s.stats batch results
        phase := .recomputing now head cursor todo }
  | finish {s : State} {now : Int} {head : Option IndexedHead} {cursor : IndexedHead}
      (hphase : s.phase = .recomputing now head cursor []) :
      Step s .finish { s with
        cursor := if head.all (fun h => decide (h.blockNumber = cursor.blockNumber)) then s.cursor else head
        phase := .finished now (some (upTo head cursor)) }
  | scan {s : State} {now : Int} {head : Option IndexedHead} {addresses : List Address}
      {results : Address → AddressStats} (hphase : s.phase = .scanning now head) (hnodup : addresses.Nodup)
      (hmem : ∀ a, a ∈ addresses ↔ a ∈ allKnownAddresses s.db s.stats) :
      Step s (.scan addresses) { s with phase := .rebuilding now head addresses addresses results }
  | loadAll {s : State} {now : Int} {head : Option IndexedHead} {addresses todo : List Address}
      {results : Address → AddressStats} {batchSize : Nat} {activity : Address → AddressActivity}
      (hphase : s.phase = .rebuilding now head addresses todo results)
      (hloads : Loads s.db (todo.take batchSize) activity) :
      Step s (.load batchSize) { s with
        phase := .rebuilding now head addresses (todo.drop batchSize)
          (fun a => if a ∈ todo.take batchSize then computeAddressStats a (activity a) now else results a) }
  | writeAll {s : State} {now : Int} {head : Option IndexedHead} {addresses : List Address}
      {results : Address → AddressStats} (hphase : s.phase = .rebuilding now head addresses [] results) :
      Step s .write { s with
        stats := replaceAddressStats s.stats addresses results
        cursor := head.or s.cursor
        phase := .finished now (head.map (·.blockNumber)) }
  | crash {s : State} : Step s .crash { s with phase := .idle }

/-- A fresh database and a process that has just started. -/
structure State.Fresh (s : State) : Prop where
  events : s.db.events = []
  stats : s.stats = ⟨[], []⟩
  cursor : s.cursor = none
  phase : s.phase = .idle

def machine : Machine State Act := ⟨State.Fresh, Step⟩

/-! ## Who a row counts for -/

section Rows
variable {db db' : Db} {a : Address} {f g : FillRow} {orders : List OrderRow} {rows : List FillRow} {o : OrderRow}
  {e : StoredEvent} {events : List StoredEvent} {t : StatTables} {upTo : Option Nat}

/-- The fill is part of the address's statistics. -/
def counts (orders : List OrderRow) (f : FillRow) (a : Address) : Prop :=
  f.maker = a ∨ f.taker = a ∨ ∃ o ∈ joined orders f, o.referrer = some a

instance (orders : List OrderRow) (f : FillRow) (a : Address) : Decidable (counts orders f a) :=
  inferInstanceAs (Decidable (_ ∨ _ ∨ _))

def fillsOf (db : Db) (a : Address) : List FillRow := db.fills.filter fun f => decide (counts db.orders f a)

/-- The blocks of the rows that count for the address. -/
def blocksOf (db : Db) (a : Address) : List Nat :=
  (fillsOf db a).map (·.blockNumber) ++ (under (·.address) db.pnl a).map (·.blockNumber) ++
    (under (·.trader) db.liquidations a).map (·.blockNumber) ++ (under (·.address) db.balances a).map (·.blockNumber)

/-- A row after the block counts for the address; without a block, any row. -/
def Beyond (db : Db) (upTo : Option Nat) (a : Address) : Prop := ∃ b ∈ blocksOf db a, ∀ n ∈ upTo, n < b

theorem mem_blocksOf {n : Nat} : n ∈ blocksOf db a ↔ (∃ f ∈ db.fills, counts db.orders f a ∧ f.blockNumber = n) ∨
    (∃ r ∈ db.pnl, r.address = a ∧ r.blockNumber = n) ∨ (∃ l ∈ db.liquidations, l.trader = a ∧ l.blockNumber = n) ∨
      ∃ b ∈ db.balances, b.address = a ∧ b.blockNumber = n := by
  simp only [blocksOf, fillsOf, List.mem_append, List.mem_map, mem_under, List.mem_filter, decide_eq_true_eq, and_assoc,
    or_assoc]

theorem mem_dirty {c u : Nat} : a ∈ dirtyAddressesSince db c u ↔ ∃ b ∈ blocksOf db a, c < b ∧ b ≤ u := by
  unfold dirtyAddressesSince
  simp only [List.mem_dedup, List.mem_append, List.mem_map, List.mem_filter, List.mem_flatMap, List.mem_filterMap,
    decide_eq_true_eq, mem_blocksOf, counts]
  constructor
  · rintro (((((⟨f, ⟨hf, hin⟩, ha⟩ | ⟨f, ⟨hf, hin⟩, ha⟩) | ⟨f, ⟨hf, hin⟩, ha⟩) | ⟨r, ⟨hr, hin⟩, ha⟩) | ⟨l, ⟨hl, hin⟩, ha⟩) |
      ⟨b, ⟨hb, hin⟩, ha⟩)
    · exact ⟨_, .inl ⟨f, hf, .inl ha, rfl⟩, hin⟩
    · exact ⟨_, .inl ⟨f, hf, .inr (.inl ha), rfl⟩, hin⟩
    · exact ⟨_, .inl ⟨f, hf, .inr (.inr ha), rfl⟩, hin⟩
    · exact ⟨_, .inr (.inl ⟨r, hr, ha, rfl⟩), hin⟩
    · exact ⟨_, .inr (.inr (.inl ⟨l, hl, ha, rfl⟩)), hin⟩
    · exact ⟨_, .inr (.inr (.inr ⟨b, hb, ha, rfl⟩)), hin⟩
  · rintro ⟨n, ⟨f, hf, ha | ha | ha, rfl⟩ | ⟨r, hr, ha, rfl⟩ | ⟨l, hl, ha, rfl⟩ | ⟨b, hb, ha, rfl⟩, hin⟩
    · exact .inl (.inl (.inl (.inl (.inl ⟨f, ⟨hf, hin⟩, ha⟩))))
    · exact .inl (.inl (.inl (.inl (.inr ⟨f, ⟨hf, hin⟩, ha⟩))))
    · exact .inl (.inl (.inl (.inr ⟨f, ⟨hf, hin⟩, ha⟩)))
    · exact .inl (.inl (.inr ⟨r, ⟨hr, hin⟩, ha⟩))
    · exact .inl (.inr ⟨l, ⟨hl, hin⟩, ha⟩)
    · exact .inr ⟨b, ⟨hb, hin⟩, ha⟩

/-- Whoever is not touched up to a block nor beyond it is not touched since the cursor. -/
theorem not_beyond {c u : Nat} (hbeyond : ¬ Beyond db (some u) a) (hdirty : a ∉ dirtyAddressesSince db c u) :
    ¬ Beyond db (some c) a := by
  rintro ⟨b, hb, hcb⟩
  by_cases hub : b ≤ u
  · exact hdirty (mem_dirty.2 ⟨b, hb, hcb c rfl, hub⟩)
  · exact hbeyond ⟨b, hb, fun n hn => by cases hn; omega⟩

theorem mem_known : a ∈ allKnownAddresses db t ↔ (∃ f ∈ db.fills, f.maker = a) ∨ (∃ f ∈ db.fills, f.taker = a) ∨
    (∃ o ∈ db.orders, o.referrer = some a) ∨ (∃ r ∈ db.pnl, r.address = a) ∨ (∃ l ∈ db.liquidations, l.trader = a) ∨
      (∃ b ∈ db.balances, b.address = a) ∨ (∃ r ∈ t.traderStats, r.address = a) ∨ ∃ r ∈ t.analytics, r.address = a := by
  unfold allKnownAddresses
  simp only [List.mem_dedup, List.mem_append, List.mem_map, List.mem_filterMap, or_assoc]

/-! ## What an address's activity depends on -/

theorem activity_fills : (activityOf db a).fills =
    ((fillsOf db a).filter fun f => decide (f.maker = a ∨ f.taker = a)).map fun f =>
      ⟨f.toOrdered, f.fillId, f.maker, f.taker, f.size * f.price⟩ := by
  unfold activityOf fillsOf
  simp only [List.filter_filter]
  congr 1
  refine List.filter_congr fun f _ => ?_
  by_cases hparty : f.maker = a ∨ f.taker = a
  · have hcounts : counts db.orders f a := hparty.elim .inl fun h => .inr (.inl h)
    simp [hparty, hcounts]
  · simp [hparty]

theorem activity_referrals : (activityOf db a).referrals = (fillsOf db a).flatMap fun f =>
    ((joined db.orders f).filter fun o => decide (o.referrer = some a)).map fun o =>
      ⟨f.toOrdered, o.owner, f.size * f.price⟩ := by
  unfold activityOf fillsOf
  simp only
  induction db.fills with
  | nil => rfl
  | cons f rows ih =>
    rw [List.flatMap_cons, ih, List.filter_cons]
    split
    · rw [List.flatMap_cons]
    · rename_i hnot
      have hnone : (joined db.orders f).filter (fun o => decide (o.referrer = some a)) = [] := by
        refine List.filter_eq_nil_iff.2 fun o ho h => hnot ?_
        exact decide_eq_true (.inr (.inr ⟨o, ho, of_decide_eq_true h⟩))
      rw [hnone, List.map_nil, List.nil_append]

/-- The same rows count for the address in both databases. -/
structure Same (db db' : Db) (a : Address) : Prop where
  fills : fillsOf db' a = fillsOf db a
  joined : ∀ f ∈ fillsOf db a, (joined db'.orders f).filter (fun o => decide (o.referrer = some a)) =
    (joined db.orders f).filter fun o => decide (o.referrer = some a)
  pnl : under (·.address) db'.pnl a = under (·.address) db.pnl a
  liquidations : under (·.trader) db'.liquidations a = under (·.trader) db.liquidations a
  balances : under (·.address) db'.balances a = under (·.address) db.balances a

theorem Same.activity (h : Same db db' a) : activityOf db' a = activityOf db a := by
  have hfills : (activityOf db' a).fills = (activityOf db a).fills := by
    rw [activity_fills, activity_fills, h.fills]
  have hreferrals : (activityOf db' a).referrals = (activityOf db a).referrals := by
    rw [activity_referrals, activity_referrals, h.fills]
    simp only [List.flatMap]
    congr 1
    exact List.map_congr_left fun f hf => by rw [h.joined f hf]
  have hpnl : (activityOf db' a).pnl = (activityOf db a).pnl := congrArg (List.map PnlRow.toPnlActivity) h.pnl
  have hliquidations : (activityOf db' a).liquidations = (activityOf db a).liquidations :=
    congrArg (List.map LiquidationRow.toLiquidationActivity) h.liquidations
  have hbalances : (activityOf db' a).balances = (activityOf db a).balances :=
    congrArg (List.map BalanceRow.toBalanceActivity) h.balances
  calc activityOf db' a = ⟨(activityOf db' a).fills, (activityOf db' a).pnl, (activityOf db' a).liquidations,
        (activityOf db' a).balances, (activityOf db' a).referrals⟩ := rfl
    _ = activityOf db a := by rw [hfills, hpnl, hliquidations, hbalances, hreferrals]

theorem Same.blocks (h : Same db db' a) : blocksOf db' a = blocksOf db a := by
  unfold blocksOf
  rw [h.fills, h.pnl, h.liquidations, h.balances]

theorem Same.beyond (h : Same db db' a) : Beyond db' upTo a ↔ Beyond db upTo a := by
  unfold Beyond
  rw [h.blocks]

theorem Same.refl (db : Db) (a : Address) : Same db db a := ⟨rfl, fun _ _ => rfl, rfl, rfl, rfl⟩

theorem Same.trans {db'' : Db} (h : Same db db' a) (h' : Same db' db'' a) : Same db db'' a where
  fills := h'.fills.trans h.fills
  joined f hf := (h'.joined f (h.fills.symm ▸ hf)).trans (h.joined f hf)
  pnl := h'.pnl.trans h.pnl
  liquidations := h'.liquidations.trans h.liquidations
  balances := h'.balances.trans h.balances

/-! ## One event, one order -/

/-- The database with one event more. -/
def Db.push (db : Db) (e : StoredEvent) : Db := { db with events := db.events ++ [e] }

/-- Whoever a fill of the id counted for, the event's fill counts for. -/
def Covers (db : Db) (e : StoredEvent) : Prop :=
  ∀ f ∈ fillRow e, ∀ g ∈ db.fills, g.fillId = f.fillId → ∀ a, counts db.orders g a → counts db.orders f a

theorem push_fills (e : StoredEvent) :
    (db.push e).fills = (match fillRow e with | some f => upsertFill db.fills f | none => db.fills) := by
  unfold Db.fills Db.push
  rw [List.filterMap_append, List.foldl_append]
  cases hf : fillRow e <;> simp [hf]

theorem mem_upsertFill (rows : List FillRow) (f : FillRow) : f ∈ upsertFill rows f := by
  unfold upsertFill
  split
  · rename_i hmem
    obtain ⟨g, hg, hid⟩ := List.mem_map.1 hmem
    exact List.mem_map.2 ⟨g, hg, if_pos hid⟩
  · exact List.mem_append_right _ (List.mem_singleton_self f)

theorem of_mem_upsertFill {rows : List FillRow} (h : g ∈ upsertFill rows f) : g ∈ rows ∨ g = f := by
  unfold upsertFill at h
  split at h
  · obtain ⟨r, hr, rfl⟩ := List.mem_map.1 h
    split
    · exact .inr rfl
    · exact .inl hr
  · obtain h | h := List.mem_append.1 h
    · exact .inl h
    · exact .inr (List.mem_singleton.1 h)

theorem mem_fills (h : f ∈ db.fills) : ∃ e ∈ db.events, fillRow e = some f := by
  have hfold : ∀ new rows : List FillRow, f ∈ new.foldl upsertFill rows → f ∈ rows ∨ f ∈ new := by
    intro new
    induction new with
    | nil => exact fun rows h => .inl h
    | cons g new ih =>
      intro rows h
      obtain h | h := ih _ h
      · obtain h | rfl := of_mem_upsertFill h
        · exact .inl h
        · exact .inr List.mem_cons_self
      · exact .inr (List.mem_cons_of_mem _ h)
  obtain h | h := hfold _ _ h
  · exact absurd h List.not_mem_nil
  · exact List.mem_filterMap.1 h

/-- A row that counts for nobody of a kind replaces or joins only such rows. -/
theorem upsertFill_filter {q : FillRow → Bool} (hf : q f = false) (hold : ∀ g ∈ rows, g.fillId = f.fillId → q g = false) :
    (upsertFill rows f).filter q = rows.filter q := by
  unfold upsertFill
  split
  · clear * - hf hold
    induction rows with
    | nil => rfl
    | cons g rows ih =>
      have htail := ih fun g' hg' => hold g' (List.mem_cons_of_mem _ hg')
      rw [List.map_cons, List.filter_cons, htail, List.filter_cons]
      by_cases hid : g.fillId = f.fillId
      · rw [if_pos hid, hf, hold g List.mem_cons_self hid]
        rfl
      · rw [if_neg hid]
  · rw [List.filter_append, List.filter_cons, hf]
    simp

/-- A table with the row of one event more, for an address it is not of. -/
theorem under_push {ρ : Type} {row : StoredEvent → Option ρ} {key : ρ → Address} (events : List StoredEvent)
    (h : ∀ r ∈ row e, key r ≠ a) :
    under key ((events ++ [e]).filterMap row) a = under key (events.filterMap row) a := by
  rw [List.filterMap_append]
  unfold under
  rw [List.filter_append]
  cases hr : row e with
  | none => simp [hr]
  | some r =>
    have hkey : key r ≠ a := h r hr
    simp [hr, hkey]

theorem pnlRow_block {r : PnlRow} (h : pnlRow e = some r) : r.toOrdered = e.toOrdered := by
  unfold pnlRow at h
  simp only at h
  split at h
  · split at h <;> cases h
    rfl
  · split at h <;> cases h
    rfl
  · cases h

theorem liquidationRow_block {r : LiquidationRow} (h : liquidationRow e = some r) : r.toOrdered = e.toOrdered := by
  unfold liquidationRow at h
  split at h <;> cases h
  rfl

theorem balanceRow_block {r : BalanceRow} (h : balanceRow e = some r) : r.toOrdered = e.toOrdered := by
  unfold balanceRow at h
  split at h <;> cases h
  rfl

theorem fillRow_block (h : fillRow e = some f) : f.toOrdered = e.toOrdered := by
  unfold fillRow at h
  split at h <;> cases h
  rfl

theorem not_beyond_last {n : Nat} (h : ∀ e ∈ db.events, e.blockNumber ≤ n) (a : Address) : ¬ Beyond db (some n) a := by
  rintro ⟨b, hb, hlt⟩
  have hstored : ∃ e ∈ db.events, e.blockNumber = b := by
    rw [mem_blocksOf] at hb
    obtain ⟨f, hf, -, rfl⟩ | ⟨r, hr, -, rfl⟩ | ⟨l, hl, -, rfl⟩ | ⟨r, hr, -, rfl⟩ := hb
    · obtain ⟨e, he, hrow⟩ := mem_fills hf
      exact ⟨e, he, congrArg Ordered.blockNumber (fillRow_block hrow).symm⟩
    · obtain ⟨e, he, hrow⟩ := List.mem_filterMap.1 hr
      exact ⟨e, he, congrArg Ordered.blockNumber (pnlRow_block hrow).symm⟩
    · obtain ⟨e, he, hrow⟩ := List.mem_filterMap.1 hl
      exact ⟨e, he, congrArg Ordered.blockNumber (liquidationRow_block hrow).symm⟩
    · obtain ⟨e, he, hrow⟩ := List.mem_filterMap.1 hr
      exact ⟨e, he, congrArg Ordered.blockNumber (balanceRow_block hrow).symm⟩
  obtain ⟨e, he, rfl⟩ := hstored
  have hlast := hlt n rfl
  have hle := h e he
  omega

/-- **An event counts for an address, or leaves what counts for it.** -/
theorem same_push (hcovers : Covers db e) (a : Address) : Same db (db.push e) a ∨ e.blockNumber ∈ blocksOf (db.push e) a := by
  by_cases hin : e.blockNumber ∈ blocksOf (db.push e) a
  · exact .inr hin
  rw [mem_blocksOf, not_or, not_or, not_or] at hin
  obtain ⟨hfill, hpnl, hliquidation, hbalance⟩ := hin
  have hlast : ∀ {ρ : Type} {row : StoredEvent → Option ρ} {r : ρ}, row e = some r →
      r ∈ (db.push e).events.filterMap row := fun hr =>
    List.mem_filterMap.2 ⟨e, List.mem_append_right _ (List.mem_singleton_self e), hr⟩
  refine .inl ⟨?_, fun _ _ => rfl, ?_, ?_, ?_⟩
  · unfold fillsOf
    rw [push_fills]
    cases hf : fillRow e with
    | none => rfl
    | some f =>
      have hnot : ¬ counts db.orders f a := by
        refine fun hcounts => hfill ⟨f, ?_, hcounts, congrArg Ordered.blockNumber (fillRow_block hf)⟩
        rw [push_fills, hf]
        exact mem_upsertFill _ _
      exact upsertFill_filter (decide_eq_false hnot) fun g hg hid =>
        decide_eq_false fun hcounts => hnot (hcovers f hf g hg hid a hcounts)
  · exact under_push db.events fun r hr ha => hpnl ⟨r, hlast hr, ha, congrArg Ordered.blockNumber (pnlRow_block hr)⟩
  · exact under_push db.events fun r hr ha =>
      hliquidation ⟨r, hlast hr, ha, congrArg Ordered.blockNumber (liquidationRow_block hr)⟩
  · exact under_push db.events fun r hr ha =>
      hbalance ⟨r, hlast hr, ha, congrArg Ordered.blockNumber (balanceRow_block hr)⟩

/-- The events of a window, one by one. -/
def CoversAll (db : Db) : List StoredEvent → Prop
  | [] => True
  | e :: events => Covers db e ∧ CoversAll (db.push e) events

/-- **A window counts for an address, or leaves what counts for it.** -/
theorem same_index : ∀ {events : List StoredEvent} {db : Db}, CoversAll db events → ∀ a,
    Same db { db with events := db.events ++ events } a ∨
      ∃ e ∈ events, e.blockNumber ∈ blocksOf { db with events := db.events ++ events } a
  | [], db, _, a => .inl (by
      rw [show db.events ++ [] = db.events from List.append_nil _]
      exact Same.refl db a)
  | e :: events, db, h, a => by
    have hall : (⟨db.events ++ e :: events, db.orders⟩ : Db) = ⟨(db.push e).events ++ events, (db.push e).orders⟩ := by
      simp [Db.push]
    rw [hall]
    obtain hrest | ⟨e', he', hblock⟩ := same_index h.2 a
    · obtain hhead | hblock := same_push h.1 a
      · exact .inl (hhead.trans hrest)
      · refine .inr ⟨e, List.mem_cons_self, ?_⟩
        rw [hrest.blocks]
        exact hblock
    · exact .inr ⟨e', List.mem_cons_of_mem _ he', hblock⟩

theorem joined_append (f : FillRow) : joined (orders ++ [o]) f = joined orders f ++ joined [o] f := List.filter_append ..

/-- **An order counts for its referrer**, if a fill of it is there; it leaves what counts for anybody else. -/
theorem same_insertOrder (o : OrderRow) (a : Address) : Same db { db with orders := insertOrder db.orders o } a ∨
    o.orderHash ∉ db.orders.map (·.orderHash) ∧ o.referrer = some a ∧ ∃ f ∈ db.fills,
      o.orderHash ∈ [f.makerOrderHash, f.takerOrderHash] ∧
        f.blockNumber ∈ blocksOf { db with orders := insertOrder db.orders o } a := by
  by_cases hknown : o.orderHash ∈ db.orders.map (·.orderHash)
  · rw [insertOrder, if_pos hknown]
    exact .inl (Same.refl db a)
  rw [insertOrder, if_neg hknown]
  by_cases hlate : o.referrer = some a ∧ ∃ f ∈ db.fills, o.orderHash ∈ [f.makerOrderHash, f.takerOrderHash]
  · obtain ⟨hreferrer, f, hf, hhash⟩ := hlate
    refine .inr ⟨hknown, hreferrer, f, hf, hhash, ?_⟩
    have hjoined : o ∈ joined (db.orders ++ [o]) f :=
      List.mem_filter.2 ⟨List.mem_append_right _ (List.mem_singleton_self o), decide_eq_true hhash⟩
    exact mem_blocksOf.2 (.inl ⟨f, hf, .inr (.inr ⟨o, hjoined, hreferrer⟩), rfl⟩)
  · have hnone : ∀ f ∈ db.fills, (joined [o] f).filter (fun o => decide (o.referrer = some a)) = [] := by
      intro f hf
      refine List.filter_eq_nil_iff.2 fun o' ho' h => hlate ?_
      obtain ⟨ho', hhash⟩ := List.mem_filter.1 ho'
      obtain rfl := List.mem_singleton.1 ho'
      exact ⟨of_decide_eq_true h, f, hf, of_decide_eq_true hhash⟩
    have hsame : ∀ f ∈ db.fills, (joined (db.orders ++ [o]) f).filter (fun o => decide (o.referrer = some a)) =
        (joined db.orders f).filter fun o => decide (o.referrer = some a) := by
      intro f hf
      rw [joined_append, List.filter_append, hnone f hf, List.append_nil]
    have hreferred : ∀ {orders : List OrderRow} {f : FillRow}, (∃ o ∈ joined orders f, o.referrer = some a) ↔
        (joined orders f).filter (fun o => decide (o.referrer = some a)) ≠ [] := by
      intro orders f
      rw [Ne, List.filter_eq_nil_iff]
      simp
    refine .inl ⟨?_, fun f hf => hsame f (List.mem_filter.1 hf).1, rfl, rfl, rfl⟩
    unfold fillsOf
    refine List.filter_congr fun f hf => ?_
    unfold counts
    simp only [hreferred, hsame f hf]

/-! ## Places and ids -/

/-- The stored events are in order. -/
def InOrder (db : Db) : Prop := db.events.Pairwise fun e e' => byChainOrder e.toOrdered e'.toOrdered < 0

theorem byChainOrder_lt {x y : Ordered} : byChainOrder x y < 0 ↔
    x.blockNumber < y.blockNumber ∨ x.blockNumber = y.blockNumber ∧ x.logIndex < y.logIndex := by
  unfold byChainOrder
  split_ifs <;> omega

theorem InOrder.places (h : InOrder db) : (db.events.map (·.place)).Nodup := by
  refine List.pairwise_map.2 (h.imp fun {e e'} hlt heq => ?_)
  rw [byChainOrder_lt] at hlt
  obtain ⟨hblock, hindex⟩ := Prod.ext_iff.1 heq
  simp only [Ordered.place] at hblock hindex
  omega

/-- The places of a table with at most one row an event are places of the events. -/
theorem places_sublist {ρ : Type} {row : StoredEvent → Option ρ} {f : ρ → Ordered}
    (h : ∀ e r, row e = some r → f r = e.toOrdered) : ∀ events : List StoredEvent,
    ((events.filterMap row).map fun r => (f r).place).Sublist (events.map (·.place))
  | [] => .slnil
  | e :: events => by
    cases hr : row e with
    | none =>
      rw [List.filterMap_cons_none hr]
      exact (places_sublist h events).cons _
    | some r =>
      rw [List.filterMap_cons_some hr, List.map_cons, List.map_cons, h e r hr]
      exact (places_sublist h events).cons_cons _

theorem upsertFill_nodup (h : (rows.map (·.fillId)).Nodup) (f : FillRow) : ((upsertFill rows f).map (·.fillId)).Nodup := by
  unfold upsertFill
  split
  · rw [List.map_map]
    have hsame : (fun r : FillRow => r.fillId) ∘ (fun r => if r.fillId = f.fillId then f else r) = (·.fillId) := by
      funext r
      simp only [Function.comp_apply]
      split
      · exact Eq.symm ‹_›
      · rfl
    rwa [hsame]
  · rename_i hnew
    rw [List.map_append]
    exact h.append (List.nodup_singleton _) (List.disjoint_singleton.2 hnew)

theorem fills_nodup (db : Db) : (db.fills.map (·.fillId)).Nodup := by
  have hfold : ∀ (new rows : List FillRow), (rows.map (·.fillId)).Nodup → ((new.foldl upsertFill rows).map (·.fillId)).Nodup := by
    intro new
    induction new with
    | nil => exact fun _ h => h
    | cons f new ih => exact fun rows h => ih _ (upsertFill_nodup h f)
  exact hfold _ _ List.nodup_nil

theorem not_both {r : PnlRow} {b : BalanceRow} (hr : pnlRow e = some r) : balanceRow e ≠ some b := by
  intro hb
  unfold balanceRow at hb
  unfold pnlRow at hr
  split at hb
  · rename_i hpayload
    simp only [hpayload] at hr
    cases hr
  · cases hb

/-- **The rows of an address are at distinct places, its fills under distinct ids.** -/
theorem activity_distinct (h : InOrder db) (a : Address) : (activityOf db a).Distinct where
  places := by
    have hbalances : ((activityOf db a).balances.map (·.place)).Sublist (db.balances.map (·.place)) := by
      unfold activityOf
      rw [List.map_map]
      exact List.filter_sublist.map _
    have hpnl : ((activityOf db a).pnl.map (·.place)).Sublist (db.pnl.map (·.place)) := by
      unfold activityOf
      rw [List.map_map]
      exact List.filter_sublist.map _
    refine List.Nodup.sublist (hbalances.append hpnl) ?_
    refine List.nodup_append'.2 ⟨h.places.sublist (places_sublist (fun e r => balanceRow_block) _),
      h.places.sublist (places_sublist (fun e r => pnlRow_block) _), ?_⟩
    intro place hb hp
    obtain ⟨b, hb, hplace⟩ := List.mem_map.1 hb
    obtain ⟨r, hr, hplace'⟩ := List.mem_map.1 hp
    obtain ⟨e, he, hbalance⟩ := List.mem_filterMap.1 hb
    obtain ⟨e', he', hpnl⟩ := List.mem_filterMap.1 hr
    have heq : e = e' := by
      refine List.inj_on_of_nodup_map h.places he he' ?_
      rw [balanceRow_block hbalance] at hplace
      rw [pnlRow_block hpnl] at hplace'
      exact hplace.trans hplace'.symm
    subst heq
    exact not_both hpnl hbalance
  fillIds := by
    have hfills : ((activityOf db a).fills.map (·.fillId)).Sublist (db.fills.map (·.fillId)) := by
      unfold activityOf
      rw [List.map_map]
      exact List.filter_sublist.map _
    exact (fills_nodup db).sublist hfills

/-! ## The rows of one address -/

def StatTables.of (t : StatTables) (a : Address) : List TraderStatRow × List AccountAnalyticsRow :=
  (under (·.address) t.traderStats a, under (·.address) t.analytics a)

def rowsOf (st : AddressStats) : List TraderStatRow × List AccountAnalyticsRow := (st.traderStats, st.analytics.toList)

theorem of_replace {addresses : List Address} {results : Address → AddressStats} (hnodup : addresses.Nodup)
    (hresults : ∀ a ∈ addresses, ∃ activity now, results a = computeAddressStats a activity now) (a : Address) :
    (replaceAddressStats t addresses results).of a = if a ∈ addresses then rowsOf (results a) else t.of a := by
  have hstats : ∀ a ∈ addresses, ∀ r ∈ (results a).traderStats, r.address = a := by
    intro a ha r hr
    obtain ⟨activity, now, heq⟩ := hresults a ha
    rw [heq] at hr
    exact (mem_traderStats hr).1
  have hanalytics : ∀ a ∈ addresses, ∀ r ∈ (results a).analytics.toList, r.address = a := by
    intro a ha r hr
    obtain ⟨activity, now, heq⟩ := hresults a ha
    rw [heq] at hr
    exact mem_analytics hr
  unfold StatTables.of replaceAddressStats
  simp only
  rw [under_replace hstats hnodup, under_replace hanalytics hnodup]
  split <;> rfl

theorem compute_empty (a : Address) (now : Int) : rowsOf (computeAddressStats a emptyActivity now) = ([], []) := by
  have hquiet : ∀ start, (totals emptyActivity start).active = false := fun _ => rfl
  have hrow : statRow a emptyActivity now = fun _ => none := by
    funext period
    exact statRow_quiet (hquiet _)
  have haccount : accountRow a emptyActivity now = none := rfl
  unfold computeAddressStats
  rw [hrow, haccount]
  rfl

theorem current_starts {now : Int} {start : Int} : start ∈ (rolling now).map (·.2) ↔
    ∃ period, period ≠ .all ∧ start = windowStart period now := by
  simp only [rolling, List.map_map, List.mem_map, List.mem_filter, decide_eq_true_eq, Function.comp_apply]
  constructor
  · rintro ⟨period, ⟨-, hperiod⟩, rfl⟩
    exact ⟨period, hperiod, rfl⟩
  · rintro ⟨period, hperiod, rfl⟩
    exact ⟨period, ⟨by cases period <;> decide, hperiod⟩, rfl⟩

theorem month_rolling (now : Int) : StatsPeriod.month ∈ (rolling now).map (·.1) := by
  simp [rolling, STATS_PERIODS]

/-- **Rows of another day are flagged**, by the month's among them: its start is the start of no later window. -/
theorem flagged {activity : AddressActivity} {now now' : Int} (h : now ≤ now')
    (hrows : t.of a = rowsOf (computeAddressStats a activity now)) (hday : now / DAY_MS ≠ now' / DAY_MS)
    (hactive : (totals activity (windowStart .month now)).active = true) :
    a ∈ addressesWithStaleWindow t (rolling now') := by
  obtain ⟨r, hr, hperiod, hstart⟩ : ∃ r ∈ (computeAddressStats a activity now).traderStats, r.period = .month ∧
      r.periodStart = windowStart .month now := month_row hactive
  have hunder : r ∈ under (·.address) t.traderStats a := by
    rw [show under (·.address) t.traderStats a = _ from congrArg Prod.fst hrows]
    exact hr
  obtain ⟨hmem, haddress⟩ := mem_under.1 hunder
  unfold addressesWithStaleWindow
  rw [List.mem_dedup]
  refine List.mem_map.2 ⟨r, List.mem_filter.2 ⟨hmem, decide_eq_true ⟨?_, fun hcurrent => ?_⟩⟩, haddress⟩
  · rw [hperiod]
    exact month_rolling now'
  · obtain ⟨period, hrolls, heq⟩ := current_starts.1 hcurrent
    rw [hstart] at heq
    exact hday (day_of_month_start h hrolls heq)

/-- **Rows not flagged are the rows of today.** -/
theorem not_stale {activity : AddressActivity} {now now' : Int} (h : now ≤ now')
    (hrows : t.of a = rowsOf (computeAddressStats a activity now))
    (hstale : a ∉ addressesWithStaleWindow t (rolling now')) :
    t.of a = rowsOf (computeAddressStats a activity now') := by
  cases hactive : (totals activity (windowStart .month now)).active with
  | true =>
    have hday : now / DAY_MS = now' / DAY_MS := by
      by_contra hday
      exact hstale (flagged h hrows hday hactive)
    rw [hrows, computeAddressStats_day hday]
  | false => rw [hrows, computeAddressStats_quiet h hactive]

theorem of_unknown (h : a ∉ allKnownAddresses db t) (now : Int) :
    t.of a = rowsOf (computeAddressStats a (activityOf db a) now) := by
  rw [mem_known] at h
  simp only [not_or, not_exists, not_and] at h
  obtain ⟨hmaker, htaker, horder, hpnl, hliquidation, hbalance, hstat, haccount⟩ := h
  have hactivity : activityOf db a = emptyActivity := by
    unfold activityOf emptyActivity
    simp only [AddressActivity.mk.injEq, List.map_eq_nil_iff, List.filter_eq_nil_iff, List.flatMap_eq_nil_iff,
      decide_eq_true_eq]
    exact ⟨fun f hf h => h.elim (hmaker f hf) (htaker f hf), hpnl, hliquidation, hbalance,
      fun f _ o ho => horder o (List.mem_filter.1 ho).1⟩
  have hnone : t.of a = ([], []) := by
    unfold StatTables.of under
    rw [List.filter_eq_nil_iff.2 fun r hr => decide_eq_true_iff.not.2 (hstat r hr),
      List.filter_eq_nil_iff.2 fun r hr => decide_eq_true_iff.not.2 (haccount r hr)]
  rw [hactivity, compute_empty, hnone]

end Rows

end Kryon.Stats
