import Kryon.MatcherDb
import Kryon.MatchSafety
import Kryon.Lib.OrderedMap
/-!
# PublicBook — the book the API shows, and what the matcher trades of it

The working orders of a market are read with the matcher's reservations taken off, gathered into price levels, and in the
browser into buckets of a tick with running totals.  So a level is what the matcher's own book holds at its price
(`public_book`), and a running total what it holds at that price or better (`depth_shown`).
-/
namespace Kryon.PublicBook

open Matcher (Db OrderRow FillRow OrderStatus)
open Matching (EngineOrder EngineInput Ledger)

inductive Side where
  | bid
  | ask
deriving DecidableEq

/-- The side's order: the highest bid first, the lowest ask first. -/
def Side.le : Side → Int → Int → Prop
  | .bid, a, b => b ≤ a
  | .ask, a, b => a ≤ b

instance (side : Side) : DecidableRel side.le := fun a b => by
  cases side
  · exact inferInstanceAs (Decidable (b ≤ a))
  · exact inferInstanceAs (Decidable (a ≤ b))

def Side.isLong : Side → Bool
  | .bid => true
  | .ask => false

/-! ## Orders -/

/-- `size − filledSize − reserved`, floored at zero. -/
def remainingSize (size filledSize reserved : Int) : Int :=
  let r := size - filledSize - reserved
  if r > 0 then r else 0

/-- An order as the API shows it. -/
structure OrderView where
  orderHash : Bytes32
  owner : Address
  marketId : MarketId
  isLong : Bool
  size : Int
  limitPrice : Int
  reduceOnly : Bool
  nonce : Int
  expiry : Int
  status : OrderStatus
  filledSize : Int
  /-- Size reserved by PENDING fills. -/
  pendingSize : Int
  /-- What is still available to match. -/
  remainingSize : Int
  minValidNonce : Int
  createdAt : Int

/-- What the PENDING fills without a reason that `extra` selects reserve of an order. -/
def pendingReservation (db : Db) (extra : FillRow → Bool) (orderHash : Bytes32) : Int :=
  ((db.fills.filter fun r => decide (r.status = .pending ∧ r.rejectReason = none) && extra r).map fun r =>
    (if r.makerOrderHash = orderHash then r.size else 0) + if r.takerOrderHash = orderHash then r.size else 0).sum

def orderFromRow (db : Db) (extra : FillRow → Bool) (o : OrderRow) : OrderView :=
  let pendingSize := pendingReservation db extra o.orderHash
  { orderHash := o.orderHash
    owner := o.order.owner
    marketId := o.order.marketId
    isLong := o.order.isLong
    size := o.order.size
    limitPrice := o.order.limitPrice
    reduceOnly := o.order.reduceOnly
    nonce := o.order.nonce
    expiry := o.order.expiry
    status := o.status
    filledSize := o.filledSize
    pendingSize := pendingSize
    remainingSize := remainingSize o.order.size o.filledSize pendingSize
    minValidNonce := db.minValidNonce o.order.owner
    createdAt := o.createdAt }

/-- A live status, not yet expired, not under the owner's nonce floor, and size left. -/
def working (db : Db) (extra : FillRow → Bool) (nowSec : Int) (o : OrderRow) : Bool :=
  decide (o.status.tradeable = true ∧ nowSec < (o.order.expiry : Int) ∧
    db.minValidNonce o.order.owner ≤ o.order.nonce ∧
    (o.order.size : Int) - o.filledSize - pendingReservation db extra o.orderHash > 0)

/-- The order rows are read in: by arrival, and then by hash. -/
def arrivedBefore (a b : OrderView) : Prop :=
  a.createdAt < b.createdAt ∨ a.createdAt = b.createdAt ∧ a.orderHash ≤ b.orderHash

instance : DecidableRel arrivedBefore := fun _ _ => inferInstanceAs (Decidable (_ ∨ _))

/-- The fills of a market. -/
def inMarket (marketId : MarketId) (r : FillRow) : Bool := decide (r.marketId = marketId)

/-- Every working order in one market. -/
def listWorkingOrdersForMarket (db : Db) (marketId : MarketId) (nowSec : Int) : List OrderView :=
  ((db.orders.filter fun o => decide (o.order.marketId = marketId) && working db (inMarket marketId) nowSec o).map
    (orderFromRow db (inMarket marketId))).insertionSort arrivedBefore

/-! ## Levels -/

structure BookLevel where
  price : Int
  /-- The remaining sizes at this price. -/
  size : Int
  orders : Int
deriving DecidableEq

def addOrder (level : Option BookLevel) (o : OrderView) : BookLevel :=
  let l := level.getD ⟨o.limitPrice, 0, 0⟩
  { l with size := l.size + o.remainingSize, orders := l.orders + 1 }

/-- The levels of one side, from its orders with size left. -/
def levelsOf (orders : List OrderView) (side : Side) : OrderedMap Int BookLevel :=
  OrderedMap.group (·.limitPrice) addOrder (orders.filter fun o => decide (0 < o.remainingSize ∧ o.isLong = side.isLong))

/-- Each side's levels, best first. -/
def aggregateBook (orders : List OrderView) (side : Side) : List BookLevel :=
  (levelsOf orders side).values.insertionSort fun a b => side.le a.price b.price

/-! ## Buckets -/

structure BookRow where
  price : Int
  size : Int
  /-- The size, or its notional at the bucket's price. -/
  amount : Int
  /-- The amounts from the best price outward. -/
  total : Int

/-- A price at the tick: bids round down, asks up. -/
def bucketOf (tick : Int) (side : Side) (price : Int) : Int :=
  let floor := price.tdiv tick * tick
  if side = .bid ∨ floor = price then floor else floor + tick

def buckets (levels : List BookLevel) (tick : Int) (side : Side) : OrderedMap Int Int :=
  OrderedMap.group (fun l => bucketOf tick side l.price) (fun size l => size.getD 0 + l.size) levels

def amountOf (quote : Bool) (e : Int × Int) : Int := if quote then (e.2 * e.1).tdiv PRECISION else e.2

def rowsFrom (quote : Bool) (total : Int) : List (Int × Int) → List BookRow
  | [] => []
  | e :: rest =>
    ⟨e.1, e.2, amountOf quote e, total + amountOf quote e⟩ :: rowsFrom quote (total + amountOf quote e) rest

def aggregateSide (levels : List BookLevel) (tick : Int) (side : Side) (depth : Nat) (quote : Bool) : List BookRow :=
  rowsFrom quote 0 (((buckets levels tick side).entries.insertionSort fun a b => side.le a.1 b.1).take depth)

variable {db : Db} {marketId : MarketId} {nowSec tick : Int} {side : Side}

theorem Side.le_total (side : Side) (a b : Int) : side.le a b ∨ side.le b a := by
  cases side
  · exact (Int.le_total b a)
  · exact (Int.le_total a b)

theorem Side.le_trans {a b c : Int} (h : side.le a b) (h' : side.le b c) : side.le a c := by
  cases side
  · exact Int.le_trans h' h
  · exact Int.le_trans h h'

theorem Side.le_antisymm {a b : Int} (h : side.le a b) (h' : side.le b a) : a = b := by
  cases side
  · exact Int.le_antisymm h' h
  · exact Int.le_antisymm h h'

/-- What is sorted by distinct prices is strictly sorted. -/
theorem sorted_prices {α : Type} (price : α → Int) {xs : List α} (h : (xs.map price).Nodup) :
    (xs.insertionSort fun a b => side.le (price a) (price b)).Pairwise fun a b =>
      side.le (price a) (price b) ∧ price a ≠ price b := by
  have : Std.Total fun a b : α => side.le (price a) (price b) := ⟨fun a b => side.le_total _ _⟩
  have : IsTrans α fun a b => side.le (price a) (price b) := ⟨fun _ _ _ => Side.le_trans⟩
  have hnodup := (((List.perm_insertionSort (fun a b => side.le (price a) (price b)) xs).map price).nodup_iff).2 h
  exact (List.pairwise_insertionSort _ xs).and (List.pairwise_map.1 hnodup)

/-! ## A level is what the matcher holds at its price -/

def left (o : EngineOrder) : Int := o.size - o.filledSize

/-- Of the matcher's book, the orders of a side that are not under their owner's floor and have size left. -/
def resting (db : Db) (marketId : MarketId) (nowSec : Int) (side : Side) : List EngineOrder :=
  (Matcher.loadOrders db marketId nowSec).filter fun o =>
    decide (o.isLong = side.isLong ∧ (db.minValidNonce o.owner : Int) ≤ o.nonce ∧ 0 < left o)

theorem pendingReservation_eq (db : Db) (marketId : MarketId) (orderHash : Bytes32) :
    pendingReservation db (inMarket marketId) orderHash =
      Matcher.reserved db marketId orderHash := by
  unfold pendingReservation Matcher.reserved inMarket
  congr 2
  refine List.filter_congr fun r _ => ?_
  rw [← Bool.decide_and]
  simp only [and_assoc]

/-- **The API and the matcher see the same size at the same prices.** -/
theorem working_perm (db : Db) (marketId : MarketId) (nowSec : Int) (side : Side) :
    ((((listWorkingOrdersForMarket db marketId nowSec).filter fun o =>
      decide (0 < o.remainingSize ∧ o.isLong = side.isLong))).map fun o => (o.limitPrice, o.remainingSize)).Perm
    ((resting db marketId nowSec side).map fun o => (o.limitPrice, left o)) := by
  refine (((List.perm_insertionSort _ _).filter _).map _).trans
    (List.Perm.trans ?_ (((List.perm_insertionSort _ _).filter _).map _).symm)
  simp only [List.filter_map, List.map_map, List.filter_filter]
  have hworking : ∀ o : OrderRow, (working db (inMarket marketId) nowSec o = true ↔
      o.status.tradeable = true ∧ nowSec < (o.order.expiry : Int) ∧ db.minValidNonce o.order.owner ≤ o.order.nonce ∧
        0 < left (Matcher.toEngineOrder db marketId o)) := by
    intro o
    simp only [working, decide_eq_true_eq, pendingReservation_eq, left, Matcher.toEngineOrder, gt_iff_lt, sub_sub]
  have hremaining : ∀ o : OrderRow, working db (inMarket marketId) nowSec o = true →
      (orderFromRow db (inMarket marketId) o).remainingSize =
        left (Matcher.toEngineOrder db marketId o) := by
    intro o ho
    have hpos := ((hworking o).1 ho).2.2.2
    simp only [left, Matcher.toEngineOrder] at hpos
    simp only [orderFromRow, remainingSize, pendingReservation_eq, left, Matcher.toEngineOrder, sub_sub] at hpos ⊢
    exact if_pos hpos
  have hfilter : (db.orders.filter fun o =>
      ((fun o : OrderView => decide (0 < o.remainingSize ∧ o.isLong = side.isLong)) ∘
        orderFromRow db (inMarket marketId)) o &&
        (decide (o.order.marketId = marketId) && working db (inMarket marketId) nowSec o)) =
      db.orders.filter fun o =>
        ((fun o : EngineOrder => decide (o.isLong = side.isLong ∧ (db.minValidNonce o.owner : Int) ≤ o.nonce ∧ 0 < left o)) ∘
          Matcher.toEngineOrder db marketId) o &&
          decide (o.order.marketId = marketId ∧ o.status.tradeable = true ∧ nowSec < (o.order.expiry : Int)) := by
    refine List.filter_congr fun o _ => Bool.eq_iff_iff.2 ?_
    simp only [Function.comp_apply, Bool.and_eq_true, decide_eq_true_eq]
    constructor
    · rintro ⟨⟨hpos, hside⟩, hmarket, ho⟩
      obtain ⟨hlive, hexpiry, hnonce, hleft⟩ := (hworking o).1 ho
      exact ⟨⟨hside, Int.ofNat_le.2 hnonce, hleft⟩, hmarket, hlive, hexpiry⟩
    · rintro ⟨⟨hside, hnonce, hleft⟩, hmarket, hlive, hexpiry⟩
      have ho := (hworking o).2 ⟨hlive, hexpiry, Int.ofNat_le.1 hnonce, hleft⟩
      exact ⟨⟨(hremaining o ho).symm ▸ hleft, hside⟩, hmarket, ho⟩
  rw [← hfilter]
  refine List.Perm.of_eq (List.map_congr_left fun o ho => ?_)
  have hboth := (List.mem_filter.1 ho).2
  simp only [Bool.and_eq_true] at hboth
  exact Prod.ext rfl (hremaining o hboth.2.2)

theorem foldl_addOrder (xs : List OrderView) (l : BookLevel) :
    xs.foldl (fun acc o => some (addOrder acc o)) (some l) =
      some ⟨l.price, l.size + (xs.map (·.remainingSize)).sum, l.orders + xs.length⟩ := by
  induction xs generalizing l with
  | nil => simp
  | cons o xs ih =>
    rw [List.foldl_cons, ih]
    simp [addOrder, add_assoc, add_comm, add_left_comm]

/-- The orders of a side with size left at a price. -/
def ordersAt (orders : List OrderView) (side : Side) (price : Int) : List OrderView :=
  (orders.filter fun o => decide (0 < o.remainingSize ∧ o.isLong = side.isLong)).filter fun o =>
    decide (o.limitPrice = price)

theorem get_levelsOf (orders : List OrderView) (side : Side) (price : Int) :
    (levelsOf orders side).get price =
      if ordersAt orders side price = [] then none
      else some ⟨price, ((ordersAt orders side price).map (·.remainingSize)).sum, (ordersAt orders side price).length⟩ := by
  rw [levelsOf, OrderedMap.get_group]
  change (ordersAt orders side price).foldl _ none = _
  have hat : ∀ o ∈ ordersAt orders side price, o.limitPrice = price := fun o ho =>
    of_decide_eq_true (List.mem_filter.1 ho).2
  cases hxs : ordersAt orders side price with
  | nil => rfl
  | cons o xs =>
    rw [List.foldl_cons, foldl_addOrder, if_neg (List.cons_ne_nil o xs)]
    simp [addOrder, hat o (hxs ▸ List.mem_cons_self), add_comm]

theorem mem_aggregateBook {orders : List OrderView} {l : BookLevel} :
    l ∈ aggregateBook orders side ↔ ordersAt orders side l.price ≠ [] ∧
      l.size = ((ordersAt orders side l.price).map (·.remainingSize)).sum ∧
      l.orders = (ordersAt orders side l.price).length := by
  rw [aggregateBook, List.mem_insertionSort, OrderedMap.mem_values]
  constructor
  · rintro ⟨price, h⟩
    rw [get_levelsOf] at h
    split at h
    · exact absurd h (by simp)
    · rename_i hne
      rw [Option.some.injEq] at h
      subst h
      exact ⟨hne, rfl, rfl⟩
  · rintro ⟨hne, hsize, horders⟩
    refine ⟨l.price, ?_⟩
    rw [get_levelsOf, if_neg hne, ← hsize, ← horders]

theorem price_eq_key {orders : List OrderView} {e : Int × BookLevel} (he : e ∈ (levelsOf orders side).entries) :
    e.2.price = e.1 := by
  have hget := OrderedMap.get_eq_some.2 (show (e.1, e.2) ∈ (levelsOf orders side).entries from he)
  rw [get_levelsOf] at hget
  split at hget
  · exact absurd hget (by simp)
  · rw [Option.some.injEq] at hget
    rw [← hget]

theorem levels_sorted (orders : List OrderView) (side : Side) :
    (aggregateBook orders side).Pairwise fun a b => side.le a.price b.price ∧ a.price ≠ b.price := by
  refine sorted_prices BookLevel.price ?_
  have hkeys : (levelsOf orders side).values.map BookLevel.price = (levelsOf orders side).keys := by
    rw [OrderedMap.values, OrderedMap.keys, List.map_map]
    exact List.map_congr_left fun e he => price_eq_key he
  rw [hkeys]
  exact OrderedMap.keys_nodup _

/-- What the matcher's book holds on a side at the prices with `P`. -/
def restingAt (db : Db) (marketId : MarketId) (nowSec : Int) (side : Side) (P : Int → Bool) : List EngineOrder :=
  (resting db marketId nowSec side).filter fun o => P o.limitPrice

theorem sizes_perm (db : Db) (marketId : MarketId) (nowSec : Int) (side : Side) (P : Int → Bool) :
    ((((listWorkingOrdersForMarket db marketId nowSec).filter fun o =>
      decide (0 < o.remainingSize ∧ o.isLong = side.isLong)).filter fun o => P o.limitPrice).map (·.remainingSize)).Perm
    ((restingAt db marketId nowSec side P).map left) := by
  have h := ((working_perm db marketId nowSec side).filter fun e => P e.1).map Prod.snd
  simp only [List.filter_map, List.map_map] at h
  exact h

/-! ## What the engine may trade of it -/

/-- A matching run on the market's book. -/
def engineInput (db : Db) (marketId : MarketId) (nowSec minFillNotional : Int) (acceptPrice : Option (Int → Bool)) :
    EngineInput where
  marketId := marketId
  nowSec := nowSec
  orders := Matcher.loadOrders db marketId nowSec
  positions a := db.positions (a, marketId)
  minValidNonce a := db.minValidNonce a
  minFillNotional := minFillNotional
  acceptPrice := acceptPrice

theorem mem_loadOrders {o : EngineOrder} (h : o ∈ Matcher.loadOrders db marketId nowSec) :
    o.marketId = marketId ∧ nowSec < o.expiry ∧ 0 ≤ o.limitPrice := by
  rw [Matcher.loadOrders, List.mem_insertionSort, List.mem_map] at h
  obtain ⟨r, hr, rfl⟩ := h
  obtain ⟨hmarket, -, hexpiry⟩ := of_decide_eq_true (List.mem_filter.1 hr).2
  exact ⟨hmarket, hexpiry, Int.natCast_nonneg _⟩

/-- **What the engine may trade on a side is what rests there**, but for an expiry beyond the longest and a reduce-only
order with nothing to reduce. -/
theorem eligible_side (db : Db) (marketId : MarketId) (nowSec minFillNotional : Int) (acceptPrice : Option (Int → Bool))
    (side : Side) :
    ((Matching.eligible (engineInput db marketId nowSec minFillNotional acceptPrice)).filter fun o =>
      decide (o.isLong = side.isLong)) =
    (resting db marketId nowSec side).filter fun o => decide (o.expiry ≤ nowSec + Matching.MAX_ORDER_TTL_SECONDS ∧
      (o.reduceOnly = true → 0 < (Ledger.new fun a => db.positions (a, marketId)).fillable o)) := by
  rw [Matching.eligible, resting, List.filter_filter, List.filter_filter]
  refine List.filter_congr fun o ho => Bool.eq_iff_iff.2 ?_
  obtain ⟨hmarket, hexpiry, -⟩ := mem_loadOrders ho
  simp only [Bool.and_eq_true, decide_eq_true_eq, Option.isNone_iff_eq_none, Matching.ineligible_eq_none]
  simp only [engineInput, left]
  constructor
  · rintro ⟨hside, -, ⟨-, httl⟩, hnonce, hleft, hreduce⟩
    exact ⟨⟨httl, hreduce⟩, hside, hnonce, hleft⟩
  · rintro ⟨⟨httl, hreduce⟩, hside, hnonce, hleft⟩
    exact ⟨hside, hmarket, ⟨hexpiry, httl⟩, hnonce, hleft, hreduce⟩

theorem fillable_le_left {positions : Address → Int} {o : EngineOrder} (h : 0 < left o) :
    (Ledger.new positions).fillable o ≤ left o := by
  have hremaining : (Ledger.new positions).remaining o = left o := by
    simp [Ledger.remaining, Ledger.new, left]
  simp only [Ledger.fillable, hremaining]
  split
  · exact le_refl _
  · split
    · exact h.le
    · split
      · exact h.le
      · exact min_le_left _ _

theorem sum_filter_le {α : Type} {f g : α → Int} (q : α → Bool) (xs : List α)
    (h : ∀ x ∈ xs, f x ≤ g x) (h0 : ∀ x ∈ xs, 0 ≤ g x) : ((xs.filter q).map f).sum ≤ (xs.map g).sum := by
  induction xs with
  | nil => exact le_refl _
  | cons x xs ih =>
    have htail := ih (fun y hy => h y (List.mem_cons_of_mem x hy)) fun y hy => h0 y (List.mem_cons_of_mem x hy)
    have hx := h x List.mem_cons_self
    have hx0 := h0 x List.mem_cons_self
    by_cases hq : q x = true
    · rw [List.filter_cons_of_pos hq]
      simp only [List.map_cons, List.sum_cons]
      omega
    · rw [List.filter_cons_of_neg hq]
      simp only [List.map_cons, List.sum_cons]
      omega

/-- **The public book is the matcher's.**  Each side's levels are strictly best first, and there is a level at a price
exactly where the matcher's own book holds live orders above their owner's nonce floor with size left, of that many orders
and of what they have left.  Of these the engine may trade all but the reduce-only ones with nothing to reduce and those
that expire beyond the longest order, and at no price more than the level shows. -/
theorem public_book (db : Db) (marketId : MarketId) (nowSec minFillNotional : Int) (acceptPrice : Option (Int → Bool))
    (side : Side) :
    let levels := aggregateBook (listWorkingOrdersForMarket db marketId nowSec) side
    let tradable := (Matching.eligible (engineInput db marketId nowSec minFillNotional acceptPrice)).filter fun o =>
      decide (o.isLong = side.isLong)
    let fillable := (Ledger.new fun a => db.positions (a, marketId)).fillable
    levels.Pairwise (fun a b => side.le a.price b.price ∧ a.price ≠ b.price) ∧
      (∀ l, l ∈ levels ↔ restingAt db marketId nowSec side (fun p => decide (p = l.price)) ≠ [] ∧
        l.size = ((restingAt db marketId nowSec side fun p => decide (p = l.price)).map left).sum ∧
        l.orders = (restingAt db marketId nowSec side fun p => decide (p = l.price)).length) ∧
      tradable = (resting db marketId nowSec side).filter (fun o =>
        decide (o.expiry ≤ nowSec + Matching.MAX_ORDER_TTL_SECONDS ∧ (o.reduceOnly = true → 0 < fillable o))) ∧
      ∀ l ∈ levels, ((tradable.filter fun o => decide (o.limitPrice = l.price)).map fillable).sum ≤ l.size := by
  intro levels tradable fillable
  have hlevels : ∀ l, l ∈ levels ↔ restingAt db marketId nowSec side (fun p => decide (p = l.price)) ≠ [] ∧
      l.size = ((restingAt db marketId nowSec side fun p => decide (p = l.price)).map left).sum ∧
      l.orders = (restingAt db marketId nowSec side fun p => decide (p = l.price)).length := by
    intro l
    have hperm := sizes_perm db marketId nowSec side fun p => decide (p = l.price)
    have hlen := hperm.length_eq
    rw [List.length_map, List.length_map] at hlen
    rw [mem_aggregateBook, ordersAt, hperm.sum_eq, hlen, ← List.length_pos_iff, ← List.length_pos_iff, hlen]
  have htradable := eligible_side db marketId nowSec minFillNotional acceptPrice side
  refine ⟨levels_sorted _ side, hlevels, htradable, fun l hl => ?_⟩
  obtain ⟨-, hsize, -⟩ := (hlevels l).1 hl
  have hleft : ∀ o ∈ restingAt db marketId nowSec side (fun p => decide (p = l.price)), 0 < left o := fun o ho =>
    (of_decide_eq_true (List.mem_filter.1 (List.mem_filter.1 ho).1).2).2.2
  have hsub := sum_filter_le (f := fillable) (fun o => decide (o.expiry ≤ nowSec + Matching.MAX_ORDER_TTL_SECONDS ∧
    (o.reduceOnly = true → 0 < fillable o))) _ (fun o ho => fillable_le_left (hleft o ho)) fun o ho => (hleft o ho).le
  rw [hsize, show tradable = _ from htradable, List.filter_filter]
  simp only [restingAt, List.filter_filter, Bool.and_comm] at hsub ⊢
  exact hsub

/-! ## A running total is what the book holds at a row's price or better -/

theorem bucketOf_bid (tick price : Int) : bucketOf tick .bid price = price.tdiv tick * tick := by
  simp [bucketOf]

/-- **No bucket shows a better price than an order in it has**, nor one a tick worse. -/
theorem bucketOf_spec (htick : 0 < tick) {price : Int} (hprice : 0 ≤ price) (side : Side) :
    tick ∣ bucketOf tick side price ∧ side.le price (bucketOf tick side price) ∧ |bucketOf tick side price - price| < tick := by
  have hfloor : price.tdiv tick * tick = price - price % tick := by
    rw [Int.tdiv_eq_ediv_of_nonneg hprice, mul_comm]
    have := Int.emod_add_mul_ediv price tick
    omega
  have hlo := Int.emod_nonneg price htick.ne'
  have hhi := Int.emod_lt_of_pos price htick
  cases side with
  | bid =>
    rw [bucketOf_bid]
    exact ⟨Dvd.intro_left _ rfl, show _ ≤ _ by omega, abs_lt.2 ⟨by omega, by omega⟩⟩
  | ask =>
    simp only [bucketOf, reduceCtorEq, false_or]
    split
    · rename_i hexact
      exact ⟨Dvd.intro_left _ rfl, show _ ≤ _ by omega, abs_lt.2 ⟨by omega, by omega⟩⟩
    · rename_i hexact
      refine ⟨Int.dvd_add (Dvd.intro_left _ rfl) (Int.dvd_refl tick), show _ ≤ _ by omega, abs_lt.2 ⟨by omega, by omega⟩⟩

/-- A bucket is at a tick's price or better exactly when its orders are. -/
theorem bucketOf_le (htick : 0 < tick) {price p : Int} (hprice : 0 ≤ price) (hp : tick ∣ p) :
    side.le (bucketOf tick side price) p ↔ side.le price p := by
  obtain ⟨⟨k, hk⟩, hle, hnear⟩ := bucketOf_spec htick hprice side
  obtain ⟨j, rfl⟩ := hp
  refine ⟨fun h => Side.le_trans hle h, fun h => ?_⟩
  rw [abs_lt] at hnear
  rw [hk] at hnear hle ⊢
  cases side with
  | bid =>
    have h' : tick * j ≤ price := h
    show tick * j ≤ tick * k
    have hlt : tick * j < tick * (k + 1) := by
      rw [mul_add, mul_one]
      omega
    exact mul_le_mul_of_nonneg_left (Int.lt_add_one_iff.1 (lt_of_mul_lt_mul_left hlt htick.le)) htick.le
  | ask =>
    have h' : price ≤ tick * j := h
    show tick * k ≤ tick * j
    have hlt : tick * k < tick * (j + 1) := by
      rw [mul_add, mul_one]
      omega
    exact mul_le_mul_of_nonneg_left (Int.lt_add_one_iff.1 (lt_of_mul_lt_mul_left hlt htick.le)) htick.le

/-- The order of rows: strictly best first. -/
def Ranked (side : Side) (a b : Int) : Prop := side.le a b ∧ a ≠ b

theorem mem_rowsFrom {quote : Bool} {r : BookRow} : ∀ {es : List (Int × Int)} {t : Int},
    es.Pairwise (fun a b => Ranked side a.1 b.1) → r ∈ rowsFrom quote t es →
    (r.price, r.size) ∈ es ∧ r.amount = amountOf quote (r.price, r.size) ∧
      r.total = t + ((es.filter fun e => decide (side.le e.1 r.price)).map (amountOf quote)).sum
  | [], _, _, h => absurd h List.not_mem_nil
  | e :: es, t, hs, h => by
    obtain ⟨hhead, htail⟩ := List.pairwise_cons.1 hs
    rw [rowsFrom] at h
    rcases List.mem_cons.1 h with rfl | hmem
    · -- The row of the head: nothing behind is at its price or better.
      have hnone : es.filter (fun x => decide (side.le x.1 e.1)) = [] := by
        refine List.filter_eq_nil_iff.2 fun x hx hle => ?_
        obtain ⟨hle', hne⟩ := hhead x hx
        exact hne (side.le_antisymm hle' (of_decide_eq_true hle))
      have hself : side.le e.1 e.1 := (side.le_total e.1 e.1).elim id id
      refine ⟨List.mem_cons_self, rfl, ?_⟩
      rw [List.filter_cons_of_pos (by simpa using hself), hnone]
      simp
    · obtain ⟨hin, hamount, htotal⟩ := mem_rowsFrom htail hmem
      refine ⟨List.mem_cons_of_mem e hin, hamount, ?_⟩
      rw [htotal, List.filter_cons_of_pos (by simpa using (hhead _ hin).1), List.map_cons, List.sum_cons, add_assoc]

theorem rowsFrom_take (quote : Bool) : ∀ (es : List (Int × Int)) (t : Int) (n : Nat),
    rowsFrom quote t (es.take n) = (rowsFrom quote t es).take n
  | _, _, 0 => by simp [rowsFrom]
  | [], _, n + 1 => rfl
  | e :: es, t, n + 1 => by simp [rowsFrom, rowsFrom_take quote es _ n]

theorem rowsFrom_prices (quote : Bool) : ∀ (es : List (Int × Int)) (t : Int),
    (rowsFrom quote t es).map (·.price) = es.map Prod.fst
  | [], _ => rfl
  | e :: es, t => by rw [rowsFrom, List.map_cons, List.map_cons, rowsFrom_prices quote es]

theorem levels_sum (orders : List OrderView) (side : Side) (P : Int → Bool) :
    (((aggregateBook orders side).filter fun l => P l.price).map (·.size)).sum =
      (((orders.filter fun o => decide (0 < o.remainingSize ∧ o.isLong = side.isLong)).filter fun o =>
        P o.limitPrice).map (·.remainingSize)).sum := by
  have hprices : (levelsOf orders side).values.map (fun l => (l.price, l.size)) =
      (levelsOf orders side).entries.map fun e => (e.1, e.2.size) := by
    rw [OrderedMap.values, List.map_map]
    refine List.map_congr_left fun e he => ?_
    rw [Function.comp_apply, price_eq_key he]
  have hgroup := OrderedMap.entries_group_map (fun o : OrderView => o.limitPrice) BookLevel.size addOrder
    (fun acc o => acc.getD 0 + o.remainingSize) (fun acc o => by cases acc <;> rfl)
    (orders.filter fun o => decide (0 < o.remainingSize ∧ o.isLong = side.isLong))
  have hsum : (((aggregateBook orders side).filter fun l => P l.price).map (·.size)).sum =
      OrderedMap.sum P ((aggregateBook orders side).map fun l => (l.price, l.size)) := by
    rw [OrderedMap.sum, List.filter_map, List.map_map]
    rfl
  have hperm := List.perm_insertionSort (fun a b => side.le a.price b.price) (levelsOf orders side).values
  rw [hsum, aggregateBook, OrderedMap.sum_perm (hperm.map _), hprices]
  exact (congrArg (OrderedMap.sum P) hgroup.symm).trans (OrderedMap.sum_group _)

theorem buckets_sum {levels : List BookLevel} (P : Int → Bool) : OrderedMap.sum P (buckets levels tick side).entries =
    ((levels.filter fun l => P (bucketOf tick side l.price)).map (·.size)).sum := OrderedMap.sum_group _

/-- What the matcher's book holds on a side at the prices with `P`, in size. -/
def depth (db : Db) (marketId : MarketId) (nowSec : Int) (side : Side) (P : Int → Bool) : Int :=
  ((restingAt db marketId nowSec side P).map left).sum

theorem levels_depth (db : Db) (marketId : MarketId) (nowSec : Int) (side : Side) (P : Int → Bool) :
    (((aggregateBook (listWorkingOrdersForMarket db marketId nowSec) side).filter fun l => P l.price).map (·.size)).sum =
      depth db marketId nowSec side P := by
  rw [levels_sum, depth, (sizes_perm db marketId nowSec side P).sum_eq]

theorem level_price_nonneg {l : BookLevel} (hl : l ∈ aggregateBook (listWorkingOrdersForMarket db marketId nowSec) side) :
    0 ≤ l.price := by
  obtain ⟨hne, -⟩ := mem_aggregateBook.1 hl
  obtain ⟨o, ho⟩ := List.exists_mem_of_ne_nil _ hne
  obtain ⟨hmem, hprice⟩ := List.mem_filter.1 ho
  have hlisted := (List.mem_insertionSort arrivedBefore).1 (List.mem_filter.1 hmem).1
  obtain ⟨r, -, rfl⟩ := List.mem_map.1 hlisted
  rw [← of_decide_eq_true hprice]
  exact Int.natCast_nonneg _

/-- **The depth shown is the depth there is.**  Whatever the tick and the number of rows, the rows of a side are strictly
best first, at multiples of the tick; a row's size is what the matcher's book holds at the prices that round to it, which
are no better than the row and less than a tick away; and in base units a row's running total is all the book holds at the
row's price or better. -/
theorem depth_shown (db : Db) (marketId : MarketId) (nowSec : Int) (htick : 0 < tick) (side : Side) (n : Nat)
    (quote : Bool) :
    let rows := aggregateSide (aggregateBook (listWorkingOrdersForMarket db marketId nowSec) side) tick side n quote
    (rows.map (·.price)).Pairwise (Ranked side) ∧
      ∀ r ∈ rows, tick ∣ r.price ∧
        r.size = depth db marketId nowSec side (fun p => decide (bucketOf tick side p = r.price)) ∧
        (quote = false → r.total = depth db marketId nowSec side fun p => decide (side.le p r.price)) ∧
        ∀ o ∈ restingAt db marketId nowSec side (fun p => decide (bucketOf tick side p = r.price)),
          side.le o.limitPrice r.price ∧ |r.price - o.limitPrice| < tick := by
  intro rows
  set levels := aggregateBook (listWorkingOrdersForMarket db marketId nowSec) side with hlevels
  have hsorted : ((buckets levels tick side).entries.insertionSort fun a b => side.le a.1 b.1).Pairwise fun a b =>
      Ranked side a.1 b.1 := sorted_prices Prod.fst (buckets levels tick side).nodup
  have hperm := List.perm_insertionSort (fun a b : Int × Int => side.le a.1 b.1) (buckets levels tick side).entries
  have hnonneg : ∀ l ∈ levels, 0 ≤ l.price := fun l hl => level_price_nonneg hl
  refine ⟨?_, fun r hr => ?_⟩
  · show (rowsFrom quote 0 _).map (·.price) |>.Pairwise _
    rw [rowsFrom_prices, List.pairwise_map]
    exact hsorted.sublist (List.take_sublist _ _)
  · have hr' : r ∈ rowsFrom quote 0 ((buckets levels tick side).entries.insertionSort fun a b => side.le a.1 b.1) := by
      have hmem : r ∈ rowsFrom quote 0 (List.take n _) := hr
      rw [rowsFrom_take] at hmem
      exact List.mem_of_mem_take hmem
    obtain ⟨hin, -, htotal⟩ := mem_rowsFrom hsorted hr'
    have hbucket := hperm.mem_iff.1 hin
    have hkey : r.price ∈ (buckets levels tick side).keys := List.mem_map.2 ⟨_, hbucket, rfl⟩
    obtain ⟨l, hl, hlr⟩ := OrderedMap.mem_keys_group.1 hkey
    have htickr : tick ∣ r.price := by
      have hspec := (bucketOf_spec htick (hnonneg l hl) side).1
      exact hlr ▸ hspec
    refine ⟨htickr, ?_, fun hbase => ?_, fun o ho => ?_⟩
    · rw [← OrderedMap.sum_key (buckets levels tick side).nodup hbucket, buckets_sum, hlevels]
      exact levels_depth db marketId nowSec side fun p => decide (bucketOf tick side p = r.price)
    · -- In base units the amounts are the sizes.
      have hamount : amountOf quote = Prod.snd := by
        funext e
        rw [hbase]
        rfl
      have hsame : (levels.filter fun l => decide (side.le (bucketOf tick side l.price) r.price)) =
          levels.filter fun l => decide (side.le l.price r.price) :=
        List.filter_congr fun l hl => by rw [decide_eq_decide, bucketOf_le htick (hnonneg l hl) htickr]
      calc r.total = OrderedMap.sum (fun k => decide (side.le k r.price))
            ((buckets levels tick side).entries.insertionSort fun a b => side.le a.1 b.1) := by
            rw [htotal, zero_add, hamount, OrderedMap.sum]
        _ = OrderedMap.sum (fun k => decide (side.le k r.price)) (buckets levels tick side).entries :=
            OrderedMap.sum_perm hperm
        _ = ((levels.filter fun l => decide (side.le l.price r.price)).map (·.size)).sum := by
            rw [buckets_sum, hsame]
        _ = depth db marketId nowSec side fun p => decide (side.le p r.price) :=
            levels_depth db marketId nowSec side fun p => decide (side.le p r.price)
    · obtain ⟨hmem, hprice⟩ := List.mem_filter.1 ho
      obtain ⟨-, -, hpos⟩ := mem_loadOrders (List.mem_filter.1 hmem).1
      obtain ⟨-, hle, hnear⟩ := bucketOf_spec htick hpos side
      rw [of_decide_eq_true hprice] at hle hnear
      exact ⟨hle, hnear⟩

namespace Sample

def bidOf (h : Bytes32) (price size : Nat) : OrderRow :=
  ⟨h, ⟨11, 1, true, size, price, false, h.val, 2000, 0⟩, [], .open_, 0, 1⟩

/-- Three bids, the best of them half reserved. -/
def resting : Db where
  orders := [bidOf 1 101 5, bidOf 2 105 4, bidOf 3 99 3]
  minValidNonce := fun _ => 0
  positions := fun _ => 0
  fills := [⟨7, .pending, none, 1, 11, 12, 2, 9, false, 2, 105, none, 0⟩]
  jobs := []

end Sample

theorem depth_shown_tens :
    (aggregateSide (aggregateBook (listWorkingOrdersForMarket Sample.resting 1 0) .bid) 10 .bid 5 false).map
        (fun r => (r.price, r.total)) = [(100, 7), (90, 10)] ∧
      ∀ r ∈ aggregateSide (aggregateBook (listWorkingOrdersForMarket Sample.resting 1 0) .bid) 10 .bid 5 false,
        r.total = depth Sample.resting 1 0 .bid fun p => decide (Side.bid.le p r.price) :=
  ⟨by decide +kernel, fun r hr => ((depth_shown Sample.resting 1 0 (show (0 : Int) < 10 by decide) .bid 5 false).2 r hr).2.2.1 rfl⟩

end Kryon.PublicBook
