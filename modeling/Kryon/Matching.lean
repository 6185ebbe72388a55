import Kryon.KryonMath
import Kryon.Lib.Prefix
import Mathlib.Algebra.Order.Ring.Int
import Mathlib.Data.List.Sort
/-!
# Matching — the price-time matching engine of the client

`matchOrders` keeps the orders that can trade, sorts each side by price, arrival and hash, and sweeps: every bid against
every ask it crosses, until the bid is used up.  A ledger of what each order and each trader has committed decides how much
of a pair may trade; a pair that may not is skipped, and both orders stay in the sweep.
-/
namespace Kryon.Matching

open Function (update)

/-- `OrderGateway.MAX_ORDER_TTL`: 7 days, in seconds. -/
def MAX_ORDER_TTL_SECONDS : Int := 7 * 24 * 60 * 60

/-- One resting order, as the engine sees it; the hash is its identity and its final tiebreak. -/
structure EngineOrder where
  orderHash : Bytes32
  owner : Address
  marketId : MarketId
  isLong : Bool
  size : Int
  /-- 1e18, always positive. -/
  limitPrice : Int
  reduceOnly : Bool
  nonce : Int
  expiry : Int
  /-- Settled plus already reserved by pending fills. -/
  filledSize : Int
  createdAt : Int
deriving DecidableEq

/-- A book, and the state its matches are held to; an absent position or nonce is zero. -/
structure EngineInput where
  marketId : MarketId
  nowSec : Int
  orders : List EngineOrder
  positions : Address → Int
  minValidNonce : Address → Int
  minFillNotional : Int
  acceptPrice : Option (Int → Bool)

structure EngineMatch where
  maker : EngineOrder
  taker : EngineOrder
  size : Int
  price : Int
  notional : Int
  /-- The index among the matches of this run with the same maker, taker, size and price. -/
  sequence : Nat
deriving DecidableEq

inductive SkipReason where
  | expired
  | staleNonce
  | fullyFilled
  | selfTrade
  | reduceOnlyNoPosition
  | belowMinNotional
  | priceNotAcceptable
deriving DecidableEq

structure EngineSkip where
  reason : SkipReason
  orderHash : Bytes32
  counterpartyHash : Option Bytes32
deriving DecidableEq

structure EngineResult where
  matches_ : List EngineMatch
  skipped : List EngineSkip

def notionalOf (size price : Int) : Int := (size * price).tdiv PRECISION

/-- Total ordering by price, arrival and hash; negative, zero or positive as `a` comes before, with or after `b`. -/
def compare (a b : EngineOrder) (priceAscending : Bool) : Int :=
  if a.limitPrice ≠ b.limitPrice then
    let cheaperFirst := if a.limitPrice < b.limitPrice then -1 else 1
    if priceAscending then cheaperFirst else -cheaperFirst
  else if a.createdAt ≠ b.createdAt then a.createdAt - b.createdAt
  else if a.orderHash < b.orderHash then -1 else if a.orderHash > b.orderHash then 1 else 0

/-- Arrival order: ties never decide by price here. -/
def compareArrival (a b : EngineOrder) : Int :=
  if a.createdAt ≠ b.createdAt then a.createdAt - b.createdAt
  else if a.orderHash < b.orderHash then -1 else if a.orderHash > b.orderHash then 1 else 0

/-! ## The ledger -/

/-- What each order and each trader has committed to during one run. -/
structure Ledger where
  positions : Address → Int
  reserved : Bytes32 → Int
  closed : Address × MarketId → Int

namespace Ledger

def new (positions : Address → Int) : Ledger := ⟨positions, fun _ => 0, fun _ => 0⟩

variable (l : Ledger)

def remaining (o : EngineOrder) : Int := o.size - o.filledSize - l.reserved o.orderHash

/-- How much of `o` may fill: a reduce-only order can only close, and only what is left of the position after the closes
already booked in this run. -/
def fillable (o : EngineOrder) : Int :=
  let remaining := l.remaining o
  if o.reduceOnly = false ∨ remaining ≤ 0 then remaining
  else
    let position := l.positions o.owner
    -- A buy reduces only a short, a sell only a long.
    if position = 0 ∨ o.isLong = decide (position > 0) then 0
    else
      let headroom := |position| - l.closed (o.owner, o.marketId)
      if headroom ≤ 0 then 0 else min remaining headroom

def book (o : EngineOrder) (size : Int) : Ledger :=
  { l with
    reserved := update l.reserved o.orderHash (l.reserved o.orderHash + size)
    closed :=
      if o.reduceOnly then update l.closed (o.owner, o.marketId) (l.closed (o.owner, o.marketId) + size)
      else l.closed }

end Ledger

/-! ## The sweep -/

/-- Why an order of the market cannot trade in this run. -/
def ineligible (input : EngineInput) (o : EngineOrder) : Option SkipReason :=
  if o.expiry ≤ input.nowSec ∨ o.expiry > input.nowSec + MAX_ORDER_TTL_SECONDS then some .expired
  else if o.nonce < input.minValidNonce o.owner then some .staleNonce
  else if o.size - o.filledSize ≤ 0 then some .fullyFilled
  else if o.reduceOnly = true ∧ (Ledger.new input.positions).fillable o ≤ 0 then some .reduceOnlyNoPosition
  else none

/-- The orders that can trade, in the order they were given. -/
def eligible (input : EngineInput) : List EngineOrder :=
  input.orders.filter fun o => decide (o.marketId = input.marketId) && (ineligible input o).isNone

def ineligibleSkips (input : EngineInput) : List EngineSkip :=
  (input.orders.filter fun o => decide (o.marketId = input.marketId)).filterMap fun o =>
    (ineligible input o).map fun reason => ⟨reason, o.orderHash, none⟩

/-- The bids, highest first. -/
def bids (input : EngineInput) : List EngineOrder :=
  ((eligible input).filter fun o => o.isLong).insertionSort fun a b => compare a b false ≤ 0

/-- The asks, lowest first. -/
def asks (input : EngineInput) : List EngineOrder :=
  ((eligible input).filter fun o => !o.isLong).insertionSort fun a b => compare a b true ≤ 0

/-- What the sweep has done so far. -/
structure Sweep where
  ledger : Ledger
  matches_ : List EngineMatch
  sequences : Bytes32 × Bytes32 × Int × Int → Nat
  skipped : List EngineSkip

def Sweep.skip (s : Sweep) (reason : SkipReason) (o counterparty : EngineOrder) : Sweep :=
  { s with skipped := s.skipped ++ [⟨reason, o.orderHash, some counterparty.orderHash⟩] }

def acceptable (input : EngineInput) (price : Int) : Bool :=
  match input.acceptPrice with
  | some acceptPrice => acceptPrice price
  | none => true

/-- The order of a pair that rested first, and sets the price. -/
def makerOf (bid ask : EngineOrder) : EngineOrder := if compareArrival bid ask ≤ 0 then bid else ask

def takerOf (bid ask : EngineOrder) : EngineOrder := if compareArrival bid ask ≤ 0 then ask else bid

/-- One pair of the sweep: it trades, or both orders are left as they are. -/
def pair (input : EngineInput) (bid ask : EngineOrder) (s : Sweep) : Sweep :=
  if bid.owner = ask.owner then s.skip .selfTrade bid ask
  else
    let bidFillable := s.ledger.fillable bid
    let askFillable := s.ledger.fillable ask
    if bidFillable ≤ 0 ∨ askFillable ≤ 0 then s
    else
      let maker := makerOf bid ask
      let taker := takerOf bid ask
      let price := maker.limitPrice
      if acceptable input price = false then s.skip .priceNotAcceptable maker taker
      else
        let size := min bidFillable askFillable
        if notionalOf size price < input.minFillNotional then s.skip .belowMinNotional maker taker
        else
          let key := (maker.orderHash, taker.orderHash, size, price)
          let sequence := s.sequences key
          { s with
            sequences := update s.sequences key (sequence + 1)
            ledger := (s.ledger.book bid size).book ask size
            matches_ := s.matches_ ++ [⟨maker, taker, size, price, notionalOf size price, sequence⟩] }

/-- The inner loop: one bid against the asks, until one is above it or it is used up. -/
def sweepAsks (input : EngineInput) (bid : EngineOrder) : List EngineOrder → Sweep → Sweep
  | [], s => s
  | ask :: asks, s =>
    if bid.limitPrice < ask.limitPrice then s
    else if s.ledger.remaining bid ≤ 0 then s
    else sweepAsks input bid asks (pair input bid ask s)

def sweepBids (input : EngineInput) (asks : List EngineOrder) : List EngineOrder → Sweep → Sweep
  | [], s => s
  | bid :: bids, s => sweepBids input asks bids (sweepAsks input bid asks s)

/-- Match a book. -/
def matchOrders (input : EngineInput) : EngineResult :=
  let s := sweepBids input (asks input) (bids input)
    ⟨Ledger.new input.positions, [], fun _ => 0, ineligibleSkips input⟩
  ⟨s.matches_, s.skipped⟩

/-! ## Pairs that trade -/

/-- What a pair trades. -/
def sizeOf (l : Ledger) (bid ask : EngineOrder) : Int := min (l.fillable bid) (l.fillable ask)

/-- The pair may trade what both sides have left. -/
structure Tradable (input : EngineInput) (l : Ledger) (bid ask : EngineOrder) : Prop where
  owners : bid.owner ≠ ask.owner
  bidLeft : 0 < l.fillable bid
  askLeft : 0 < l.fillable ask
  price : acceptable input (makerOf bid ask).limitPrice = true
  notional : input.minFillNotional ≤ notionalOf (sizeOf l bid ask) (makerOf bid ask).limitPrice

theorem Tradable.size_pos {input : EngineInput} {l : Ledger} {bid ask : EngineOrder} (h : Tradable input l bid ask) :
    0 < sizeOf l bid ask := lt_min h.bidLeft h.askLeft

def matchOf (l : Ledger) (bid ask : EngineOrder) (sequence : Nat) : EngineMatch where
  maker := makerOf bid ask
  taker := takerOf bid ask
  size := sizeOf l bid ask
  price := (makerOf bid ask).limitPrice
  notional := notionalOf (sizeOf l bid ask) (makerOf bid ask).limitPrice
  sequence := sequence

/-- **A pair trades if it may, and otherwise nothing but the skips changes.** -/
theorem pair_cases (input : EngineInput) (bid ask : EngineOrder) (s : Sweep) :
    (Tradable input s.ledger bid ask ∧
      (pair input bid ask s).ledger =
        (s.ledger.book bid (sizeOf s.ledger bid ask)).book ask (sizeOf s.ledger bid ask) ∧
      ∃ sequence, (pair input bid ask s).matches_ = s.matches_ ++ [matchOf s.ledger bid ask sequence]) ∨
    (¬ Tradable input s.ledger bid ask ∧ (pair input bid ask s).ledger = s.ledger ∧
      (pair input bid ask s).matches_ = s.matches_) := by
  unfold pair
  by_cases howner : bid.owner = ask.owner
  · rw [if_pos howner]
    exact Or.inr ⟨fun h => h.owners howner, rfl, rfl⟩
  · rw [if_neg howner]
    by_cases hleft : s.ledger.fillable bid ≤ 0 ∨ s.ledger.fillable ask ≤ 0
    · simp only [if_pos hleft]
      refine Or.inr ⟨fun h => ?_, trivial, trivial⟩
      rcases hleft with hbid | hask
      · exact absurd h.bidLeft (not_lt.2 hbid)
      · exact absurd h.askLeft (not_lt.2 hask)
    · simp only [if_neg hleft]
      rw [not_or, not_le, not_le] at hleft
      by_cases hprice : acceptable input (makerOf bid ask).limitPrice = false
      · rw [if_pos hprice]
        refine Or.inr ⟨fun h => ?_, rfl, rfl⟩
        exact absurd (hprice.symm.trans h.price) Bool.false_ne_true
      · rw [if_neg hprice]
        by_cases hdust : notionalOf (sizeOf s.ledger bid ask) (makerOf bid ask).limitPrice < input.minFillNotional
        · rw [sizeOf] at hdust
          rw [if_pos hdust]
          exact Or.inr ⟨fun h => absurd h.notional (not_le.2 hdust), rfl, rfl⟩
        · have hfloor := not_lt.1 hdust
          rw [sizeOf] at hdust
          rw [if_neg hdust]
          exact Or.inl ⟨⟨howner, hleft.1, hleft.2, Bool.not_eq_false _ ▸ hprice, hfloor⟩, rfl, _, rfl⟩

end Kryon.Matching
