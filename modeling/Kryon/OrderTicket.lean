import Kryon.MarketTick
import Kryon.Previews
import Mathlib.Data.Rat.Floor
/-!
# OrderTicket — the order ticket's prices and checks

`evaluateTicket` (`lib/market/order-ticket.ts`) prices an order and checks it before it is signed.  A market order gets the
reference price with its slippage, cut back to the edge of the execution band.  The edge is truncated on both sides, so a
sell's can lie one below the band's (`market_limit_in_band`).
-/
namespace Kryon

open Program

namespace Preview

def BPS : Int := 10000

/-- Margin at `bps` of the position's notional. -/
def marginAt (size price : Int) (bps : Nat) : Int := mulDiv (notional size price) bps BPS

structure LiquidationInputs where
  size : Int
  equity : Int
  /-- The index price `equity` was computed at. -/
  price : Int
  maintenanceMarginBps : Nat
  /-- What the account's other positions require. -/
  otherMaintenance : Int

/-- The index price at which the account reaches its maintenance requirement, everything else held where it is. -/
def liquidationPrice (x : LiquidationInputs) : Option Int :=
  if x.size = 0 then none
  else
    let m : Int := x.maintenanceMarginBps
    let a := abs x.size
    let positionValue := mulDiv a x.price E18
    let numerator :=
      if x.size > 0 then x.otherMaintenance + positionValue - x.equity
      else x.equity + positionValue - x.otherMaintenance
    let denominator := a * (if x.size > 0 then BPS - m else BPS + m)
    if numerator ≤ 0 ∨ denominator ≤ 0 then none else some ((numerator * E18 * BPS).tdiv denominator)

end Preview

namespace Ticket

open Preview

inductive Side where
  | buy
  | sell
  deriving DecidableEq

inductive OrderKind where
  | market
  | limit
  deriving DecidableEq

structure TicketMarket where
  active : Bool
  initialMarginBps : Nat
  maintenanceMarginBps : Nat
  /-- 1e18 USD. -/
  minFillNotional : Int
  maxExecutionDeviationBps : Rat

structure TicketHealth where
  equity : Int
  initialMarginRequired : Int
  maintenanceMarginRequired : Int

structure TicketInput where
  market : TicketMarket
  side : Side
  kind : OrderKind
  size : Option Int
  limitPrice : Option Int
  slippageBps : Rat
  reduceOnly : Bool
  postOnly : Bool
  bestBid : Option Int
  bestAsk : Option Int
  indexPrice : Int
  /-- In this market. -/
  position : PositionState
  health : Option TicketHealth
  /-- Millionths. -/
  makerRate : Int
  takerRate : Int

inductive TicketError where
  | marketInactive
  | noSize
  | noPrice
  | noReferencePrice
  | belowMinNotional
  | postOnlyWouldCross
  | reduceOnlyNoPosition
  | reduceOnlyWrongSide
  | reduceOnlyTooLarge
  | insufficientMargin
  deriving DecidableEq

structure TicketResult where
  limitPrice : Option Int
  execPrice : Option Int
  crosses : Bool
  slippageClamped : Bool
  notional : Int
  fee : Int
  orderMargin : Int
  positionAfter : PositionState
  liquidationPrice : Option Int
  marginHeadroom : Option Int
  errors : List TicketError
  deriving DecidableEq

/-! ## Prices -/

/-- `Math.round`: half up. -/
def round (x : Rat) : Int := ⌊x + 1 / 2⌋

/-- `BigInt(Math.max(0, Math.round(x)))`. -/
def wholeBps (x : Rat) : Int := max 0 (round x)

/-- The price `bps` beyond another, away from the side that pays it. -/
def beyond (side : Side) (price bps : Int) : Int :=
  match side with
  | .buy => (price * (BPS + bps)).tdiv BPS
  | .sell => (price * (BPS - bps)).tdiv BPS

def opposite (x : TicketInput) : Option Int :=
  match x.side with
  | .buy => x.bestAsk
  | .sell => x.bestBid

/-- The best opposite price, or else the index. -/
def reference (x : TicketInput) : Option Int :=
  match opposite x with
  | some price => some price
  | none => if x.indexPrice > 0 then some x.indexPrice else none

/-- Whether a price is beyond the edge. -/
def past (side : Side) (price edge : Int) : Bool :=
  match side with
  | .buy => decide (price > edge)
  | .sell => decide (price < edge)

/-- A market order's limit, and whether it was cut back to the band's edge. -/
def marketLimit (x : TicketInput) (reference : Int) : Int × Bool :=
  let limitPrice := beyond x.side reference (wholeBps x.slippageBps)
  let edge := beyond x.side x.indexPrice (wholeBps x.market.maxExecutionDeviationBps)
  let clamped := decide (x.indexPrice > 0) && past x.side limitPrice edge
  let limitPrice := if clamped then edge else limitPrice
  (if limitPrice ≤ 0 then 1 else limitPrice, clamped)

/-- The limit to sign, and whether slippage was cut back. -/
def limitPriceOf (x : TicketInput) : Option Int × Bool :=
  match x.kind with
  | .limit =>
    match x.limitPrice with
    | some price => (if price > 0 then some price else none, false)
    | none => (none, false)
  | .market =>
    match reference x with
    | none => (none, false)
    | some reference =>
      let (limitPrice, clamped) := marketLimit x reference
      (some limitPrice, clamped)

def crossesAt (x : TicketInput) : Bool :=
  match (limitPriceOf x).1, opposite x with
  | some limitPrice, some opposite =>
    match x.side with
    | .buy => decide (limitPrice ≥ opposite)
    | .sell => decide (limitPrice ≤ opposite)
  | _, _ => false

/-- A crossing order fills at the resting price, a resting one at its own limit. -/
def execPriceOf (x : TicketInput) : Option Int :=
  match (limitPriceOf x).1 with
  | none => none
  | some limitPrice => if crossesAt x then opposite x else some limitPrice

/-! ## The ticket -/

def priceErrors (x : TicketInput) : List TicketError :=
  match x.kind, (limitPriceOf x).1 with
  | .limit, none => [.noPrice]
  | .market, none => [.noReferencePrice]
  | _, some _ => []

def reduceOnlyErrors (x : TicketInput) : List TicketError :=
  match x.size with
  | none => []
  | some size =>
    if x.reduceOnly = true ∧ size > 0 then
      if x.position.size = 0 then [.reduceOnlyNoPosition]
      else if decide (x.position.size > 0) = decide (x.side = .buy) then [.reduceOnlyWrongSide]
      else if size > Preview.abs x.position.size then [.reduceOnlyTooLarge]
      else []
    else []

def deltaOf (x : TicketInput) : Int :=
  match x.size with
  | none => 0
  | some size =>
    match x.side with
    | .buy => size
    | .sell => -size

def orderNotional (x : TicketInput) : Int :=
  match execPriceOf x, x.size with
  | some execPrice, some size => notional size execPrice
  | _, _ => 0

def rateOf (x : TicketInput) : Int := if crossesAt x then x.takerRate else x.makerRate

def feeOf (x : TicketInput) : Int := if orderNotional x > 0 then feeFor (orderNotional x) (rateOf x) else 0

def afterFill (x : TicketInput) : FillResult :=
  match execPriceOf x with
  | none => { x.position with realized := 0, increased := false }
  | some execPrice =>
    if deltaOf x = 0 then { x.position with realized := 0, increased := false }
    else applyFill x.position (deltaOf x) execPrice

structure MarginCheck where
  marginHeadroom : Int
  liquidationPrice : Option Int

/-- The margin of an account after a fill; filling away from the index moves equity at once. -/
def marginCheck (x : TicketInput) (health : TicketHealth) (execPrice : Int) : MarginCheck :=
  let index := x.indexPrice
  let after := afterFill x
  let fillPnl := (deltaOf x * (index - execPrice)).tdiv (10 ^ 18)
  let equityAfter := health.equity - feeOf x + fillPnl
  let imOther := health.initialMarginRequired - marginAt x.position.size index x.market.initialMarginBps
  let mmOther := health.maintenanceMarginRequired - marginAt x.position.size index x.market.maintenanceMarginBps
  let imAfter := imOther + marginAt after.size index x.market.initialMarginBps
  { marginHeadroom := equityAfter - imAfter
    liquidationPrice := liquidationPrice {
      size := after.size
      equity := equityAfter
      price := index
      maintenanceMarginBps := x.market.maintenanceMarginBps
      otherMaintenance := if mmOther > 0 then mmOther else 0 } }

/-- The check, where the account's health, an index and a fill are there. -/
def checkOf (x : TicketInput) : Option MarginCheck :=
  match x.health, execPriceOf x with
  | some health, some execPrice =>
    if x.indexPrice > 0 ∧ deltaOf x ≠ 0 then some (marginCheck x health execPrice) else none
  | _, _ => none

def evaluateTicket (x : TicketInput) : TicketResult :=
  let after := afterFill x
  let check := checkOf x
  { limitPrice := (limitPriceOf x).1
    execPrice := execPriceOf x
    crosses := crossesAt x
    slippageClamped := (limitPriceOf x).2
    notional := orderNotional x
    fee := feeOf x
    orderMargin := (orderNotional x * x.market.initialMarginBps).tdiv BPS
    positionAfter := after.toPositionState
    liquidationPrice := check.bind (·.liquidationPrice)
    marginHeadroom := check.map (·.marginHeadroom)
    errors :=
      priceErrors x ++
      (if x.market.active = false ∧ x.reduceOnly = false then [.marketInactive] else []) ++
      (if x.size.all (· ≤ 0) then [.noSize] else []) ++
      (if x.postOnly = true ∧ x.kind = .limit ∧ crossesAt x = true then [.postOnlyWouldCross] else []) ++
      (if orderNotional x > 0 ∧ orderNotional x < x.market.minFillNotional then [.belowMinNotional] else []) ++
      reduceOnlyErrors x ++
      -- Only exposure-increasing fills need initial margin.
      (if after.increased = true ∧ check.any (·.marginHeadroom < 0) then [.insufficientMargin] else []) }

/-! ## The band -/

/-- **A fill settles only inside the band of its index.** -/
theorem applyFill_withinBand {D : Deployment} {w w' : World} {caller trader : Address} {marketId : MarketId}
    {isBuy reduceOnly increased : Bool} {size price notional : Int}
    (h : Engine.applyFill D w caller trader marketId isBuy size price notional reduceOnly = .ok (w', increased)) :
    ∃ m index, RiskParams.market w marketId = .ok m ∧ Engine.indexOf w m = .ok index ∧
      Matcher.withinBand price (Matcher.bandFor index m.maxExecutionDeviationBps) = true := by
  simp only [Engine.applyFill, bind_ok_iff, revertIf_ok, World.whenNotPaused_ok, exists_const] at h
  obtain ⟨-, -, -, m, hm, index, hindex, maxDelta, hdelta, lo, hlo, hlow, hi, hhi, hhigh, -⟩ := h
  refine ⟨m, index, hm, hindex, ?_⟩
  have hedges : maxDelta = (index * m.maxExecutionDeviationBps).tdiv M.BPS_DENOMINATOR :=
    ((M.applyBps_ok index m.maxExecutionDeviationBps maxDelta).1 hdelta).2.symm
  have hlo' := ((M.sub_ok index maxDelta lo).1 hlo).2
  have hhi' := ((M.add_ok index maxDelta hi).1 hhi).2
  rw [Matcher.withinBand, Bool.and_eq_true, decide_eq_true_eq, decide_eq_true_eq]
  change index - _ ≤ price ∧ price ≤ index + _
  rw [← hedges]
  omega

/-- The limit does not lie beyond the band on its own side. -/
def WithinEdge (side : Side) (limitPrice : Int) (band : Matcher.Band) : Prop :=
  match side with
  | .buy => limitPrice ≤ band.high
  | .sell => band.low ≤ limitPrice

theorem wholeBps_natCast (n : Nat) : wholeBps n = n := by
  have hround : round n = n := by
    unfold round
    rw [Int.floor_natCast_add]
    norm_num
  rw [wholeBps, hround]
  exact max_eq_right (Int.natCast_nonneg n)

theorem tdiv_bps_of_nonneg {v : Int} (h : 0 ≤ v) : v.tdiv BPS = v / 10000 := Int.tdiv_eq_ediv_of_nonneg h

theorem tdiv_bps_of_nonpos {v : Int} (h : v ≤ 0) : v.tdiv BPS = -(-v / 10000) := by
  rw [← tdiv_bps_of_nonneg (by omega), Int.neg_tdiv, neg_neg]

theorem bandFor_low {index : Int} (hindex : 0 < index) (bps : Nat) :
    (Matcher.bandFor index bps).low = index - index * bps / 10000 := by
  have hnonneg : 0 ≤ index * bps := mul_nonneg hindex.le (Int.natCast_nonneg bps)
  change index - (index * bps).tdiv BPS = _
  rw [tdiv_bps_of_nonneg hnonneg]

theorem bandFor_high {index : Int} (hindex : 0 < index) (bps : Nat) :
    (Matcher.bandFor index bps).high = index + index * bps / 10000 := by
  have hnonneg : 0 ≤ index * bps := mul_nonneg hindex.le (Int.natCast_nonneg bps)
  change index + (index * bps).tdiv BPS = _
  rw [tdiv_bps_of_nonneg hnonneg]

theorem limitPrice_market {x : TicketInput} (hkind : x.kind = .market) (hindex : 0 < x.indexPrice) :
    (evaluateTicket x).limitPrice = some (marketLimit x ((opposite x).getD x.indexPrice)).1 := by
  change (limitPriceOf x).1 = _
  rw [limitPriceOf, hkind, reference]
  cases opposite x with
  | none =>
    rw [if_pos hindex]
    rfl
  | some price => rfl

theorem marketLimit_clamped {x : TicketInput} {price edge : Int} (hindex : 0 < x.indexPrice)
    (hedge : beyond x.side x.indexPrice (wholeBps x.market.maxExecutionDeviationBps) = edge)
    (hpast : past x.side (beyond x.side price (wholeBps x.slippageBps)) edge = true) (hpos : 0 < edge) :
    marketLimit x price = (edge, true) := by
  simp only [marketLimit, hedge, hpast, decide_eq_true hindex, Bool.and_self, if_true, if_neg (not_le.2 hpos)]

/-- **A buy's limit is never above the band.** -/
theorem marketLimit_buy {x : TicketInput} (hside : x.side = .buy) (hindex : 0 < x.indexPrice) {bps : Nat}
    (hbps : x.market.maxExecutionDeviationBps = bps) (price : Int) :
    (marketLimit x price).1 ≤ (Matcher.bandFor x.indexPrice bps).high := by
  have hq : 0 ≤ x.indexPrice * bps := mul_nonneg hindex.le (Int.natCast_nonneg bps)
  have hedge : beyond .buy x.indexPrice (wholeBps x.market.maxExecutionDeviationBps) =
      (Matcher.bandFor x.indexPrice bps).high := by
    have hsplit : x.indexPrice * (BPS + bps) = x.indexPrice * 10000 + x.indexPrice * bps := by
      rw [mul_add]
      rfl
    rw [hbps, wholeBps_natCast, bandFor_high hindex, beyond, hsplit, tdiv_bps_of_nonneg (by omega)]
    omega
  have hhigh := bandFor_high hindex bps
  simp only [marketLimit, hside, hedge, past, hindex, decide_true, Bool.true_and, decide_eq_true_eq]
  generalize beyond .buy price (wholeBps x.slippageBps) = limit at *
  split_ifs <;> omega

/-- The sell's edge is the band's, or one below. -/
theorem edge_sell {index : Int} (hindex : 0 < index) (bps : Nat) (hpos : 0 < (Matcher.bandFor index bps).low) :
    beyond .sell index bps = (Matcher.bandFor index bps).low - if (10000 : Int) ∣ index * bps then 0 else 1 := by
  have hq : 0 ≤ index * bps := mul_nonneg hindex.le (Int.natCast_nonneg bps)
  rw [bandFor_low hindex] at hpos ⊢
  have hsplit : index * (BPS - bps) = index * 10000 - index * bps := by
    rw [mul_sub]
    rfl
  rw [beyond, hsplit, tdiv_bps_of_nonneg (by omega)]
  split <;> omega

theorem le_beyond_sell {low : Int} (hlow : 0 < low) (price bps : Int) :
    low ≤ beyond .sell price bps ↔ 10000 * low ≤ price * (10000 - bps) := by
  change low ≤ (price * (BPS - bps)).tdiv BPS ↔ 10000 * low ≤ price * (BPS - bps)
  generalize price * (BPS - bps) = v
  rcases le_total 0 v with hv | hv
  · rw [tdiv_bps_of_nonneg hv]
    omega
  · rw [tdiv_bps_of_nonpos hv]
    omega

/-- **A sell's limit is below the band exactly when it is cut back to an edge that is not whole.** -/
theorem marketLimit_sell {x : TicketInput} (hside : x.side = .sell) (hindex : 0 < x.indexPrice) {bps : Nat}
    (hbps : x.market.maxExecutionDeviationBps = bps) (price : Int) :
    (Matcher.bandFor x.indexPrice bps).low ≤ (marketLimit x price).1 ↔
      (10000 : Int) ∣ x.indexPrice * bps ∨ (Matcher.bandFor x.indexPrice bps).low ≤ 1 ∨
        10000 * (Matcher.bandFor x.indexPrice bps).low ≤ price * (10000 - wholeBps x.slippageBps) := by
  simp only [marketLimit, hside, past, hindex, decide_true, Bool.true_and, decide_eq_true_eq, hbps, wholeBps_natCast]
  rcases Int.lt_or_le 1 (Matcher.bandFor x.indexPrice bps).low with hlow | hlow
  · rw [← le_beyond_sell (by omega) price, edge_sell hindex bps (by omega)]
    generalize beyond .sell price (wholeBps x.slippageBps) = limit
    generalize (Matcher.bandFor x.indexPrice bps).low = low at *
    by_cases hwhole : (10000 : Int) ∣ x.indexPrice * bps
    · simp only [hwhole, if_true, true_or, iff_true]
      split_ifs <;> omega
    · simp only [hwhole, if_false, false_or]
      split_ifs <;> omega
  · refine iff_of_true ?_ (Or.inr (Or.inl hlow))
    split_ifs <;> omega

/-- **A market order's limit is inside the band unless it is a sell cut back to an edge that is not whole.** A buy's never
exceeds the band's upper edge.  A sell's is at least the lower edge exactly when 10,000 divides the index times the band,
the lower edge is a wei or less, or the reference less its slippage is at or above the lower edge. -/
theorem market_limit_in_band (x : TicketInput) (bps : Nat) (hkind : x.kind = .market) (hindex : 0 < x.indexPrice)
    (hbps : x.market.maxExecutionDeviationBps = bps) :
    (∃ limitPrice, (evaluateTicket x).limitPrice = some limitPrice ∧
      WithinEdge x.side limitPrice (Matcher.bandFor x.indexPrice bps)) ↔
    (x.side = .buy ∨ (10000 : Int) ∣ x.indexPrice * bps ∨ (Matcher.bandFor x.indexPrice bps).low ≤ 1 ∨
      10000 * (Matcher.bandFor x.indexPrice bps).low ≤
        x.bestBid.getD x.indexPrice * (10000 - wholeBps x.slippageBps)) := by
  rw [limitPrice_market hkind hindex]
  simp only [Option.some.injEq, exists_eq_left']
  cases hside : x.side with
  | buy => exact iff_of_true (marketLimit_buy hside hindex hbps _) (Or.inl rfl)
  | sell =>
    have hopposite : opposite x = x.bestBid := by rw [opposite, hside]
    rw [hopposite]
    simp only [reduceCtorEq, false_or]
    exact marketLimit_sell hside hindex hbps _

/-- A market order for a tenth of a unit, with an index of 60,000 and a wei, and nothing in the book. -/
def sampleTicket (side : Side) : TicketInput where
  market := ⟨true, 200, 100, 40 * 10 ^ 18, (75 : Nat)⟩
  side := side
  kind := .market
  size := some (10 ^ 17)
  limitPrice := none
  slippageBps := (100 : Nat)
  reduceOnly := false
  postOnly := false
  bestBid := none
  bestAsk := none
  indexPrice := 60000 * 10 ^ 18 + 1
  position := ⟨0, 0⟩
  health := some ⟨1000 * 10 ^ 18, 0, 0⟩
  makerRate := 50
  takerRate := 350

/-- The buy is cut back to the band's edge. -/
theorem market_limit_in_band_buy :
    ∃ limitPrice, (evaluateTicket (sampleTicket .buy)).limitPrice = some limitPrice ∧
      limitPrice ≤ (Matcher.bandFor (60000 * 10 ^ 18 + 1) 75).high :=
  (market_limit_in_band (sampleTicket .buy) 75 rfl (by decide) rfl).2 (Or.inl rfl)

/-- **The sell is cut back to a wei below the band.** -/
theorem market_limit_below_band :
    (evaluateTicket (sampleTicket .sell)).limitPrice = some (59550 * 10 ^ 18) ∧
      (Matcher.bandFor (60000 * 10 ^ 18 + 1) 75).low = 59550 * 10 ^ 18 + 1 ∧
      ¬ ∃ limitPrice, (evaluateTicket (sampleTicket .sell)).limitPrice = some limitPrice ∧
        WithinEdge .sell limitPrice (Matcher.bandFor (60000 * 10 ^ 18 + 1) 75) := by
  have hlimit : (evaluateTicket (sampleTicket .sell)).limitPrice = some (59550 * 10 ^ 18) := by
    have hslip : wholeBps (sampleTicket .sell).slippageBps = 100 := wholeBps_natCast 100
    have hband : wholeBps (sampleTicket .sell).market.maxExecutionDeviationBps = 75 := wholeBps_natCast 75
    rw [limitPrice_market rfl (by decide), marketLimit, hslip, hband]
    decide
  have hlow : (Matcher.bandFor (60000 * 10 ^ 18 + 1) 75).low = 59550 * 10 ^ 18 + 1 := by decide
  refine ⟨hlimit, hlow, ?_⟩
  rintro ⟨limitPrice, hprice, hwithin⟩
  rw [hlimit, Option.some.injEq] at hprice
  rw [WithinEdge, hlow, ← hprice] at hwithin
  omega

end Ticket
end Kryon
