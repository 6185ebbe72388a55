import Kryon.OrderTicket
/-!
# OrderSizes — the largest order of the Max button against the ticket's margin check

`maxOrderSize` divides the headroom by what a unit costs at the order's own price.  The check books the unit's margin at the
index, and what the price is worse than the index at once; so the size is affordable at the index, and elsewhere up to that
difference (`max_order_margin`).
-/
namespace Kryon.Ticket

open Preview

structure MaxOrderOptions where
  headroom : Int
  price : Int
  initialMarginBps : Nat
  takerRate : Int
  /-- The size step, 1e18. -/
  step : Int

/-- The largest size the headroom supports at the price, rounded down to the size step. -/
def maxOrderSize (o : MaxOrderOptions) : Int :=
  if o.headroom ≤ 0 ∨ o.price ≤ 0 ∨ o.step ≤ 0 then 0
  else
    -- Cost per 1e18 of size.
    let perUnit := (o.price * (o.initialMarginBps * 100 + max 0 o.takerRate)).tdiv 1000000
    if perUnit ≤ 0 then 0
    else
      let raw := (o.headroom * 10 ^ 18).tdiv perUnit
      raw.tdiv o.step * o.step

variable {x : TicketInput} {health : TicketHealth} {o : MaxOrderOptions}

/-- An order of the largest size, for an account with no position in the market, at the price and the rate it was sized
for. -/
structure OrdersMax (x : TicketInput) (health : TicketHealth) (o : MaxOrderOptions) : Prop where
  flat : x.position.size = 0
  health_read : x.health = some health
  headroom : o.headroom = health.equity - health.initialMarginRequired
  index : 0 < x.indexPrice
  price : (evaluateTicket x).execPrice = some o.price
  margin : o.initialMarginBps = x.market.initialMarginBps
  rate : o.takerRate = if (evaluateTicket x).crosses then x.takerRate else x.makerRate
  size : x.size = some (maxOrderSize o)

/-- The cost per unit, in millionths of a wei. -/
def unitCost (o : MaxOrderOptions) : Int := o.price * (o.initialMarginBps * 100 + max 0 o.takerRate)

/-- What a unit at the price costs the check beyond what it was sized for, in ten-thousandths: the distance of the price
from the index, less the margin of it for a buy, and with the margin of it for a sell. -/
def adverse (side : Side) (price index : Int) (bps : Nat) : Int :=
  match side with
  | .buy => (price - index) * (10000 - bps)
  | .sell => (index - price) * (10000 + bps)

/-! ## The size -/

theorem tdiv_mul_le {a b : Int} (ha : 0 ≤ a) (hb : 0 < b) : a.tdiv b * b ≤ a := by
  rw [Int.tdiv_eq_ediv_of_nonneg ha]
  exact Int.ediv_mul_le a hb.ne'

/-- **What the size costs, at the unit cost rounded down, is within the headroom.** -/
theorem maxOrderSize_pos (h : 0 < maxOrderSize o) :
    0 < o.price ∧ maxOrderSize o * (unitCost o / 1000000) ≤ o.headroom * 10 ^ 18 := by
  unfold maxOrderSize at h ⊢
  split at h
  · exact absurd h (lt_irrefl 0)
  · rename_i hpos
    rw [not_or, not_or, not_le, not_le, not_le] at hpos
    obtain ⟨hheadroom, hprice, hstep⟩ := hpos
    rw [if_neg (by omega)]
    simp only at h ⊢
    have hcost : 0 ≤ unitCost o :=
      mul_nonneg hprice.le (add_nonneg (mul_nonneg (Int.natCast_nonneg _) (by decide)) (le_max_left 0 _))
    have hunit : (o.price * (o.initialMarginBps * 100 + max 0 o.takerRate)).tdiv 1000000 = unitCost o / 1000000 :=
      Int.tdiv_eq_ediv_of_nonneg hcost
    rw [hunit] at h ⊢
    split at h
    · exact absurd h (lt_irrefl 0)
    · rename_i hper
      rw [not_le] at hper
      rw [if_neg (not_le.2 hper)]
      have hraw : 0 ≤ o.headroom * 10 ^ 18 := mul_nonneg hheadroom.le (by decide)
      have hquot : 0 ≤ (o.headroom * 10 ^ 18).tdiv (unitCost o / 1000000) := Int.tdiv_nonneg hraw hper.le
      have hrounded := mul_le_mul_of_nonneg_right (tdiv_mul_le hquot hstep) hper.le
      exact ⟨hprice, hrounded.trans (tdiv_mul_le hraw hper)⟩

/-! ## The check -/

theorem notional_nonneg {size price : Int} (hprice : 0 ≤ price) : 0 ≤ notional size price := by
  rw [notional_eq]
  exact Int.tdiv_nonneg (mul_nonneg (abs_nonneg size) hprice) (by decide)

theorem notional_mul_le {size price : Int} (hsize : 0 ≤ size) (hprice : 0 ≤ price) :
    notional size price * 10 ^ 18 ≤ size * price := by
  rw [notional_eq, abs_of_nonneg hsize]
  exact tdiv_mul_le (mul_nonneg hsize hprice) (by decide)

theorem marginAt_mul_le {size price : Int} (hprice : 0 ≤ price) (bps : Nat) :
    marginAt size price bps * 10000 ≤ notional size price * bps :=
  tdiv_mul_le (mul_nonneg (notional_nonneg hprice) (Int.natCast_nonneg bps)) (by decide)

theorem feeFor_mul_le {n : Int} (hn : 0 ≤ n) (r : Int) : feeFor n r * 1000000 ≤ n * max 0 r + 999999 := by
  have hdebit : 0 ≤ n * max 0 r := mul_nonneg hn (le_max_left 0 r)
  unfold feeFor
  split
  · omega
  · rename_i hcharged
    rw [not_or, not_le] at hcharged
    split
    · rename_i hrebate
      have hpaid : 0 ≤ mulDiv n (-r) RATE_DENOMINATOR := Int.tdiv_nonneg (mul_nonneg hn (by omega)) (by decide)
      omega
    · rename_i hrate
      have hr : 0 < r := by omega
      have hpos : 0 < n * r := mul_pos hcharged.1 hr
      have hfloor : (n * r - 1).tdiv RATE_DENOMINATOR * 1000000 ≤ n * r - 1 := tdiv_mul_le (by omega) (by decide)
      rw [max_eq_right hr.le]
      omega

theorem feeOf_mul_le (h : OrdersMax x health o) (hprice : 0 ≤ o.price) :
    feeOf x * 1000000 ≤ notional (maxOrderSize o) o.price * max 0 o.takerRate + 999999 := by
  have hnotional : orderNotional x = notional (maxOrderSize o) o.price := by
    have hexec : execPriceOf x = some o.price := h.price
    rw [orderNotional, hexec, h.size]
  have hrate : rateOf x = o.takerRate := h.rate.symm
  have hn : 0 ≤ notional (maxOrderSize o) o.price := notional_nonneg hprice
  rw [feeOf, hnotional, hrate]
  split
  · exact feeFor_mul_le hn o.takerRate
  · have hdebit := mul_nonneg hn (le_max_left 0 o.takerRate)
    omega

def signed (side : Side) (size : Int) : Int :=
  match side with
  | .buy => size
  | .sell => -size

theorem marginAt_signed (side : Side) (size price : Int) (bps : Nat) :
    marginAt (signed side size) price bps = marginAt size price bps := by
  cases side with
  | buy => rfl
  | sell => rw [marginAt, marginAt, notional_eq, notional_eq, signed, abs_neg]

theorem marginHeadroom_eq (h : OrdersMax x health o) (hsize : 0 < maxOrderSize o) :
    (evaluateTicket x).marginHeadroom = some (o.headroom - feeOf x +
      (signed x.side (maxOrderSize o) * (x.indexPrice - o.price)).tdiv (10 ^ 18) -
      marginAt (maxOrderSize o) x.indexPrice o.initialMarginBps) := by
  have hexec : execPriceOf x = some o.price := h.price
  have hdelta : deltaOf x = signed x.side (maxOrderSize o) := by
    rw [deltaOf, h.size]
    rfl
  have hne : deltaOf x ≠ 0 := by
    rw [hdelta]
    cases x.side <;> simp only [signed] <;> omega
  have hafter : (afterFill x).size = signed x.side (maxOrderSize o) := by
    simp only [afterFill, hexec, if_neg hne, applyFill, h.flat, true_or, if_true, zero_add]
    exact hdelta
  have hzero : marginAt 0 x.indexPrice x.market.initialMarginBps = 0 := by
    simp [marginAt, notional_eq, mulDiv]
  have hcheck : checkOf x = some (marginCheck x health o.price) := by
    rw [checkOf, h.health_read, hexec]
    exact if_pos ⟨h.index, hne⟩
  change (checkOf x).map (·.marginHeadroom) = _
  rw [hcheck, Option.map_some, Option.some.injEq]
  simp only [marginCheck, hafter, h.flat, hzero, marginAt_signed, hdelta, h.headroom, h.margin]
  omega

/-- **A position's PnL is at least its value at the difference, less a wei.** -/
theorem lt_tdiv_mul (v : Int) : v - 10 ^ 18 < v.tdiv (10 ^ 18) * 10 ^ 18 := by
  rcases le_total 0 v with h | h
  · rw [Int.tdiv_eq_ediv_of_nonneg h]
    omega
  · have hneg : v.tdiv (10 ^ 18) = -(-v / 10 ^ 18) := by
      rw [← Int.tdiv_eq_ediv_of_nonneg (by omega), Int.neg_tdiv, neg_neg]
    rw [hneg]
    omega

/-- **At the index, at a whole cost per unit, the size is affordable.** -/
theorem affordable_at_index (h : OrdersMax x health o) (hsize : 0 < maxOrderSize o) (hindex : o.price = x.indexPrice)
    (hwhole : (1000000 : Int) ∣ unitCost o) {mh : Int} (hmh : (evaluateTicket x).marginHeadroom = some mh) : 0 ≤ mh := by
  obtain ⟨hprice, hcost⟩ := maxOrderSize_pos hsize
  have hfee := feeOf_mul_le h hprice.le
  have hmargin : marginAt (maxOrderSize o) o.price o.initialMarginBps * 10000 ≤
      notional (maxOrderSize o) o.price * o.initialMarginBps := marginAt_mul_le hprice.le _
  have hnotional := notional_mul_le hsize.le hprice.le
  rw [marginHeadroom_eq h hsize, ← hindex, sub_self, mul_zero, Int.zero_tdiv, Option.some.injEq] at hmh
  -- The notional's margin and fee are within the headroom, to the millionth.
  have hbooked : notional (maxOrderSize o) o.price * (o.initialMarginBps * 100 + max 0 o.takerRate) ≤
      1000000 * o.headroom := by
    have hrate : 0 ≤ (o.initialMarginBps : Int) * 100 + max 0 o.takerRate :=
      add_nonneg (mul_nonneg (Int.natCast_nonneg _) (by decide)) (le_max_left 0 _)
    have hscaled := mul_le_mul_of_nonneg_right hnotional hrate
    obtain ⟨c, hc⟩ := hwhole
    rw [hc, Int.mul_ediv_cancel_left _ (by decide)] at hcost
    have hunit : maxOrderSize o * o.price * (o.initialMarginBps * 100 + max 0 o.takerRate) =
        maxOrderSize o * c * 1000000 := by
      rw [mul_assoc, ← unitCost, hc]
      ring
    rw [hunit] at hscaled
    have hlast := mul_le_mul_of_nonneg_right hcost (by decide : (0 : Int) ≤ 1000000)
    have hboth := hscaled.trans hlast
    refine le_of_mul_le_mul_right ?_ (by decide : (0 : Int) < 10 ^ 18)
    linarith
  rw [mul_add] at hbooked
  have hsplit : notional (maxOrderSize o) o.price * ((o.initialMarginBps : Int) * 100) =
      100 * (notional (maxOrderSize o) o.price * o.initialMarginBps) := by ring
  omega

theorem signed_adverse (side : Side) (size price index : Int) (bps : Nat) :
    100 * (size * price * bps) - 100 * (size * index * bps) + 1000000 * (signed side size * (index - price)) =
      -(100 * (size * adverse side price index bps)) := by
  cases side with
  | buy =>
    simp only [signed, adverse]
    ring
  | sell =>
    simp only [signed, adverse]
    ring

/-- **At any price and index, the size is short by what the price is worse than the index, and by the rounding.** -/
theorem headroom_short (h : OrdersMax x health o) (hsize : 0 < maxOrderSize o) {mh : Int}
    (hmh : (evaluateTicket x).marginHeadroom = some mh) :
    -(maxOrderSize o * (adverse x.side o.price x.indexPrice o.initialMarginBps + 10000) + 20000 * 10 ^ 18) <
      10000 * 10 ^ 18 * mh := by
  obtain ⟨hprice, hcost⟩ := maxOrderSize_pos hsize
  have hfee := feeOf_mul_le h hprice.le
  have hmargin : marginAt (maxOrderSize o) x.indexPrice o.initialMarginBps * 10000 ≤
      notional (maxOrderSize o) x.indexPrice * o.initialMarginBps := marginAt_mul_le h.index.le _
  have hpnl := lt_tdiv_mul (signed x.side (maxOrderSize o) * (x.indexPrice - o.price))
  have hadverse := signed_adverse x.side (maxOrderSize o) o.price x.indexPrice o.initialMarginBps
  rw [marginHeadroom_eq h hsize, Option.some.injEq] at hmh
  have hfeeNotional := mul_le_mul_of_nonneg_right (notional_mul_le hsize.le hprice.le) (le_max_left 0 o.takerRate)
  have hmarginNotional := mul_le_mul_of_nonneg_right (notional_mul_le hsize.le h.index.le)
    (Int.natCast_nonneg o.initialMarginBps)
  -- The unit cost is rounded down by less than a wei.
  have hunit : unitCost o ≤ unitCost o / 1000000 * 1000000 + 1000000 := by omega
  have hsized := mul_le_mul_of_nonneg_left hunit hsize.le
  have hsplit : maxOrderSize o * unitCost o = 100 * (maxOrderSize o * o.price * o.initialMarginBps) +
      maxOrderSize o * o.price * max 0 o.takerRate := by
    rw [unitCost]
    ring
  rw [hsplit] at hsized
  generalize unitCost o / 1000000 = perUnit at *
  generalize signed x.side (maxOrderSize o) * (x.indexPrice - o.price) = value at *
  generalize value.tdiv (10 ^ 18) = pnl at *
  linarith

/-- **The margin of the largest order.** An order of the largest size, by an account with no position in the market, at
the price and rate it was sized for, keeps its margin headroom at the index price, where the unit cost is whole.  At any
price and index it is short by less than two wei, a wei for each unit, and what the size costs more than it was sized for:
the distance by which the price is worse than the index, less its margin for a buy and with it for a sell. -/
theorem max_order_margin (x : TicketInput) (health : TicketHealth) (o : MaxOrderOptions) (h : OrdersMax x health o)
    (hsize : 0 < maxOrderSize o) :
    ∃ marginHeadroom, (evaluateTicket x).marginHeadroom = some marginHeadroom ∧
      (o.price = x.indexPrice → (1000000 : Int) ∣ unitCost o → 0 ≤ marginHeadroom) ∧
      -(maxOrderSize o * (adverse x.side o.price x.indexPrice o.initialMarginBps + 10000) + 20000 * 10 ^ 18) <
        10000 * 10 ^ 18 * marginHeadroom :=
  ⟨_, marginHeadroom_eq h hsize, fun hindex hwhole => affordable_at_index h hsize hindex hwhole (marginHeadroom_eq h hsize),
    headroom_short h hsize (marginHeadroom_eq h hsize)⟩

/-- A market buy with 1,000 of headroom and the best ask at a price. -/
def maxOptions (price : Int) : MaxOrderOptions where
  headroom := 1000 * 10 ^ 18
  price := price
  initialMarginBps := 200
  takerRate := 350
  step := 10 ^ 14

def maxTicket (ask : Int) : TicketInput :=
  { sampleTicket .buy with
    indexPrice := 60000 * 10 ^ 18
    bestAsk := some ask
    size := some (maxOrderSize (maxOptions ask)) }

theorem maxTicket_ordersMax {ask : Int} (hlow : 60000 * 10 ^ 18 ≤ ask) (hhigh : ask ≤ 60450 * 10 ^ 18) :
    OrdersMax (maxTicket ask) ⟨1000 * 10 ^ 18, 0, 0⟩ (maxOptions ask) := by
  have hlimit : (limitPriceOf (maxTicket ask)).1 = some (60450 * 10 ^ 18) := by
    have hindex : 0 < (maxTicket ask).indexPrice := (by decide : (0 : Int) < 60000 * 10 ^ 18)
    have hedge : beyond .buy (60000 * 10 ^ 18) (wholeBps (75 : Nat)) = 60450 * 10 ^ 18 := by
      rw [wholeBps_natCast]
      decide
    have hpast : past .buy (beyond .buy ask (wholeBps (100 : Nat))) (60450 * 10 ^ 18) = true := by
      rw [wholeBps_natCast, past, decide_eq_true_eq, beyond, tdiv_bps_of_nonneg (by rw [BPS]; omega), BPS]
      omega
    change (evaluateTicket (maxTicket ask)).limitPrice = _
    rw [limitPrice_market rfl hindex]
    exact congrArg (fun r => some r.1) (marketLimit_clamped hindex hedge hpast (by decide))
  have hcrosses : crossesAt (maxTicket ask) = true := by
    rw [crossesAt, hlimit]
    exact decide_eq_true hhigh
  have hprice : execPriceOf (maxTicket ask) = some ask := by
    rw [execPriceOf, hlimit, hcrosses]
    rfl
  exact ⟨rfl, rfl, rfl, (by decide : (0 : Int) < 60000 * 10 ^ 18), hprice, rfl, (if_pos hcrosses).symm, rfl⟩

/-- With the best ask at the index, the largest buy leaves headroom. -/
theorem max_order_margin_index :
    ∃ marginHeadroom, (evaluateTicket (maxTicket (60000 * 10 ^ 18))).marginHeadroom = some marginHeadroom ∧
      0 ≤ marginHeadroom := by
  have hmax : OrdersMax (maxTicket (60000 * 10 ^ 18)) ⟨1000 * 10 ^ 18, 0, 0⟩ (maxOptions (60000 * 10 ^ 18)) :=
    maxTicket_ordersMax le_rfl (by decide)
  obtain ⟨marginHeadroom, heq, hindex, -⟩ := max_order_margin _ _ _ hmax (by decide)
  exact ⟨marginHeadroom, heq, hindex rfl (by decide)⟩

/-- **With the best ask 100 above the index, the largest buy is not affordable.** -/
theorem max_order_unaffordable :
    OrdersMax (maxTicket (60100 * 10 ^ 18)) ⟨1000 * 10 ^ 18, 0, 0⟩ (maxOptions (60100 * 10 ^ 18)) ∧
      maxOrderSize (maxOptions (60100 * 10 ^ 18)) = 8176 * 10 ^ 14 ∧
      (evaluateTicket (maxTicket (60100 * 10 ^ 18))).marginHeadroom = some (-80078216 * 10 ^ 12) ∧
      (evaluateTicket (maxTicket (60100 * 10 ^ 18))).errors = [.insufficientMargin] :=
  ⟨maxTicket_ordersMax (by decide) (by decide), by decide, by decide +kernel, by decide +kernel⟩

end Kryon.Ticket
