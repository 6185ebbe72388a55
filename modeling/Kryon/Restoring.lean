import Kryon.Deleveraging
import Kryon.Dust
import Kryon.FeeLedger
import Kryon.Sample
/-!
# Restoring — a planned close restores maintenance

The planner solves for the size whose close lowers the maintenance margin by the shortfall and the penalty together, and
adds one against rounding.  The close is then judged by a health computed from scratch: the maintenance of what is left,
the basis released, and the penalty paid.  What remains of the shortfall is rounding only.
-/
namespace Kryon

open Program Transition
open Function (update)

variable {D : Deployment} {env : Env} {w w' : World} {trader : Address} {marketId : MarketId}

namespace Engine

/-! ## The planner -/

/-- The smallest close the planner solves for, before it caps it. -/
def minToCoverFor (w : World) (trader : Address) (marketId : MarketId) : Except Error Int := do
  let (c, p, mk) ← riskInputs w trader
  let health ← RiskLib.accountHealth c p mk
  let position ← LiquidationLib.find p marketId.toNat
  let market ← RiskLib.findMarket mk position.marketId
  let shortfall ← M.sub health.maintenanceMarginRequired health.equity
  let positionNotional ← RiskLib.notional position.size market.oraclePrice
  LiquidationLib.minToCover position market shortfall positionNotional

/-- **A planned size is the smallest close, unless that is the whole position or the cap is smaller.** -/
theorem planLiquidationSize_minToCover {bps : Nat} {size : Int} {h : AccountHealth}
    (hplan : planLiquidationSize w trader marketId bps = .ok (size, h)) :
    ∃ q position cap, minToCoverFor w trader marketId = .ok q ∧ M.mulDiv position bps 10000 = .ok cap ∧
      size = if q ≥ position then position else if q ≤ cap then q else cap := by
  simp only [planLiquidationSize, LiquidationLib.planLiquidation, bind_ok_iff, revertIf_ok, pure_ok, Prod.mk.injEq,
    exists_const] at hplan
  obtain ⟨⟨c, p, mk⟩, hinputs, _, ⟨h', hh, -, -, position, hposition, market, hmarket, shortfall, hshortfall, n, hn, cap,
    hcap, q, hq, _, -, _, -, rfl⟩, rfl, rfl⟩ := hplan
  refine ⟨q, position.size, cap, ?_, hcap, rfl⟩
  simp only [minToCoverFor, bind_ok_iff]
  exact ⟨_, hinputs, h', hh, position, hposition, market, hmarket, shortfall, hshortfall, n, hn, hq⟩

theorem find_inputs {ids : List MarketId} {p : RiskPosition}
    (h : LiquidationLib.find (positionInputs w trader ids) marketId.toNat = .ok p) :
    p = positionInput w trader marketId := by
  unfold LiquidationLib.find at h
  split at h
  · rename_i p' hfind
    obtain rfl := Except.ok.inj h
    have hid : p'.positionId = marketId.toNat := by simpa using List.find?_some hfind
    obtain ⟨id, -, rfl⟩ := List.mem_map.1 (List.mem_of_find?_eq_some hfind)
    rw [MarketId.toNat_injective hid]
  · exact absurd h (by simp)

/-- What the planner solves, when the whole position is not needed. -/
structure Covers (w : World) (trader : Address) (marketId : MarketId) (shortfall q : Int) : Prop where
  price : 0 < indexAt w marketId
  rate : (w.risk.markets marketId).liquidationFeeBps < (w.risk.markets marketId).maintenanceMarginBps
  freed : 0 < (notionalOf (w.engine.positions (trader, marketId)) (indexAt w marketId) *
    ((w.risk.markets marketId).maintenanceMarginBps - (w.risk.markets marketId).liquidationFeeBps)).tdiv 10000
  size : q = (|(w.engine.positions (trader, marketId)).size| * shortfall).tdiv
    ((notionalOf (w.engine.positions (trader, marketId)) (indexAt w marketId) *
      ((w.risk.markets marketId).maintenanceMarginBps - (w.risk.markets marketId).liquidationFeeBps)).tdiv 10000) + 1

theorem minToCoverFor_ok {q : Int} {health : AccountHealth} (hh : accountHealth w trader = .ok health)
    (h : minToCoverFor w trader marketId = .ok q) (hq : q < |(w.engine.positions (trader, marketId)).size|) :
    Covers w trader marketId (health.maintenanceMarginRequired - health.equity) q := by
  simp only [minToCoverFor, bind_ok_iff] at h
  obtain ⟨⟨c, p, mk⟩, hinputs, health', hh', position, hposition, market, hmarket, shortfall, hshortfall, n, hn, h⟩ := h
  obtain rfl : health' = health := by
    refine ok_unique ?_ hh
    rw [accountHealth, hinputs]
    exact hh'
  obtain ⟨-, rfl, rfl, -⟩ := riskInputs_ok hinputs
  obtain rfl := find_inputs hposition
  obtain rfl : market = marketInput w marketId := findMarket_inputs hmarket
  obtain ⟨-, hprice, rfl⟩ := notional_ok hn
  rw [M.sub_ok] at hshortfall
  rw [← hshortfall.2] at h
  unfold LiquidationLib.minToCover at h
  simp only at h
  split at h
  · rw [pure_ok] at h
    exact absurd h (by show ¬ |_| = q; omega)
  · rename_i hrate
    simp only [bind_ok_iff, M.mulDiv_ok] at h
    obtain ⟨freed, ⟨-, hfreed⟩, h⟩ := h
    split at h
    · rw [pure_ok] at h
      exact absurd h (by show ¬ |_| = q; omega)
    · rename_i hpos
      simp only [bind_ok_iff, M.mulDiv_ok, M.add_ok] at h
      obtain ⟨_, ⟨-, rfl⟩, -, rfl⟩ := h
      rw [← hfreed] at hpos ⊢
      exact ⟨hprice, by simp only [marketInput] at hrate; omega, not_le.1 hpos, rfl⟩

/-! ## The margin a close frees -/

theorem rate_eq {size price bps : Int} (hsize : 0 ≤ size) (hprice : 0 ≤ price) (hbps : 0 ≤ bps) :
    ((size * price).tdiv PRECISION * bps).tdiv 10000 = size * price / PRECISION * bps / 10000 := by
  have hn := mul_nonneg hsize hprice
  rw [Int.tdiv_eq_ediv_of_nonneg hn,
    Int.tdiv_eq_ediv_of_nonneg (mul_nonneg (Int.ediv_nonneg hn (by decide)) hbps)]

/-- **The smallest close frees the shortfall and the penalty**, up to a unit: the maintenance of `size` falls by the
shortfall and what the closed part is charged. -/
theorem restoring_margin {size price mm fee shortfall freed q : Int} (hfee : 0 ≤ fee)
    (hmm : mm ≤ 10000) (hrate : fee ≤ mm) (hshort : 0 ≤ shortfall) (hsize : 0 < size)
    (hfreed : freed = (size * price / PRECISION * (mm - fee)) / 10000) (hpos : 0 < freed)
    (hcover : q = size * shortfall / freed + 1) :
    shortfall + (q * price / PRECISION * fee) / 10000 ≤
      (size * price / PRECISION * mm) / 10000 - ((size - q) * price / PRECISION * mm) / 10000 + 1 := by
  have hP : 0 < PRECISION := by decide
  have hq0 : 0 ≤ q := by
    have := Int.ediv_nonneg (mul_nonneg hsize.le hshort) hpos.le
    omega
  set n := size * price / PRECISION with hn
  set left := (size - q) * price / PRECISION with hleft
  set closed := q * price / PRECISION with hclosed
  have hnlow : size * price < (n + 1) * PRECISION := Int.lt_ediv_add_one_mul_self _ hP
  have hnhigh : n * PRECISION ≤ size * price := Int.ediv_mul_le _ hP.ne'
  have hlefthigh : left * PRECISION ≤ (size - q) * price := Int.ediv_mul_le _ hP.ne'
  have hclosedhigh : closed * PRECISION ≤ q * price := Int.ediv_mul_le _ hP.ne'
  -- The close is worth more than the shortfall at the net rate.
  have hsolved : size * shortfall < q * freed := by
    rw [hcover]
    exact Int.lt_ediv_add_one_mul_self _ hpos
  have hnet : freed * 10000 * PRECISION ≤ size * price * (mm - fee) := by
    have h1 : freed * 10000 ≤ n * (mm - fee) := by
      rw [hfreed]
      exact Int.ediv_mul_le _ (by decide)
    calc freed * 10000 * PRECISION ≤ n * (mm - fee) * PRECISION := mul_le_mul_of_nonneg_right h1 hP.le
      _ = n * PRECISION * (mm - fee) := by ring
      _ ≤ size * price * (mm - fee) := mul_le_mul_of_nonneg_right hnhigh (by omega)
  have hworth : shortfall * 10000 * PRECISION < q * price * (mm - fee) := by
    refine lt_of_mul_lt_mul_left ?_ hsize.le
    calc size * (shortfall * 10000 * PRECISION) = size * shortfall * (10000 * PRECISION) := by ring
      _ < q * freed * (10000 * PRECISION) := mul_lt_mul_of_pos_right hsolved (by decide)
      _ = q * (freed * 10000 * PRECISION) := by ring
      _ ≤ q * (size * price * (mm - fee)) := mul_le_mul_of_nonneg_left hnet hq0
      _ = size * (q * price * (mm - fee)) := by ring
  -- The three margins, in units of a ten-thousandth of a wei.
  have hold : n * mm - 10000 < n * mm / 10000 * 10000 := by omega
  have hnew : left * mm / 10000 * 10000 ≤ left * mm := Int.ediv_mul_le _ (by decide)
  have hpenalty : closed * fee / 10000 * 10000 ≤ closed * fee := Int.ediv_mul_le _ (by decide)
  have hscale : (n * mm - 10000 - left * mm - closed * fee) * PRECISION ≤
      (n * mm / 10000 - left * mm / 10000 - closed * fee / 10000) * 10000 * PRECISION :=
    mul_le_mul_of_nonneg_right (by omega) hP.le
  have hmm0 : 0 ≤ mm := by omega
  have hnlow' := mul_le_mul_of_nonneg_right hnlow.le hmm0
  have hlefthigh' := mul_le_mul_of_nonneg_right hlefthigh hmm0
  have hclosedhigh' := mul_le_mul_of_nonneg_right hclosedhigh hfee
  have hmmP : mm * PRECISION ≤ 10000 * PRECISION := mul_le_mul_of_nonneg_right hmm hP.le
  have htotal : (shortfall - 2) * (10000 * PRECISION) <
      (n * mm / 10000 - left * mm / 10000 - closed * fee / 10000) * (10000 * PRECISION) := by
    linarith
  have hlt := lt_of_mul_lt_mul_right htotal (by decide)
  omega

/-- The penalty on closing `q` at the index. -/
def penaltyOn (w : World) (marketId : MarketId) (q : Int) : Int :=
  ((q * indexAt w marketId).tdiv PRECISION * (w.risk.markets marketId).liquidationFeeBps).tdiv 10000

/-- The maintenance margin that closing `q` of a position frees. -/
def freedBy (w : World) (trader : Address) (marketId : MarketId) (q : Int) : Int :=
  maintenanceOf w trader marketId - (((|(w.engine.positions (trader, marketId)).size| - q) * indexAt w marketId).tdiv
    PRECISION * (w.risk.markets marketId).maintenanceMarginBps).tdiv 10000

/-- What the marks of a position and the notional of a close may be off by. -/
def closeRounding (w : World) (trader : Address) (marketId : MarketId) : Int :=
  4 + 2 * |(w.engine.positions (trader, marketId)).size| / PRECISION

/-- **What the planner solves for frees the shortfall and the penalty**, up to a unit. -/
theorem Covers.frees {shortfall q : Int} (h : Covers w trader marketId shortfall q) (hshort : 0 ≤ shortfall)
    (hmm : (w.risk.markets marketId).maintenanceMarginBps ≤ 10000)
    (hq : q < |(w.engine.positions (trader, marketId)).size|) :
    shortfall + penaltyOn w marketId q ≤ freedBy w trader marketId q + 1 := by
  obtain ⟨hprice, hrate, hpos, hsize⟩ := h
  have hold : maintenanceOf w trader marketId = ((|(w.engine.positions (trader, marketId)).size| *
      indexAt w marketId).tdiv PRECISION * (w.risk.markets marketId).maintenanceMarginBps).tdiv 10000 := rfl
  rw [penaltyOn, freedBy, hold]
  simp only [notionalOf] at hpos hsize
  set s := |(w.engine.positions (trader, marketId)).size|
  set x := indexAt w marketId
  set freed := ((s * x).tdiv PRECISION * ((w.risk.markets marketId).maintenanceMarginBps -
    (w.risk.markets marketId).liquidationFeeBps)).tdiv 10000 with hfreed
  have hs : 0 ≤ s := abs_nonneg _
  rw [Int.tdiv_eq_ediv_of_nonneg (mul_nonneg hs hshort)] at hsize
  have hq0 : 0 < q := by
    have := Int.ediv_nonneg (mul_nonneg hs hshort) hpos.le
    omega
  rw [rate_eq hs hprice.le (by omega)] at hfreed
  rw [rate_eq hq0.le hprice.le (by omega), rate_eq hs hprice.le (by omega),
    rate_eq (sub_nonneg.2 hq.le) hprice.le (by omega)]
  exact restoring_margin (by omega) (by omega) (by omega) hshort (by omega) hfreed hpos hsize

/-! ## The steps of the liquidation -/

/-- **The trader's side of the transfer** keeps the trader's equity, up to the rounding, and leaves the position smaller
by what is closed. -/
theorem liquidationTransfer_trader {caller : Address} {size realized : Int} (hs : SidedBook w.engine)
    (ht : trader ≠ D.engine) (hi : trader ≠ D.insurance)
    (h : liquidationTransfer D w caller trader D.insurance marketId size (indexAt w marketId) = .ok (w', realized)) :
    |equityOf w trader - equityOf w' trader| ≤ closeRounding w trader marketId ∧
      |(w'.engine.positions (trader, marketId)).size| = |(w.engine.positions (trader, marketId)).size| - size ∧
      (∀ m, m ≠ marketId → w'.engine.positions (trader, m) = w.engine.positions (trader, m)) ∧
      w'.engine.funding = w.engine.funding := by
  simp only [liquidationTransfer, bind_ok_iff, revertIf_ok, World.whenNotPaused_ok, pure_ok, Prod.mk.injEq,
    exists_const, not_or, not_le, gt_iff_lt, not_lt, M.abs_eq] at h
  obtain ⟨-, -, hopen, ⟨hpos, hle, hprice⟩, m, -, n, hn, ⟨w₁, inc, r⟩, htrade, ⟨w₂, inc₂, r₂⟩, htrade₂, rfl, rfl⟩ := h
  set d := if (w.engine.positions (trader, marketId)).size > 0 then -size else size with hd
  have habs : |d| = size := by rw [hd, abs_signed hpos]
  have hne : d ≠ 0 := by
    intro h0
    rw [h0, abs_zero] at habs
    omega
  have hn' : n = (|d| * indexAt w marketId).tdiv PRECISION := by
    rw [habs]
    exact ((M.mulPrecision_ok _ _ _).1 hn).2.symm
  have hreduce := reduce_equity hs ht hne hprice.le hn' htrade
  have hbackstop := trade_equity_of_ne hi ht (neg_ne_zero.2 hne) htrade₂
  obtain ⟨x, -, hw₁, -⟩ := trade_ok hne htrade
  obtain ⟨y, -, hw₂, -⟩ := trade_ok (neg_ne_zero.2 hne) htrade₂
  have hkept : ∀ k, w₂.engine.positions (trader, k) = w₁.engine.positions (trader, k) := fun k => by
    rw [hw₂]
    exact Function.update_of_ne (fun he => hi (Prod.ext_iff.1 he).1) _ _
  refine ⟨by rw [hbackstop]; exact hreduce, ?_, fun k hk => ?_, by rw [hw₂, hw₁]; rfl⟩
  · rw [hkept, hw₁]
    show |(update w.engine.positions (trader, marketId) _ (trader, marketId)).size| = _
    rw [Function.update_self, nextPosition_size, hd]
    split
    · rename_i hlong
      rw [abs_of_pos hlong] at hle ⊢
      rw [abs_of_nonneg (by omega)]
      ring
    · rename_i hshort
      rw [abs_of_nonpos (not_lt.1 hshort)] at hle ⊢
      rw [abs_of_nonpos (by omega)]
      ring
  · rw [hkept, hw₁]
    exact Function.update_of_ne (fun he => hk (Prod.ext_iff.1 he).2) _ _

end Engine

/-- **The penalty takes no more than its rate** of the notional closed, and all of it from an account that it does not go
to. -/
theorem payPenalty_ok {msg : Msg} {closeSize price : Int} (hv : FeeRouter.Valid w.feeRouter) (hs : trader ≠ msg.sender)
    (h : Liquidation.payPenalty D w msg trader marketId closeSize price = .ok w') :
    w.vault.balances trader - ((closeSize * price).tdiv PRECISION *
      (w.risk.markets marketId).liquidationFeeBps).tdiv 10000 ≤ w'.vault.balances trader ∧
    (trader ≠ D.feeRouter → trader ≠ D.insurance → w'.vault.balances trader = w.vault.balances trader -
      ((closeSize * price).tdiv PRECISION * (w.risk.markets marketId).liquidationFeeBps).tdiv 10000) := by
  simp only [Liquidation.payPenalty, RiskParams.market, bind_ok_iff, revertIf_ok, pure_ok, exists_const,
    M.applyBps_ok] at h
  obtain ⟨_, ⟨-, rfl⟩, n, hn, penalty, ⟨-, hpenalty⟩, cap, -, w₁, hreward, h⟩ := h
  obtain ⟨-, -, rfl⟩ := Engine.notional_ok hn
  change w.vault.balances trader - ((closeSize * price).tdiv PRECISION * _).tdiv M.BPS_DENOMINATOR ≤ _ ∧ (_ → _ →
    _ = w.vault.balances trader - ((closeSize * price).tdiv PRECISION * _).tdiv M.BPS_DENOMINATOR)
  rw [hpenalty]
  obtain ⟨-, rfl⟩ := Vault.transferInternal_ok hreward
  rw [M.min_eq] at h
  split at h
  · simp only [bind_ok_iff] at h
    obtain ⟨w₂, hrest, haccrue⟩ := h
    obtain ⟨h0, rfl⟩ := Vault.transferInternal_ok hrest
    obtain ⟨-, share, hshare0, hshare, rfl⟩ := accrueLiquidationFee_ok haccrue
    have hle := liquidationShare_le hv h0
    have hshare' : share ≤ penalty - min penalty cap := by
      rw [hshare]
      exact hle
    simp only [World.withBalances, Book.transfer_apply, if_neg hs, if_true]
    refine ⟨?_, fun hrouter hins => ?_⟩
    · split_ifs <;> omega
    · rw [if_neg hrouter, if_neg hins, if_neg hrouter]
      omega
  · rename_i hcap
    rw [pure_ok] at h
    subst h
    have hall : min penalty cap = penalty := le_antisymm (min_le_left _ _) (not_lt.1 hcap)
    simp only [World.withBalances, Book.transfer_apply, if_neg hs, if_true, hall]
    exact ⟨by omega, fun _ _ => by omega⟩

/-- **The penalty lowers the trader's equity by no more**, and by all of it where it does not go to the trader. -/
theorem payPenalty_equity {msg : Msg} {closeSize price : Int} (hv : FeeRouter.Valid w.feeRouter)
    (hs : trader ≠ msg.sender) (h : Liquidation.payPenalty D w msg trader marketId closeSize price = .ok w') :
    Engine.equityOf w trader ≤ Engine.equityOf w' trader +
      ((closeSize * price).tdiv PRECISION * (w.risk.markets marketId).liquidationFeeBps).tdiv 10000 ∧
    (trader ≠ D.feeRouter → trader ≠ D.insurance → Engine.equityOf w' trader = Engine.equityOf w trader -
      ((closeSize * price).tdiv PRECISION * (w.risk.markets marketId).liquidationFeeBps).tdiv 10000) := by
  obtain ⟨hcharges, hengine, -⟩ := payPenalty_clears h
  obtain ⟨hpaid, hexact⟩ := payPenalty_ok hv hs h
  have hmarks : ∀ m, Engine.markedPnl w' trader m = Engine.markedPnl w trader m := fun m => by
    simp only [Engine.markedPnl, Engine.indexAt, hengine, hcharges.risk, hcharges.oracle]
  simp only [Engine.equityOf, hmarks]
  refine ⟨by linarith, fun hrouter hins => ?_⟩
  rw [hexact hrouter hins]
  ring

/-- **The health after a close**: the maintenance margin falls by what the close frees, and the equity by the penalty, up to
the rounding; no more than that where the penalty does not go to the trader. -/
theorem closed_health {w₁ w₂ : World} {msg : Msg} {q realized : Int} {before after : AccountHealth}
    (hl : Engine.Listed w.engine) (hs : Engine.SidedBook w.engine) (hv : FeeRouter.Valid w.feeRouter)
    (hsender : trader ≠ msg.sender) (hengine : trader ≠ D.engine) (hins : trader ≠ D.insurance)
    (htransfer : Engine.liquidationTransfer D w D.liquidation trader D.insurance marketId q (Engine.indexAt w marketId) =
      .ok (w₁, realized))
    (hpay : Liquidation.payPenalty D w₁ msg trader marketId q (Engine.indexAt w marketId) = .ok w₂)
    (hbefore : Engine.accountHealth w trader = .ok before) (hafter : Engine.accountHealth w₂ trader = .ok after) :
    after.maintenanceMarginRequired = before.maintenanceMarginRequired - Engine.freedBy w trader marketId q ∧
      before.equity - Engine.penaltyOn w marketId q - Engine.closeRounding w trader marketId ≤ after.equity ∧
      (trader ≠ D.feeRouter →
        after.equity ≤ before.equity - Engine.penaltyOn w marketId q + Engine.closeRounding w trader marketId) := by
  obtain ⟨-, hmoves, -⟩ := liquidationTransfer_clears htransfer
  obtain ⟨hcharges, hsame, -⟩ := payPenalty_clears hpay
  obtain ⟨hequity, hleft, hothers, -⟩ := Engine.liquidationTransfer_trader hs hengine hins htransfer
  have hb := Engine.accountHealth_ok hl hbefore
  have ha := Engine.accountHealth_ok (hcharges.listed (hmoves.listed hl)) hafter
  obtain ⟨hpenalty, hexact⟩ := payPenalty_equity (hv.frame hmoves.charges.feeRouter) hsender hpay
  rw [hmoves.risk] at hpenalty hexact
  rw [abs_le] at hequity
  refine ⟨?_, ?_, fun hrouter => ?_⟩
  · have hmargin : Engine.maintenanceOf w₂ trader marketId =
        (((|(w.engine.positions (trader, marketId)).size| - q) * Engine.indexAt w marketId).tdiv PRECISION *
          (w.risk.markets marketId).maintenanceMarginBps).tdiv 10000 := by
      rw [← hleft, ← hsame]
      simp only [Engine.maintenanceOf, Engine.marginOf, Engine.notionalOf, Engine.indexAt, hcharges.risk, hcharges.oracle,
        hmoves.risk, hmoves.oracle]
      rfl
    have hsum := Engine.sum_of_ne (f := Engine.maintenanceOf w trader) (g := Engine.maintenanceOf w₂ trader)
      marketId fun m hm => by
        simp only [Engine.maintenanceOf, Engine.indexAt, hsame, hothers m hm, hcharges.risk, hcharges.oracle,
          hmoves.risk, hmoves.oracle]
    rw [ha.maintenance, hb.maintenance, hsum, hmargin, Engine.freedBy]
    ring
  · rw [ha.equity, hb.equity, Engine.penaltyOn]
    linarith
  · rw [ha.equity, hb.equity, hexact hrouter hins, Engine.penaltyOn]
    linarith

/-- **A planned close restores maintenance.** When a liquidation closes the smallest size the planner solves for, and
that is less than the whole position, the maintenance margin recomputed afterwards exceeds the equity by rounding only:
at most two for each unit held before, rounded up, and ten. -/
theorem planned_close_restores (hk : Keyless env D.engine) (hr : Reachable (machine D env) w) {msg : Msg} {maxSize : Nat}
    {q : Int} {before : AccountHealth} (hplan : Engine.minToCoverFor w trader marketId = .ok q)
    (hq : q < |(w.engine.positions (trader, marketId)).size|)
    (hclose : Liquidation.closeSizeFor w trader marketId maxSize = .ok (q, before))
    (h : Liquidation.liquidate D w msg trader marketId maxSize = .ok w') :
    ∃ after, Engine.accountHealth w' trader = .ok after ∧
      after.maintenanceMarginRequired - after.equity ≤
        2 * ((|(w.engine.positions (trader, marketId)).size| + (10 ^ 18 - 1)) / 10 ^ 18) + 10 := by
  obtain ⟨hsender, hins, closeSize, before', price, w₁, realized, w₂, after, hclose', hprice, htransfer, hpay, hafter, -,
    hw⟩ := liquidate_ok h
  obtain ⟨rfl, rfl⟩ := Prod.mk.inj (ok_unique hclose hclose')
  obtain ⟨hmarket, rfl⟩ := Engine.indexPrice_ok hprice
  have hl := reachable_listed hr
  have hvalid := reachable_valid hr
  have hflat : Flat w D.engine := reachable_flat (by decide) hk hr
  obtain ⟨hopen, hmoves, -⟩ := liquidationTransfer_clears htransfer
  obtain ⟨hcharges, hengine, -⟩ := payPenalty_clears hpay
  have ht : trader ≠ D.engine := fun he => hopen (by rw [he]; exact hflat marketId)
  obtain ⟨-, hleft, -, -⟩ := Engine.liquidationTransfer_trader (reachable_sided hr) ht hins htransfer
  -- The position stays open, so Insurance covers nothing.
  have hw' : w' = w₂ := by
    rcases hw with ⟨-, hcount, -⟩ | hw
    · have hgone := (hcharges.listed (hmoves.listed hl)).count_eq_zero hcount marketId
      rw [hengine] at hgone
      rw [hgone, abs_zero] at hleft
      omega
    · exact hw
  subst hw'
  -- What the plan was solved from.
  obtain ⟨planned, hplanned⟩ : ∃ planned, Engine.planLiquidationSize w trader marketId
      w.liquidation.partialLiquidationBps = .ok (planned, before) := by
    simp only [Liquidation.closeSizeFor, bind_ok_iff, revertIf_ok, pure_ok, Prod.mk.injEq, exists_const] at hclose
    obtain ⟨-, ⟨planned, _⟩, hplanned, -, -, rfl⟩ := hclose
    exact ⟨planned, hplanned⟩
  obtain ⟨hbefore, hliquidatable⟩ := Engine.planLiquidationSize_ok hplanned
  have hb := Engine.accountHealth_ok hl hbefore
  have hcovers := Engine.minToCoverFor_ok hbefore hplan hq
  refine ⟨after, hafter, ?_⟩
  have hlisted : (w.risk.markets marketId).listed = true := by
    simp only [RiskParams.market, bind_ok_iff, revertIf_ok, Bool.not_eq_false, exists_const] at hmarket
    exact hmarket.1
  obtain ⟨⟨-, hmax⟩, ⟨-, hmm⟩, -, -⟩ := hvalid.markets marketId hlisted
  have hshort := (hb.liquidatable.1 hliquidatable).2
  have hfrees := hcovers.frees (by omega) (hmm.trans (hmax.trans (by decide))) hq
  obtain ⟨hmaintenance, hequity, -⟩ := closed_health hl (reachable_sided hr) hvalid.feeRouter hsender ht hins htransfer
    hpay hbefore hafter
  have hround : 2 * |(w.engine.positions (trader, marketId)).size| / PRECISION ≤
      2 * ((|(w.engine.positions (trader, marketId)).size| + (10 ^ 18 - 1)) / 10 ^ 18) := by
    generalize |(w.engine.positions (trader, marketId)).size| = s
    simp only [PRECISION]
    omega
  rw [Engine.closeRounding] at hequity
  linarith

/-- A price drop takes Alice a little below maintenance. -/
def Sample.ailing : List Call :=
  Sample.configure (Sample.market 1000 500 100) (100 * 10 ^ 18) ++
    [Sample.call Sample.alice (.deposit (1000 * 10 ^ 6)), Sample.call Sample.bob (.deposit (1000 * 10 ^ 6)),
      Sample.settle [Sample.fill Sample.alice Sample.bob 1 (80 * 10 ^ 18) (100 * 10 ^ 18) 1],
      Sample.call Sample.admin (.wait 10), Sample.push (92 * 10 ^ 18) 1010]

/-- Carol closes just over two of Alice's eighty, which is what the planner solves for. -/
theorem planned_close_restores_ailing : ∃ before w' after,
    Liquidation.closeSizeFor (Sample.outcome Sample.ailing) Sample.alice 1 (10 ^ 30) =
      .ok (2173913043478260870, before) ∧ 0 < before.equity ∧
    Liquidation.liquidate Sample.deployment (Sample.outcome Sample.ailing) (Sample.call Sample.carol (.wait 0)).msg
      Sample.alice 1 (10 ^ 30) = .ok w' ∧
    Engine.accountHealth w' Sample.alice = .ok after ∧
    after.maintenanceMarginRequired - after.equity ≤ 170 := by
  have hr := Sample.outcome_reachable Sample.ailing
  obtain ⟨⟨q, before⟩, hclose, hq⟩ := ok_of_returnsWith
    (x := Liquidation.closeSizeFor (Sample.outcome Sample.ailing) Sample.alice 1 (10 ^ 30))
    (P := fun r => decide (r.1 = 2173913043478260870 ∧ 0 < r.2.equity)) (by decide +kernel)
  obtain ⟨rfl, hpos⟩ := of_decide_eq_true hq
  obtain ⟨w', hw'⟩ := ok_of_isOk (x := Liquidation.liquidate Sample.deployment (Sample.outcome Sample.ailing)
    (Sample.call Sample.carol (.wait 0)).msg Sample.alice 1 (10 ^ 30)) (by decide +kernel)
  obtain ⟨after, hafter, hnear⟩ := planned_close_restores (Sample.keyless .engine) hr (by decide +kernel)
    (by decide +kernel) hclose hw'
  have hbound : 2 * ((|((Sample.outcome Sample.ailing).engine.positions (Sample.alice, 1)).size| + (10 ^ 18 - 1)) /
      10 ^ 18) + 10 = 170 := by decide +kernel
  rw [hbound] at hnear
  exact ⟨before, w', after, hclose, hpos, hw', hafter, hnear⟩

end Kryon
