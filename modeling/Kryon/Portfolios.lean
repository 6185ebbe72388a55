import Kryon.Basis
import Kryon.Registry
import Kryon.Margins
/-!
# Portfolios — how many positions an account holds, and what its index lists

An account's bitmap is the set of its open positions (`card_openMarkets`).  A fill opens a position only where the trader
has fewer than sixteen; a liquidation opens one for the backstop whatever it holds, in a market the registry lists, and
the registry lists at most thirty-two.  So the capacity guard of the margin math is never reached.
-/
namespace Kryon

open Program
open Function (update)

namespace RiskLib

/-- One turn of the first loop without its capacity guard. -/
def addPositionUncapped (markets : List RiskMarket) (t : Totals) (p : RiskPosition) : Except Error Totals := do
  let m ← findMarket markets p.marketId
  revertIf (m.active = false) .invalidConfig
  let currentFunding := if p.isLong then m.fundingIndexLong else m.fundingIndexShort
  let tradePnl ← signedPositionPnl p m.oraclePrice
  let fPnl ← fundingPnl p currentFunding
  let upnl ← M.add tradePnl fPnl
  let n ← notional p.size m.oraclePrice
  let im ← M.applyBps n m.initialMarginBps
  let initial ← M.add t.initial im
  let mm ← M.applyBps n m.maintenanceMarginBps
  let maintenance ← M.add t.maintenance mm
  if p.isolated then do
    let lockedIsolated ← M.add t.lockedIsolated p.margin
    let isoMaintenance ← M.applyBps n m.maintenanceMarginBps
    let isoEquity ← M.add p.margin upnl
    pure ⟨t.upnls ++ [upnl], initial, maintenance, lockedIsolated,
      t.anyIsolatedLiquidatable || (decide (isoMaintenance > 0) && decide (isoEquity < isoMaintenance))⟩
  else pure ⟨t.upnls ++ [upnl], initial, maintenance, t.lockedIsolated, t.anyIsolatedLiquidatable⟩

/-- The account health computed from what the first loop accumulates. -/
def healthOfTotals (loop : Except Error Totals) (collateral : List RiskCollateral) (positions : List RiskPosition)
    (markets : List RiskMarket) : Except Error AccountHealth := do
  let totalCollateral ← collateral.foldlM addCollateral 0
  let t ← loop
  let crossCollateral ← M.sub totalCollateral t.lockedIsolated
  let (isolatedEquity, crossUnrealized) ← (positions.zip t.upnls).foldlM addEquity (0, 0)
  let unrealized ← t.upnls.foldlM M.add 0
  let cross ← M.add crossCollateral crossUnrealized
  let equity ← M.add cross isolatedEquity
  let freeCollateral ← M.sub equity t.initial
  let marginRatio ← marginRatioOf equity t.maintenance
  let crossMaintenance ← positions.foldlM (addCrossMaintenance markets) 0
  let crossEquity ← M.add crossCollateral crossUnrealized
  pure {
    collateralValue := totalCollateral
    unrealizedPnl := unrealized
    equity := equity
    initialMarginRequired := t.initial
    maintenanceMarginRequired := t.maintenance
    freeCollateral := freeCollateral
    marginRatio := marginRatio
    liquidatable :=
      (decide (crossMaintenance > 0) && decide (crossEquity < crossMaintenance)) || t.anyIsolatedLiquidatable }

/-- The account health of any number of positions. -/
def accountHealthUncapped (collateral : List RiskCollateral) (positions : List RiskPosition)
    (markets : List RiskMarket) : Except Error AccountHealth :=
  healthOfTotals (positions.foldlM (addPositionUncapped markets) ⟨[], 0, 0, 0, false⟩) collateral positions markets

theorem addPosition_uncapped {markets : List RiskMarket} {t : Totals} {p : RiskPosition} {i : Nat}
    (hi : i < MAX_POSITIONS) : addPosition markets t (p, i) = addPositionUncapped markets t p := by
  simp only [addPosition, revertIf_of_not (not_le.2 hi)]
  rfl

theorem foldlM_uncapped (markets : List RiskMarket) : ∀ (positions : List RiskPosition) (i : Nat) (t : Totals),
    i + positions.length ≤ MAX_POSITIONS →
      (positions.zipIdx i).foldlM (addPosition markets) t = positions.foldlM (addPositionUncapped markets) t
  | [], _, _, _ => rfl
  | p :: positions, i, t, hlen => by
    rw [List.length_cons] at hlen
    rw [List.zipIdx_cons, List.foldlM_cons, List.foldlM_cons, addPosition_uncapped (by omega)]
    refine bind_congr fun t' => ?_
    exact foldlM_uncapped markets positions (i + 1) t' (by omega)

/-- **Up to the capacity the guard is never met.** -/
theorem accountHealth_uncapped {collateral : List RiskCollateral} {positions : List RiskPosition}
    {markets : List RiskMarket} (h : positions.length ≤ MAX_POSITIONS) :
    accountHealth collateral positions markets = accountHealthUncapped collateral positions markets := by
  rw [accountHealthUncapped, ← foldlM_uncapped markets positions 0 _ (by omega)]
  rfl

end RiskLib

namespace Engine

/-! ## Counting positions -/

/-- The markets an account has a position in. -/
def openMarkets (e : EngineStorage) (a : Address) : Finset MarketId :=
  Finset.univ.filter fun m => (e.positions (a, m)).size ≠ 0

theorem mem_openMarkets {e : EngineStorage} {a : Address} {m : MarketId} :
    m ∈ openMarkets e a ↔ (e.positions (a, m)).size ≠ 0 := by
  simp [openMarkets]

/-- **The index counts the open positions.** -/
theorem card_openMarkets {e : EngineStorage} (hl : Listed e) (a : Address) :
    (openMarkets e a).card = Bitmap.popcount (e.marketBitmap a) := by
  have hset : openMarkets e a = (Bitmap.marketIds (e.marketBitmap a)).toFinset := by
    ext m
    rw [mem_openMarkets, List.mem_toFinset, hl.mem]
  rw [hset, List.toFinset_card_of_nodup (Bitmap.marketIds_nodup (hl.word a)), Bitmap.length_marketIds (hl.word a)]

/-- What holds of every account's positions: they are in listed markets, and only the backstop exceeds the limit. -/
structure Placed (D : Deployment) (w : World) : Prop where
  index : Listed w.engine
  market : ∀ a m, (w.engine.positions (a, m)).size ≠ 0 → (w.risk.markets m).listed = true
  count : ∀ a, a ≠ D.insurance → (openMarkets w.engine a).card ≤ MAX_POSITIONS_PER_ACCOUNT

section Trades
variable {D : Deployment} {w w' : World} {trader : Address} {marketId : MarketId} {delta v : Int} {x : Clearing.Terms}

theorem card_booked (n : Nat) (hn : (openMarkets w.engine trader).card ≤ n)
    (hroom : (w.engine.positions (trader, marketId)).size = 0 → (openMarkets w.engine trader).card < n) :
    (openMarkets (booked D w trader marketId delta v x).engine trader).card ≤ n := by
  have hsub : openMarkets (booked D w trader marketId delta v x).engine trader ⊆
      insert marketId (openMarkets w.engine trader) := by
    intro m hm
    by_cases h : m = marketId
    · exact h ▸ Finset.mem_insert_self _ _
    · refine Finset.mem_insert_of_mem (mem_openMarkets.2 ?_)
      rw [mem_openMarkets] at hm
      have hkey : (trader, m) ≠ (trader, marketId) := fun he => h (Prod.mk.inj he).2
      simp only [booked, Function.update_of_ne hkey] at hm
      exact hm
  have hcard := Finset.card_le_card hsub
  by_cases h0 : (w.engine.positions (trader, marketId)).size = 0
  · have hinsert := Finset.card_insert_le marketId (openMarkets w.engine trader)
    have := hroom h0
    omega
  · rw [Finset.insert_eq_self.2 (mem_openMarkets.2 h0)] at hcard
    omega

theorem openMarkets_booked_of_ne {a : Address} (ha : a ≠ trader) :
    openMarkets (booked D w trader marketId delta v x).engine a = openMarkets w.engine a := by
  ext m
  have hkey : (a, m) ≠ (trader, marketId) := fun he => ha (Prod.mk.inj he).1
  simp only [mem_openMarkets, booked, Function.update_of_ne hkey]

/-- **A trade in a listed market keeps the positions placed**, when it opens one only where there is room for it. -/
theorem booked_placed (hp : Placed D w) (hx : Admits w trader marketId delta x)
    (hm : (w.risk.markets marketId).listed = true)
    (hroom : trader ≠ D.insurance → (w.engine.positions (trader, marketId)).size = 0 →
      (openMarkets w.engine trader).card < MAX_POSITIONS_PER_ACCOUNT) :
    Placed D (booked D w trader marketId delta v x) := by
  refine ⟨booked_listed hp.index hx, fun a m hopen => ?_, fun a ha => ?_⟩
  · by_cases hk : (a, m) = (trader, marketId)
    · obtain ⟨-, rfl⟩ := Prod.mk.inj hk
      exact hm
    · simp only [booked, Function.update_of_ne hk] at hopen
      exact hp.market a m hopen
  · by_cases h : a = trader
    · subst h
      exact card_booked _ (hp.count a ha) (hroom ha)
    · rw [openMarkets_booked_of_ne h]
      exact hp.count a ha

/-- **A trade under the limits opens a position only where the trader holds fewer than the limit.** -/
theorem trade_room {m : MarketParams} {price notional : Int} {reduceOnly : Bool} {r : World × Bool × Int}
    (h0 : (w.engine.positions (trader, marketId)).size = 0)
    (h : trade D w trader marketId m delta price notional reduceOnly true = .ok r) :
    Bitmap.popcount (w.engine.marketBitmap trader) < MAX_POSITIONS_PER_ACCOUNT := by
  simp only [trade, bind_ok_iff] at h
  obtain ⟨⟨w₁, p⟩, hfund, leg, hleg, -⟩ := h
  obtain ⟨payment, rfl, rfl, -⟩ := settleFunding_ok hfund
  have hflat : (settledPosition (w.engine.funding marketId) (w.engine.positions (trader, marketId))).size = 0 := by
    rw [settledPosition_size, h0]
  simp only [hflat, true_or, if_true, increase, bind_ok_iff, addMarket, revertIf_ok, exists_const, true_and, not_le,
    ge_iff_le] at hleg
  obtain ⟨-, _, ⟨-, hcap, -⟩, -⟩ := hleg
  exact hcap

end Trades

section Calls
variable {D : Deployment} {w w' : World}

theorem Placed.marked (hp : Placed D w) (marketId : MarketId) (t : Nat) (st : MarkState) :
    Placed D (marked w marketId t st) :=
  ⟨hp.index.of_eq rfl rfl, hp.market, hp.count⟩

theorem Placed.of_engine (hp : Placed D w) (he : w'.engine = w.engine) (hr : w'.risk = w.risk) : Placed D w' := by
  refine ⟨?_, ?_, ?_⟩
  · rw [he]
    exact hp.index
  · rw [he, hr]
    exact hp.market
  · rw [he]
    exact hp.count

theorem applyFill_checks {caller trader : Address} {marketId : MarketId} {isBuy : Bool} {size price notional : Int}
    {reduceOnly increased : Bool}
    (h : applyFill D w caller trader marketId isBuy size price notional reduceOnly = .ok (w', increased)) :
    (w.risk.markets marketId).listed = true ∧ ((w.engine.positions (trader, marketId)).size = 0 →
      Bitmap.popcount (w.engine.marketBitmap trader) < MAX_POSITIONS_PER_ACCOUNT) := by
  simp only [applyFill, bind_ok_iff, revertIf_ok, World.whenNotPaused_ok, pure_ok, Prod.mk.injEq, exists_const] at h
  obtain ⟨-, -, -, m, hm, index, -, maxDelta, -, lo, -, -, hi, -, -, w₁, hmark, ⟨w₂, inc, r⟩, htrade, -, -⟩ := h
  obtain ⟨t, st, rfl⟩ := recordMark_ok hmark
  exact ⟨(RiskParams.market_ok hm).1, fun h0 => trade_room (w := Engine.marked w marketId t st) h0 htrade⟩

theorem applyFill_placed {caller trader : Address} {marketId : MarketId} {isBuy : Bool} {size price notional : Int}
    {reduceOnly increased : Bool} (hp : Placed D w)
    (h : applyFill D w caller trader marketId isBuy size price notional reduceOnly = .ok (w', increased)) :
    Placed D w' := by
  obtain ⟨hm, hroom⟩ := applyFill_checks h
  obtain ⟨-, -, t, st, x, hx, rfl, -⟩ := applyFill_ok h
  refine booked_placed (hp.marked marketId t st) hx hm fun _ h0 => ?_
  have hcard := card_openMarkets hp.index trader
  have := hroom h0
  exact lt_of_eq_of_lt hcard this

/-- **A fill that opens a position leaves its trader within the limit**, whoever it is. -/
theorem applyFill_count {caller trader : Address} {marketId : MarketId} {isBuy : Bool} {size price notional : Int}
    {reduceOnly increased : Bool} (hl : Listed w.engine)
    (h0 : (w.engine.positions (trader, marketId)).size = 0)
    (h : applyFill D w caller trader marketId isBuy size price notional reduceOnly = .ok (w', increased)) :
    positionCount w' trader ≤ MAX_POSITIONS_PER_ACCOUNT := by
  have hroom := (applyFill_checks h).2 h0
  rw [← card_openMarkets hl] at hroom
  obtain ⟨-, -, t, st, x, hx, rfl, -⟩ := applyFill_ok h
  have hl' : Listed (Engine.marked w marketId t st).engine := hl.of_eq rfl rfl
  rw [positionCount, ← card_openMarkets (booked_listed hl' hx)]
  exact card_booked _ hroom.le fun _ => hroom

theorem liquidationTransfer_placed {caller trader : Address} {marketId : MarketId} {size price realized : Int}
    (hp : Placed D w)
    (h : liquidationTransfer D w caller trader D.insurance marketId size price = .ok (w', realized)) :
    Placed D w' := by
  have hm : (w.risk.markets marketId).listed = true := by
    simp only [liquidationTransfer, bind_ok_iff] at h
    obtain ⟨_, -, _, -, _, -, _, -, m, hm, -⟩ := h
    exact (RiskParams.market_ok hm).1
  obtain ⟨delta, v, w₁, x, y, hopen, -, -, hx, rfl, hy, rfl, -⟩ := liquidationTransfer_ok h
  have hp₁ := booked_placed (v := v) hp hx hm fun _ h0 => absurd h0 hopen
  exact booked_placed hp₁ hy hm fun hne _ => absurd rfl hne

theorem adlTransfer_placed {caller backstop counterparty : Address} {marketId : MarketId} {size price realized : Int}
    (hp : Placed D w)
    (h : adlTransfer D w caller backstop counterparty marketId size price = .ok (w', realized)) : Placed D w' := by
  have hm : (w.risk.markets marketId).listed = true := by
    simp only [adlTransfer, bind_ok_iff] at h
    obtain ⟨_, -, _, -, _, -, _, -, _, -, m, hm, -⟩ := h
    exact (RiskParams.market_ok hm).1
  obtain ⟨delta, v, w₁, x, y, hopen, -, hx, rfl, hreduces, hy, rfl, -⟩ := adlTransfer_ok h
  have hp₁ := booked_placed (v := v) hp hx hm fun _ h0 => absurd h0 hopen
  exact booked_placed hp₁ hy hm fun _ h0 => absurd h0 hreduces.1

end Calls

end Engine

/-! ## Every run -/

open Engine (Placed openMarkets)
open OrderGateway (Settled)
open Transition

variable {D : Deployment} {env : Env} {w w' : World} {call : Call} {settled : List Settled}

theorem settleOne_placed {msg : Msg} {wallet : Address → Bytes32 → Bytes → Bool} {f : Fill} {st : OrderGateway.Settlement}
    (hp : Placed D w) (h : OrderGateway.settleOne D env w msg wallet f = .ok (w', st)) : Placed D w' := by
  obtain ⟨orderState, unwound, happly⟩ := settleOne_progress h
  obtain ⟨w₁, _, w₂, _, hmaker, htaker, hcharge⟩ := apply_ok happly
  have hp₀ : Placed D (withProgress w orderState unwound) := hp.of_engine rfl rfl
  have hp₂ := Engine.applyFill_placed (Engine.applyFill_placed hp₀ hmaker) htaker
  obtain ⟨hcharges, hengine, -⟩ := chargeFill_clears hcharge
  exact hp₂.of_engine hengine hcharges.risk

theorem liquidate_placed {msg : Msg} {trader : Address} {marketId : MarketId} {maxSize : Nat} (hp : Placed D w)
    (h : Liquidation.liquidate D w msg trader marketId maxSize = .ok w') : Placed D w' := by
  obtain ⟨-, -, _, _, _, w₁, _, w₂, _, -, -, htransfer, hpay, -, -, hw⟩ := liquidate_ok h
  have hp₁ := Engine.liquidationTransfer_placed hp htransfer
  obtain ⟨hcharges, hengine, -⟩ := payPenalty_clears hpay
  have hp₂ : Placed D w₂ := hp₁.of_engine hengine hcharges.risk
  rcases hw with ⟨rfl, -⟩ | rfl
  · obtain ⟨hmoves, hengine, -⟩ := coveredWorld_clears (D := D) (w := w₂) trader
    exact hp₂.of_engine hengine hmoves.risk
  · exact hp₂

theorem adl_placed {counterparty : Address} {marketId : MarketId} {maxSize : Nat} (hp : Placed D w)
    (h : Liquidation.adl D w counterparty marketId maxSize = .ok w') : Placed D w' := by
  simp only [Liquidation.adl, bind_ok_iff] at h
  obtain ⟨_, -, _, -, _, -, _, -, _, -, _, -, _, -, _, -, _, -, _, -, _, -, _, -, ⟨w₁, realized⟩, htransfer, h⟩ := h
  have hp₁ := Engine.adlTransfer_placed hp htransfer
  rw [transferIf_ok h]
  exact hp₁.of_engine rfl rfl

/-- **Every call that reaches the engine keeps the positions placed.** -/
theorem exec_placed (htouch : call.tx.touchesEngine = true) (hp : Placed D w)
    (h : exec D env w call = .ok (w', settled)) : Placed D w' := by
  obtain ⟨msg, tx⟩ := call
  cases tx with
  | updateFunding marketId =>
    have hupdate := (unsettled_ok.1 h).1
    simp only [Engine.updateFunding, bind_ok_iff, pure_ok] at hupdate
    obtain ⟨_, -, _, -, m, -, ⟨w₁, mark⟩, htwap, _, -, _, -, _, -, _, -, _, -, rfl⟩ := hupdate
    obtain ⟨marks, rfl⟩ := consumeTwap_ok htwap
    exact ⟨hp.index.of_eq rfl rfl, hp.market, hp.count⟩
  | settleFillsSigned fills =>
    simp only [exec, OrderGateway.settleFillsSigned, bind_ok_iff] at h
    obtain ⟨_, -, _, -, _, -, h⟩ := h
    exact (settleFills_batch fills w w' settled h).chain.relates (fun w w' => Placed D w → Placed D w')
      (fun _ => id) (fun _ _ _ h h' => h' ∘ h) (fun _ _ _ _ _ hone hp => settleOne_placed hp hone) hp
  | liquidate trader marketId maxSize => exact liquidate_placed hp (unsettled_ok.1 h).1
  | adl counterparty marketId maxSize => exact adl_placed hp (unsettled_ok.1 h).1
  | _ => exact absurd htouch Bool.false_ne_true

/-- **Every step keeps the positions placed**: the registry never drops a market. -/
theorem step_placed {l : Label} (hp : Placed D w) (h : (machine D env).step w l w') : Placed D w' := by
  by_cases htouch : l.call.tx.touchesEngine = true
  · exact exec_placed htouch hp h.2
  · have hengine := exec_engine (by simpa using htouch) h.1 h.2
    refine ⟨?_, fun a m hopen => ?_, ?_⟩
    · rw [hengine]
      exact hp.index
    · rw [hengine] at hopen
      exact (run_oracle (Run.single h) m (hp.market a m hopen)).1
    · rw [hengine]
      exact hp.count

theorem genesis_placed (h : Genesis D w) : Placed D w := by
  refine ⟨genesis_listed h, fun a m hopen => ?_, fun a _ => ?_⟩
  · rw [h.engine] at hopen
    exact absurd rfl hopen
  · simp [openMarkets, h.engine, Position.empty]

theorem reachable_placed (h : Reachable (machine D env) w) : Placed D w :=
  h.invariant (Placed D) (fun _ => genesis_placed) fun _ _ _ _ => step_placed

theorem positionCount_le (h : Reachable (machine D env) w) (a : Address) :
    Engine.positionCount w a ≤ RiskParams.MAX_MARKETS := by
  have hp := reachable_placed h
  have hlisting := reachable_listing h
  have hsub : openMarkets w.engine a ⊆ w.risk.ids.toFinset := fun m hm =>
    List.mem_toFinset.2 ((hlisting.ids m).2 (hp.market a m (Engine.mem_openMarkets.1 hm)))
  have hcard := Finset.card_le_card hsub
  rw [Engine.card_openMarkets hp.index, List.toFinset_card_of_nodup hlisting.nodup] at hcard
  exact hcard.trans hlisting.count

theorem riskInputs_length {a : Address} {c : List RiskCollateral} {p : List RiskPosition} {mk : List RiskMarket}
    (hl : Engine.Listed w.engine) (h : Engine.riskInputs w a = .ok (c, p, mk)) : p.length = Engine.positionCount w a := by
  simp only [Engine.riskInputs, bind_ok_iff, pure_ok, Prod.mk.injEq] at h
  obtain ⟨inputs, hinputs, -, rfl, -⟩ := h
  obtain ⟨rfl, -⟩ := mapM_ok (fun m => (Engine.positionInput w a m, Engine.marketInput w m)) (Engine.riskInput w a) _ _
    (fun m r _ hr => Engine.riskInput_ok hr) hinputs
  rw [List.length_map, List.length_map, Bitmap.length_marketIds (hl.word a), Engine.positionCount]

/-- **The position index.** In a reachable world an account's bitmap and the list read from it are its open positions, in
ascending order; a basis has its position's sign; ordinary accounts hold at most sixteen positions, a fill that opens one
leaves whoever traded within sixteen, and nobody holds more than thirty-two; so no health is refused for their number. -/
theorem portfolio_indexed (h : Reachable (machine D env) w) (a : Address) :
    (∀ m, (w.engine.marketBitmap a).testBit m.toNat = true ↔ (w.engine.positions (a, m)).size ≠ 0) ∧
      (∀ m, m ∈ Bitmap.marketIds (w.engine.marketBitmap a) ↔ (w.engine.positions (a, m)).size ≠ 0) ∧
      (Bitmap.marketIds (w.engine.marketBitmap a)).Pairwise (fun m n => m.toNat < n.toNat) ∧
      (∀ m, Engine.Sided (w.engine.positions (a, m))) ∧
      (a ≠ D.insurance → Engine.positionCount w a ≤ Engine.MAX_POSITIONS_PER_ACCOUNT) ∧
      (∀ caller m isBuy size price notional reduceOnly w' increased,
        Engine.applyFill D w caller a m isBuy size price notional reduceOnly = .ok (w', increased) →
          (w.engine.positions (a, m)).size = 0 → Engine.positionCount w' a ≤ Engine.MAX_POSITIONS_PER_ACCOUNT) ∧
      Engine.positionCount w a ≤ RiskParams.MAX_MARKETS ∧
      ∀ c p mk, Engine.riskInputs w a = .ok (c, p, mk) →
        RiskLib.accountHealth c p mk = RiskLib.accountHealthUncapped c p mk := by
  have hp := reachable_placed h
  refine ⟨hp.index.bit a, fun m => hp.index.mem, Bitmap.marketIds_sorted (hp.index.word a),
    fun m => reachable_sided h (a, m), fun ha => ?_, fun _ _ _ _ _ _ _ _ _ hfill h0 =>
      Engine.applyFill_count hp.index h0 hfill, positionCount_le h a, fun c p mk hin => ?_⟩
  · rw [Engine.positionCount, ← Engine.card_openMarkets hp.index]
    exact hp.count a ha
  · refine RiskLib.accountHealth_uncapped ?_
    rw [riskInputs_length hp.index hin]
    exact (positionCount_le h a).trans (by decide)

theorem portfolio_indexed_alice :
    Reachable (machine Sample.deployment Sample.env) (Sample.outcome Sample.trading) ∧
      Bitmap.marketIds ((Sample.outcome Sample.trading).engine.marketBitmap Sample.alice) = [1] ∧
      Engine.positionCount (Sample.outcome Sample.trading) Sample.alice ≤ Engine.MAX_POSITIONS_PER_ACCOUNT := by
  have hreach := Sample.outcome_reachable Sample.trading
  obtain ⟨-, -, -, -, hcount, -⟩ := portfolio_indexed hreach Sample.alice
  exact ⟨hreach, by decide +kernel, hcount (by decide +kernel)⟩

end Kryon
