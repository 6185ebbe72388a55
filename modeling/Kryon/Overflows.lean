import Kryon.PauseReverts
import Kryon.Restoring
import Kryon.Portfolios
/-!
# Overflows — a liquidation whose conditions hold reverts only on overflow

Every guard of a liquidation but those of the arithmetic and the final health check is met in a reachable world where
nothing is paused and the account can be priced: the roles are wired, the open markets are listed, the sizes and prices
are positive and the rates within their bounds (`liquidate_overflows`).
-/
namespace Kryon

open Program Transition

/-- A value outside the checked range. -/
def Error.Overflow (e : Error) : Prop := e = .mathOverflow

instance (e : Error) : Decidable e.Overflow := inferInstanceAs (Decidable (e = .mathOverflow))

/-! ## Arithmetic -/

namespace M

@[simp] theorem bound128_overflows (v : Int) : RevertsOnly Error.Overflow (bound128 v) := by
  simp [bound128, Error.Overflow]

@[simp] theorem add_overflows (a b : Int) : RevertsOnly Error.Overflow (add a b) := by simp [add]

@[simp] theorem sub_overflows (a b : Int) : RevertsOnly Error.Overflow (sub a b) := by simp [sub]

theorem mulDiv_overflows {a b d : Int} (h : d ≠ 0) : RevertsOnly Error.Overflow (mulDiv a b d) := by
  simp [mulDiv, h]

@[simp] theorem mulPrecision_overflows (a b : Int) : RevertsOnly Error.Overflow (mulPrecision a b) :=
  mulDiv_overflows (by decide)

theorem divPrecision_overflows {a b : Int} (h : b ≠ 0) : RevertsOnly Error.Overflow (divPrecision a b) :=
  mulDiv_overflows h

theorem applyBps_overflows {a : Int} {bps : Nat} (h : bps ≤ 10000) : RevertsOnly Error.Overflow (applyBps a bps) := by
  rw [applyBps, revertsOnly_bind, revertsOnly_revertIf, BPS_DENOMINATOR]
  exact ⟨fun hover => by omega, fun _ _ => mulDiv_overflows (by decide)⟩

theorem mulPrecisionUp_overflows {a b : Int} (h : 0 < a * b) : RevertsOnly Error.Overflow (mulPrecisionUp a b) := by
  simp [mulPrecisionUp, not_le.2 h]

end M

/-! ## Health -/

theorem RiskLib.notional_overflows {size price : Int} (hsize : 0 < size) (hprice : 0 < price) :
    RevertsOnly Error.Overflow (RiskLib.notional size price) := by
  simp [RiskLib.notional, not_le.2 hsize, not_le.2 hprice]

namespace Engine

variable {D : Deployment} {w : World} {a trader : Address} {marketId : MarketId}

/-- An account whose health can be read: its open markets are listed, priced, few enough and margined within bounds. -/
structure Readable (w : World) (a : Address) : Prop where
  listed : Listed w.engine
  priced : Priced w a
  margins : ∀ m, (w.engine.positions (a, m)).size ≠ 0 →
    (w.risk.markets m).initialMarginBps ≤ 10000 ∧ (w.risk.markets m).maintenanceMarginBps ≤ 10000
  few : (Bitmap.marketIds (w.engine.marketBitmap a)).length ≤ RiskLib.MAX_POSITIONS

theorem findMarket_mem {ids : List MarketId} {m : MarketId} (hm : m ∈ ids) :
    RiskLib.findMarket (marketInputs w ids) m = .ok (marketInput w m) := by
  cases hfind : RiskLib.findMarket (marketInputs w ids) m with
  | ok r => rw [findMarket_inputs hfind]
  | error e =>
    unfold RiskLib.findMarket at hfind
    split at hfind
    · cases hfind
    · rename_i hnone
      have hmiss := List.find?_eq_none.1 hnone (marketInput w m) (List.mem_map_of_mem hm)
      exact absurd (decide_eq_true (rfl : (marketInput w m).marketId = m)) hmiss

theorem entryOf_pos (p : Position) : 0 < entryOf p := lt_of_lt_of_le one_pos (le_max_left 1 _)

theorem riskInput_overflows {m : MarketId} (hopen : (w.engine.positions (a, m)).size ≠ 0)
    (hprice : indexPrice w m = .ok (indexAt w m)) : RevertsOnly Error.Overflow (riskInput w a m) := by
  obtain ⟨hmarket, -⟩ := indexPrice_ok hprice
  have hindex : indexOf w (w.risk.markets m) = .ok (indexAt w m) := by
    rw [indexPrice, hmarket, ok_bind] at hprice
    exact hprice
  have habs : M.abs (w.engine.positions (a, m)).size ≠ 0 := by
    rw [M.abs_eq]
    exact abs_ne_zero.2 hopen
  simp only [riskInput, hmarket, ok_bind, hindex, revertsOnly_bind, revertsOnly_pure, implies_true, and_true]
  exact M.divPrecision_overflows habs

theorem Readable.riskInputs (h : Readable w a) : RevertsOnly Error.Overflow (riskInputs w a) := by
  rw [Engine.riskInputs, revertsOnly_bind]
  refine ⟨revertsOnly_mapM _ fun m hm => ?_, fun _ _ => revertsOnly_pure _⟩
  have hopen := h.listed.mem.1 hm
  exact riskInput_overflows hopen (h.priced m hopen).1

/-- One turn of the first pass, at an open market. -/
theorem Readable.addPosition (h : Readable w a) {ids : List MarketId} {m : MarketId} {i : Nat} (hm : m ∈ ids)
    (hopen : (w.engine.positions (a, m)).size ≠ 0) (hi : i < RiskLib.MAX_POSITIONS) (t : RiskLib.Totals) :
    RevertsOnly Error.Overflow (RiskLib.addPosition (marketInputs w ids) t (positionInput w a m, i)) := by
  have hsize : 0 < (positionInput w a m).size := abs_pos.2 hopen
  have hprice : 0 < (marketInput w m).oraclePrice := (h.priced m hopen).2
  have hentry : 0 < (positionInput w a m).entryPrice := entryOf_pos _
  have hfind := findMarket_mem (w := w) hm
  obtain ⟨him, hmm⟩ := h.margins m hopen
  have hpnl : RevertsOnly Error.Overflow
      (RiskLib.signedPositionPnl (positionInput w a m) (marketInput w m).oraclePrice) := by
    simp [RiskLib.signedPositionPnl, not_le.2 hsize, not_le.2 hprice, not_le.2 hentry]
  have hfunding : ∀ x, RevertsOnly Error.Overflow (RiskLib.fundingPnl (positionInput w a m) x) := by
    simp [RiskLib.fundingPnl]
  have hnotional := RiskLib.notional_overflows hsize hprice
  have hinitial : ∀ n, RevertsOnly Error.Overflow (M.applyBps n (marketInput w m).initialMarginBps) :=
    fun n => M.applyBps_overflows him
  have hmaintenance : ∀ n, RevertsOnly Error.Overflow (M.applyBps n (marketInput w m).maintenanceMarginBps) :=
    fun n => M.applyBps_overflows hmm
  simp only [RiskLib.addPosition, show (positionInput w a m).marketId = m from rfl, hfind, ok_bind]
  simp only [revertsOnly_bind, revertsOnly_revertIf, revertsOnly_ite, revertsOnly_pure, M.add_overflows, hpnl, hfunding,
    hnotional, hinitial, hmaintenance, implies_true, and_true]
  exact ⟨fun hover => absurd hi (not_lt.2 hover), fun _ _ hoff => Bool.noConfusion hoff⟩

theorem Readable.addCrossMaintenance (h : Readable w a) {ids : List MarketId} {m : MarketId} (hm : m ∈ ids)
    (hopen : (w.engine.positions (a, m)).size ≠ 0) (t : Int) :
    RevertsOnly Error.Overflow (RiskLib.addCrossMaintenance (marketInputs w ids) t (positionInput w a m)) := by
  have hfind := findMarket_mem (w := w) hm
  have hnotional := RiskLib.notional_overflows (abs_pos.2 hopen) (h.priced m hopen).2
  have hmaintenance : ∀ n, RevertsOnly Error.Overflow (M.applyBps n (marketInput w m).maintenanceMarginBps) :=
    fun n => M.applyBps_overflows (h.margins m hopen).2
  simp only [RiskLib.addCrossMaintenance, show (positionInput w a m).marketId = m from rfl, hfind, ok_bind,
    revertsOnly_ite, revertsOnly_bind, revertsOnly_pure, M.add_overflows, hmaintenance, implies_true, and_true, true_and]
  exact fun _ => hnotional

theorem addCollateral_overflows (t v : Int) : RevertsOnly Error.Overflow (RiskLib.addCollateral t ⟨v, 0⟩) := by
  simp [RiskLib.addCollateral, RiskLib.collateralValueAfterHaircut, M.applyBps_overflows (Nat.zero_le 10000)]

/-- **The health of an account that can be read reverts only on overflow.** -/
theorem Readable.accountHealth (h : Readable w a) : RevertsOnly Error.Overflow (accountHealth w a) := by
  rw [Engine.accountHealth, revertsOnly_bind]
  refine ⟨h.riskInputs, ?_⟩
  rintro ⟨c, p, mk⟩ hinputs
  obtain ⟨rfl, rfl, rfl, -⟩ := riskInputs_ok hinputs
  set ids := Bitmap.marketIds (w.engine.marketBitmap a) with hids
  have hopen : ∀ m ∈ ids, (w.engine.positions (a, m)).size ≠ 0 := fun m hm => h.listed.mem.1 hm
  have hcollateral : RevertsOnly Error.Overflow
      ([(⟨w.vault.balances a, 0⟩ : RiskCollateral)].foldlM RiskLib.addCollateral 0) := by
    refine revertsOnly_foldlM _ _ fun t v hv => ?_
    rw [List.mem_singleton.1 hv]
    exact addCollateral_overflows t _
  have hfirst : ∀ t, RevertsOnly Error.Overflow
      ((positionInputs w a ids).zipIdx.foldlM (RiskLib.addPosition (marketInputs w ids)) t) := by
    refine fun t => revertsOnly_foldlM _ _ fun t e he => ?_
    obtain ⟨p, i⟩ := e
    obtain ⟨m, hm, rfl⟩ := List.mem_map.1 (List.fst_mem_of_mem_zipIdx he)
    have hi := List.snd_lt_of_mem_zipIdx he
    simp only [List.length_map] at hi
    exact h.addPosition hm (hopen m hm) (lt_of_lt_of_le hi h.few) t
  have hsecond : ∀ (l : List (RiskPosition × Int)) (t : Int × Int),
      RevertsOnly Error.Overflow (l.foldlM RiskLib.addEquity t) :=
    fun l t => revertsOnly_foldlM _ _ fun t e _ => by simp [RiskLib.addEquity]
  have hsum : ∀ (l : List Int) (t : Int), RevertsOnly Error.Overflow (l.foldlM M.add t) :=
    fun l t => revertsOnly_foldlM _ _ fun t e _ => M.add_overflows _ _
  have hlast : ∀ t, RevertsOnly Error.Overflow
      ((positionInputs w a ids).foldlM (RiskLib.addCrossMaintenance (marketInputs w ids)) t) := by
    refine fun t => revertsOnly_foldlM _ _ fun t p hp => ?_
    obtain ⟨m, hm, rfl⟩ := List.mem_map.1 hp
    exact h.addCrossMaintenance hm (hopen m hm) t
  have hratio : ∀ e t, RevertsOnly Error.Overflow (RiskLib.marginRatioOf e t) := fun e t => by
    rw [RiskLib.marginRatioOf, revertsOnly_ite]
    exact ⟨fun hpos => M.divPrecision_overflows (by omega), fun _ => revertsOnly_pure _⟩
  simp only [RiskLib.accountHealth, revertsOnly_bind, revertsOnly_pure, M.add_overflows, M.sub_overflows, hcollateral,
    hfirst, hsecond, hsum, hlast, hratio, implies_true, and_true]

end Engine

/-! ## Money -/

variable {D : Deployment} {w w' : World} {trader : Address} {marketId : MarketId}

/-- The contracts that a liquidation calls are not paused, and hold their roles. -/
structure Ready (D : Deployment) (w : World) : Prop where
  running : Running w
  wired : Wired D w

theorem Ready.congr (h : Ready D w) (hroles : w'.roles = w.roles) (hpaused : w'.paused = w.paused) : Ready D w' where
  running := h.running.congr hpaused
  wired := by
    constructor
    · intro a
      rw [World.hasRole, hroles]
      exact h.wired.ledger a
    · intro a
      rw [World.hasRole, hroles]
      exact h.wired.feeSource a

theorem Frames.ready (h : Frames w w') (hready : Ready D w) : Ready D w' := hready.congr h.roles h.paused

theorem whenNotPaused_overflows {c : Contract} (h : w.paused c = false) : RevertsOnly Error.Overflow (w.whenNotPaused c) := by
  simp [World.whenNotPaused, h]

theorem transferInternal_overflows (h : Ready D w) {caller src dst : Address} {amount : Int}
    (hcaller : caller = D.engine ∨ caller = D.feeRouter ∨ caller = D.liquidation ∨ caller = D.insurance)
    (h0 : 0 ≤ amount) : RevertsOnly Error.Overflow (Vault.transferInternal w caller src dst amount) := by
  simp [Vault.transferInternal, World.onlyRole, (h.wired.ledger caller).2 hcaller,
    whenNotPaused_overflows h.running.vault, not_lt.2 h0]

theorem applyPnl_overflows (h : Ready D w) (account : Address) (amount : Int) :
    RevertsOnly Error.Overflow (Vault.applyPnl D w D.engine account amount) := by
  simp [Vault.applyPnl, Vault.move, whenNotPaused_overflows h.running.vault]

/-! ## Trades -/

namespace Engine

theorem settleFunding_overflows (h : Ready D w) (trader : Address) (marketId : MarketId) (p : Position) :
    RevertsOnly Error.Overflow (settleFunding D w trader marketId p) := by
  rw [settleFunding, revertsOnly_ite]
  refine ⟨fun _ => revertsOnly_pure _, fun hopen => ?_⟩
  have habs : 0 < M.abs p.size := by
    rw [M.abs_eq]
    exact abs_pos.2 hopen
  simp only [revertsOnly_bind, revertsOnly_ite, revertsOnly_pure, M.sub_overflows, M.mulPrecision_overflows, implies_true,
    and_true, true_and]
  refine fun d _ _ => ⟨fun hpos => ⟨M.mulPrecisionUp_overflows (mul_pos habs hpos), fun paid hpaid => ?_⟩,
    fun hneg received hreceived => ?_⟩
  · have hle := M.le_mulPrecisionUp hpaid
    have hpos' := mul_pos habs hpos
    exact transferInternal_overflows h (.inl rfl) (by simp only [PRECISION] at hle; omega)
  · obtain ⟨-, rfl⟩ := (M.mulPrecision_ok _ _ _).1 hreceived
    exact transferInternal_overflows h (.inl rfl) (Int.tdiv_nonneg (mul_nonneg habs.le (by omega)) (by decide))

@[simp] theorem changeOpenInterest_overflows (w : World) (marketId : MarketId) (isLong : Bool) (amount : Int) :
    RevertsOnly Error.Overflow (changeOpenInterest w marketId isLong amount) := by
  simp [changeOpenInterest]

@[simp] theorem openSide_overflows (w : World) (marketId : MarketId) (m : MarketParams) (p : Position)
    (delta notional : Int) : RevertsOnly Error.Overflow (openSide w marketId m p delta notional false) := by
  simp [openSide]

theorem increase_overflows (hid : 0 < marketId.toNat ∧ marketId.toNat ≤ 255) (w : World) (trader : Address)
    (m : MarketParams) (p : Position) (delta notional : Int) :
    RevertsOnly Error.Overflow (increase w trader marketId m p delta notional false false) := by
  have hadd : RevertsOnly Error.Overflow (addMarket w trader marketId false) := by
    simp only [addMarket, revertsOnly_bind, revertsOnly_revertIf, revertsOnly_pure, implies_true, and_true,
      Bool.false_eq_true, false_and, false_implies]
    omega
  simp [increase, hadd]

theorem reduce_overflows (w : World) (marketId : MarketId) (m : MarketParams) {p : Position} (hopen : p.size ≠ 0)
    {delta : Int} (price notional : Int) {reduceOnly : Bool} (hless : reduceOnly = true → |delta| ≤ |p.size|) :
    RevertsOnly Error.Overflow (reduce w marketId m p delta price notional reduceOnly false) := by
  have habs : |p.size| ≠ 0 := abs_ne_zero.2 hopen
  simp only [reduce, M.abs_eq, M.min_eq, revertsOnly_bind, revertsOnly_ite, revertsOnly_revertIf, revertsOnly_pure,
    M.mulPrecision_overflows, changeOpenInterest_overflows, openSide_overflows, M.mulDiv_overflows habs, implies_true,
    and_true, true_and]
  intro _ _ _ _ _ _ hresidual hro
  have hle := hless hro
  rw [min_eq_right hle] at hresidual
  omega

@[simp] theorem storePosition_overflows (w : World) (trader : Address) (marketId : MarketId) (p : Position) :
    RevertsOnly Error.Overflow (storePosition w trader marketId p) := by
  simp [storePosition]

/-- **A trade that no limit holds reverts only on overflow**, reduce-only where it reduces. -/
theorem trade_overflows (h : Ready D w) (hid : 0 < marketId.toNat ∧ marketId.toNat ≤ 255) {m : MarketParams}
    {delta price notional : Int} {reduceOnly : Bool} (hd : delta ≠ 0)
    (hreduces : reduceOnly = true → (w.engine.positions (trader, marketId)).size ≠ 0 ∧
      decide ((w.engine.positions (trader, marketId)).size > 0) ≠ decide (delta > 0) ∧
      |delta| ≤ |(w.engine.positions (trader, marketId)).size|) :
    RevertsOnly Error.Overflow (trade D w trader marketId m delta price notional reduceOnly false) := by
  rw [trade, revertsOnly_bind]
  refine ⟨settleFunding_overflows h trader marketId _, ?_⟩
  rintro ⟨w₁, p₁⟩ hfund
  obtain ⟨payment, rfl, rfl, -⟩ := settleFunding_ok hfund
  simp only [revertsOnly_bind]
  refine ⟨?_, fun leg hleg => ⟨M.add_overflows _ _, fun basis _ => ⟨storePosition_overflows _ _ _ _,
    fun w₂ hstore => ⟨?_, fun w₃ _ => ⟨by simp, by simp⟩⟩⟩⟩⟩
  · rw [revertsOnly_ite]
    simp only [settledPosition_size]
    refine ⟨fun hside => ?_, fun hside => ?_⟩
    · have hgrows : reduceOnly = false := by
        by_contra hro
        obtain ⟨hopen, hopposite, -⟩ := hreduces (Bool.eq_true_of_not_eq_false hro)
        exact hside.elim hopen hopposite
      rw [hgrows]
      exact increase_overflows hid _ _ _ _ _ _
    · have hopen := (settledPosition_size (w.engine.funding marketId) (w.engine.positions (trader, marketId)))
      refine reduce_overflows _ _ _ (by rw [hopen]; exact fun h0 => hside (.inl h0)) _ _ fun hro => ?_
      rw [hopen]
      exact (hreduces hro).2.2
  · have hbooked : LegBooked (w.withBalances (Book.transfer w.vault.balances trader D.engine payment)) trader marketId
        (settledPosition (w.engine.funding marketId) (w.engine.positions (trader, marketId))) delta notional leg :=
      (leg_ok hd hleg).1
    have hworld := storePosition_ok hstore
    have hroles : w₂.roles = w.roles := by
      rw [hworld, hbooked.world]
      rfl
    have hpaused : w₂.paused = w.paused := by
      rw [hworld, hbooked.world]
      rfl
    simp [applyPnl_overflows (h.congr hroles hpaused)]

theorem market_overflows {m : MarketId} (h : (w.risk.markets m).listed = true) :
    RevertsOnly Error.Overflow (RiskParams.market w m) := by
  simp [RiskParams.market, h]

/-- **The transfer of a part of an open position reverts only on overflow.** -/
theorem liquidationTransfer_overflows (h : Ready D w) (hl : Listed w.engine) {size price : Int}
    (hlisted : (w.risk.markets marketId).listed = true) (hopen : (w.engine.positions (trader, marketId)).size ≠ 0)
    (hsize : 0 < size) (hle : size ≤ |(w.engine.positions (trader, marketId)).size|) (hprice : 0 < price) :
    RevertsOnly Error.Overflow
      (liquidationTransfer D w D.liquidation trader D.insurance marketId size price) := by
  have hid := hl.market _ _ hopen
  simp only [liquidationTransfer, revertsOnly_bind, revertsOnly_revertIf, M.abs_eq, ne_eq, not_true_eq_false,
    false_implies, true_and, market_overflows hlisted, M.mulPrecision_overflows, revertsOnly_pure, implies_true, and_true]
  refine fun _ _ => ⟨whenNotPaused_overflows h.running.engine, fun _ _ => ⟨fun h0 => absurd h0 hopen, fun _ _ =>
    ⟨fun hbad => by omega, fun _ _ m _ n _ => ?_⟩⟩⟩
  set d := if (w.engine.positions (trader, marketId)).size > 0 then -size else size with hd
  have habs : |d| = size := by rw [hd, abs_signed hsize]
  have hne : d ≠ 0 := by
    intro h0
    rw [h0, abs_zero] at habs
    omega
  have hside : decide ((w.engine.positions (trader, marketId)).size > 0) ≠ decide (d > 0) := by
    rw [hd, ne_eq, decide_eq_decide]
    split <;> omega
  refine ⟨trade_overflows h hid hne fun _ => ⟨hopen, hside, by rw [habs]; exact hle⟩, ?_⟩
  rintro ⟨w₁, _, _⟩ htrade
  obtain ⟨x, hx, rfl, -⟩ := trade_ok hne htrade
  have h₁ := (moves_booked (D := D) (signedValue d n) hx).toFrames.ready h
  exact trade_overflows h₁ hid (neg_ne_zero.2 hne) fun hro => absurd hro Bool.false_ne_true

end Engine

/-! ## The penalty and the cover -/

theorem applyBps_nonneg {a v : Int} {bps : Nat} (h0 : 0 ≤ a) (h : M.applyBps a bps = .ok v) : 0 ≤ v := by
  obtain ⟨-, rfl⟩ := (M.applyBps_ok _ _ _).1 h
  exact Int.tdiv_nonneg (mul_nonneg h0 (by omega)) (by decide)

theorem accrueLiquidationFee_overflows (h : Ready D w) {amount : Int} (h0 : 0 ≤ amount) :
    RevertsOnly Error.Overflow (FeeRouter.accrueLiquidationFee D w D.liquidation amount) := by
  have hrole : w.hasRole .feeRouter .feeSource D.liquidation = true := (h.wired.feeSource _).2 (.inr rfl)
  simp only [FeeRouter.accrueLiquidationFee, World.onlyRole, hrole, revertsOnly_bind, revertsOnly_revertIf,
    revertsOnly_ite, revertsOnly_pure, M.mulDiv_overflows (by decide : (10000 : Int) ≠ 0), implies_true, and_true,
    true_and]
  refine ⟨fun hno => absurd hno (by simp), fun _ _ => ⟨fun hneg => by omega, fun _ _ _ share _ hpos => ?_⟩⟩
  refine transferInternal_overflows ?_ (.inr (.inl rfl)) hpos.le
  exact h.congr rfl rfl

/-- **The penalty on a part that has a value reverts only on overflow.** -/
theorem payPenalty_overflows (h : Ready D w) (hm : (w.risk.markets marketId).listed = true)
    (hfee : (w.risk.markets marketId).liquidationFeeBps ≤ 10000) (hreward : w.liquidation.maxRewardBps ≤ 10000)
    {msg : Msg} {closeSize price : Int} (hsize : 0 < closeSize) (hprice : 0 < price) :
    RevertsOnly Error.Overflow (Liquidation.payPenalty D w msg trader marketId closeSize price) := by
  have hmarket : RiskParams.market w marketId = .ok (w.risk.markets marketId) := by
    simp [RiskParams.market, hm, revertIf_of_not]
  simp only [Liquidation.payPenalty, hmarket, ok_bind, revertsOnly_bind, revertsOnly_ite, revertsOnly_pure,
    RiskLib.notional_overflows hsize hprice, M.applyBps_overflows hfee, M.applyBps_overflows hreward, M.min_eq, true_and,
    implies_true, and_true]
  intro n hn penalty hpenalty cap hcap
  have hn0 : 0 ≤ n := by
    obtain ⟨-, -, rfl⟩ := Engine.notional_ok hn
    exact Int.tdiv_nonneg (mul_nonneg hsize.le hprice.le) (by decide)
  have hreward0 : 0 ≤ min penalty cap := le_min (applyBps_nonneg hn0 hpenalty) (applyBps_nonneg hn0 hcap)
  refine ⟨transferInternal_overflows h (.inr (.inr (.inl rfl))) hreward0, fun w₁ h₁ hrest => ?_⟩
  obtain ⟨-, rfl⟩ := Vault.transferInternal_ok h₁
  have hready₁ := (moves_withBalances (Book.transfer w.vault.balances trader msg.sender (min penalty cap))).toFrames.ready h
  refine ⟨transferInternal_overflows hready₁ (.inr (.inr (.inl rfl))) (by omega), fun w₂ h₂ => ?_⟩
  obtain ⟨-, rfl⟩ := Vault.transferInternal_ok h₂
  exact accrueLiquidationFee_overflows ((moves_withBalances _).toFrames.ready hready₁) (by omega)

theorem settleBadDebt_overflows (h : Ready D w) (hins : trader ≠ D.insurance)
    (hcount : Engine.positionCount w trader = 0) : RevertsOnly Error.Overflow (Insurance.settleBadDebt D w trader) := by
  simp only [Insurance.settleBadDebt, revertsOnly_bind, revertsOnly_revertIf, revertsOnly_ite, revertsOnly_pure,
    implies_true, and_true]
  exact ⟨whenNotPaused_overflows h.running.insurance, fun _ _ => ⟨fun he => absurd he hins, fun _ _ =>
    ⟨fun he => absurd hcount he, fun _ _ hpos =>
      transferInternal_overflows h (.inr (.inr (.inr rfl))) hpos.le⟩⟩⟩

/-! ## The plan -/

namespace Engine

theorem Readable.of_placed {a : Address} (hp : Placed D w)
    (hv : ∀ m, (w.risk.markets m).listed = true → RiskParams.ValidMarket (w.risk.markets m)) (hpriced : Priced w a)
    (ha : a ≠ D.insurance) : Readable w a where
  listed := hp.index
  priced := hpriced
  margins m hopen := by
    obtain ⟨⟨-, hmax⟩, ⟨-, hmm⟩, -, -⟩ := hv m (hp.market a m hopen)
    have him : (w.risk.markets m).initialMarginBps ≤ 10000 := hmax.trans (by decide)
    exact ⟨him, hmm.trans him⟩
  few := by
    rw [Bitmap.length_marketIds (hp.index.word a), ← card_openMarkets hp.index]
    exact (hp.count a ha).trans (by decide)

theorem find_mem {ids : List MarketId} (hm : marketId ∈ ids) :
    LiquidationLib.find (positionInputs w trader ids) marketId.toNat = .ok (positionInput w trader marketId) := by
  cases hfind : LiquidationLib.find (positionInputs w trader ids) marketId.toNat with
  | ok p => rw [find_inputs hfind]
  | error e =>
    unfold LiquidationLib.find at hfind
    split at hfind
    · cases hfind
    · rename_i hnone
      have hmiss := List.find?_eq_none.1 hnone (positionInput w trader marketId) (List.mem_map_of_mem hm)
      exact absurd (decide_eq_true (rfl : (positionInput w trader marketId).positionId = marketId.toNat)) hmiss

/-- **A planned size is positive and no more than the position**, which is in range. -/
theorem planLiquidationSize_bounds {bps : Nat} {size : Int} {h : AccountHealth} (hbps : bps ≤ 10000)
    (hplan : planLiquidationSize w trader marketId bps = .ok (size, h)) :
    0 < size ∧ size ≤ |(w.engine.positions (trader, marketId)).size| ∧
      |(w.engine.positions (trader, marketId)).size| ≤ I128_MAX := by
  simp only [planLiquidationSize, LiquidationLib.planLiquidation, bind_ok_iff, revertIf_ok, pure_ok, Prod.mk.injEq,
    exists_const] at hplan
  obtain ⟨⟨c, p, mk⟩, hinputs, _, ⟨h', -, -, -, position, hposition, market, -, shortfall, -, n, hn, cap, hcap, q, -, n', hn',
    _, -, rfl⟩, rfl, rfl⟩ := hplan
  obtain ⟨-, rfl, rfl, -⟩ := riskInputs_ok hinputs
  obtain rfl := find_inputs hposition
  simp only at hn' ⊢
  set closed := if q ≥ (positionInput w trader marketId).size then (positionInput w trader marketId).size
    else if q ≤ cap then q else cap with hclosed
  have hpos := (notional_ok hn').1
  have hsize : 0 < (positionInput w trader marketId).size := (notional_ok hn).1
  have hle : closed ≤ (positionInput w trader marketId).size := by
    obtain ⟨-, rfl⟩ := (M.mulDiv_ok _ _ _ _).1 hcap
    rw [hclosed]
    split_ifs with hall hcover
    · exact le_refl _
    · omega
    · rw [Int.tdiv_eq_ediv_of_nonneg (mul_nonneg hsize.le (by omega))]
      exact Int.ediv_le_of_le_mul (by decide) (mul_le_mul_of_nonneg_left (by omega) hsize.le)
  simp only [RiskLib.notional, bind_ok_iff, M.mulPrecision_ok] at hn
  obtain ⟨_, -, ⟨hrange, -, -⟩, -⟩ := hn
  exact ⟨hpos, hle, hrange.2⟩

theorem minToCover_overflows {p : RiskPosition} {mk : RiskMarket} {shortfall n : Int} :
    RevertsOnly Error.Overflow (LiquidationLib.minToCover p mk shortfall n) := by
  simp only [LiquidationLib.minToCover, revertsOnly_ite, revertsOnly_bind, revertsOnly_pure, M.add_overflows,
    M.mulDiv_overflows (by decide : (10000 : Int) ≠ 0), implies_true, and_true, true_and]
  exact fun _ freed _ hpos => M.mulDiv_overflows (by omega)

section Bankrupt
variable {before : AccountHealth} (hread : Readable w trader) (hb : accountHealth w trader = .ok before)
  (hequity : before.equity ≤ 0) (hopen : (w.engine.positions (trader, marketId)).size ≠ 0)
include hread hb hequity hopen

/-- Where equity is not positive the smallest close that covers the shortfall is the whole position. -/
theorem minToCover_whole {shortfall n q : Int}
    (hshort : shortfall = before.maintenanceMarginRequired - before.equity)
    (hn : RiskLib.notional (positionInput w trader marketId).size (marketInput w marketId).oraclePrice = .ok n)
    (hq : LiquidationLib.minToCover (positionInput w trader marketId) (marketInput w marketId) shortfall n = .ok q) :
    (positionInput w trader marketId).size ≤ q := by
  have hprice := (hread.priced marketId hopen).2
  have hsize : 0 < (positionInput w trader marketId).size := abs_pos.2 hopen
  obtain ⟨-, -, rfl⟩ := notional_ok hn
  unfold LiquidationLib.minToCover at hq
  simp only at hq
  split at hq
  · rw [pure_ok] at hq
    exact hq.le
  · simp only [bind_ok_iff, M.mulDiv_ok] at hq
    obtain ⟨freed, ⟨-, hfreed⟩, hq⟩ := hq
    split at hq
    · rw [pure_ok] at hq
      exact hq.le
    · rename_i hrate hpos
      simp only [bind_ok_iff, M.mulDiv_ok, M.add_ok] at hq
      obtain ⟨_, ⟨-, rfl⟩, -, rfl⟩ := hq
      have hsingle : maintenanceOf w trader marketId ≤ before.maintenanceMarginRequired := by
        rw [(accountHealth_ok hread.listed hb).maintenance]
        exact Finset.single_le_sum (fun m _ => maintenanceOf_nonneg hread.priced m) (Finset.mem_univ marketId)
      -- The shortfall is at least the maintenance of the whole position, which is what closing it frees.
      have hle : freed ≤ maintenanceOf w trader marketId := by
        have hn0 : 0 ≤ ((positionInput w trader marketId).size * (marketInput w marketId).oraclePrice).tdiv PRECISION :=
          Int.tdiv_nonneg (mul_nonneg hsize.le hprice.le) (by decide)
        rw [← hfreed, maintenanceOf, marginOf, M.BPS_DENOMINATOR]
        change _ ≤ (((positionInput w trader marketId).size * (marketInput w marketId).oraclePrice).tdiv PRECISION *
          ((marketInput w marketId).maintenanceMarginBps : Int)).tdiv 10000
        rw [Int.tdiv_eq_ediv_of_nonneg (mul_nonneg hn0 (by omega)),
          Int.tdiv_eq_ediv_of_nonneg (mul_nonneg hn0 (by omega))]
        exact Int.ediv_le_ediv (by decide) (mul_le_mul_of_nonneg_left (by omega) hn0)
      have hcover : freed ≤ shortfall := by omega
      rw [Int.tdiv_eq_ediv_of_nonneg (mul_nonneg hsize.le (by omega))]
      have hdiv : (positionInput w trader marketId).size ≤
          (positionInput w trader marketId).size * shortfall / freed :=
        (Int.le_ediv_iff_mul_le (by omega)).2 (mul_le_mul_of_nonneg_left hcover hsize.le)
      omega

/-- **Where equity is not positive the plan reverts only on overflow.** -/
theorem planLiquidationSize_overflows (hliq : before.liquidatable = true) {bps : Nat} (hbps : 0 < bps ∧ bps ≤ 10000)
    (hfee : (w.risk.markets marketId).liquidationFeeBps ≤ 10000) :
    RevertsOnly Error.Overflow (planLiquidationSize w trader marketId bps) := by
  rw [planLiquidationSize, revertsOnly_bind]
  refine ⟨hread.riskInputs, ?_⟩
  rintro ⟨c, p, mk⟩ hinputs
  have hhealth : RiskLib.accountHealth c p mk = .ok before := by
    rw [accountHealth, hinputs] at hb
    exact hb
  obtain ⟨-, rfl, rfl, -⟩ := riskInputs_ok hinputs
  have hmem := hread.listed.mem.2 hopen
  have hprice : 0 < (marketInput w marketId).oraclePrice := (hread.priced marketId hopen).2
  have hsize : 0 < (positionInput w trader marketId).size := abs_pos.2 hopen
  have hfee' : (marketInput w marketId).liquidationFeeBps ≤ 10000 := hfee
  simp only [LiquidationLib.planLiquidation, hhealth, ok_bind, find_mem (w := w) hmem,
    show (positionInput w trader marketId).marketId = marketId from rfl, findMarket_mem hmem, revertsOnly_bind,
    revertsOnly_revertIf, revertsOnly_pure, M.sub_overflows, RiskLib.notional_overflows hsize hprice,
    M.mulDiv_overflows (by decide : (10000 : Int) ≠ 0), minToCover_overflows, M.applyBps_overflows hfee', implies_true,
    and_true, true_and]
  refine ⟨fun hno => absurd hliq (by rw [hno]; exact Bool.false_ne_true), fun _ _ => ⟨fun hbad => by omega,
    fun _ _ shortfall hshortfall n hn cap _ q hq => ?_⟩⟩
  have hwhole := minToCover_whole hread hb hequity hopen ((M.sub_ok _ _ _).1 hshortfall).2.symm hn hq
  rw [if_pos hwhole]
  exact RiskLib.notional_overflows hsize hprice

/-- **Where equity is not positive the whole position is closed**, if the caller lets it. -/
theorem closeSizeFor_bankrupt (hliq : before.liquidatable = true) (hv : Liquidation.Valid w.liquidation)
    (hfee : (w.risk.markets marketId).liquidationFeeBps ≤ 10000) :
    RevertsOnly Error.Overflow (Liquidation.closeSizeFor w trader marketId
        |(w.engine.positions (trader, marketId)).size|.toNat) ∧
      ∀ r, Liquidation.closeSizeFor w trader marketId |(w.engine.positions (trader, marketId)).size|.toNat = .ok r →
        r = (|(w.engine.positions (trader, marketId)).size|, before) := by
  obtain ⟨hmin, hmax⟩ := hv.partialBps
  have hbps : 0 < w.liquidation.partialLiquidationBps := lt_of_lt_of_le (by decide) hmin
  have hplan := planLiquidationSize_overflows hread hb hequity hopen hliq ⟨hbps, hmax⟩ hfee
  have hpos : 0 < |(w.engine.positions (trader, marketId)).size| := abs_pos.2 hopen
  -- The caller's bound is the position's size, which is in range.
  have hclosed : ∀ planned h, planLiquidationSize w trader marketId w.liquidation.partialLiquidationBps =
      .ok (planned, h) → h = before ∧ M.min (M.abs (w.engine.positions (trader, marketId)).size)
        (M.toBoundedInt |(w.engine.positions (trader, marketId)).size|.toNat) =
          |(w.engine.positions (trader, marketId)).size| := by
    intro planned h hok
    have hrange := (planLiquidationSize_bounds hmax hok).2.2
    refine ⟨ok_unique (planLiquidationSize_ok hok).1 hb, ?_⟩
    rw [M.min_eq, M.abs_eq, M.toBoundedInt, if_neg (by omega)]
    omega
  constructor
  · simp only [Liquidation.closeSizeFor, revertsOnly_bind, revertsOnly_revertIf, revertsOnly_pure, implies_true, and_true]
    refine ⟨fun h0 => absurd h0 hopen, fun _ _ => ⟨hplan, ?_⟩⟩
    rintro ⟨planned, h⟩ hok
    obtain ⟨rfl, hall⟩ := hclosed planned h hok
    rw [if_pos hequity, hall]
    exact fun hbad => absurd hpos (not_lt.2 hbad)
  · intro r hr
    simp only [Liquidation.closeSizeFor, bind_ok_iff, pure_ok] at hr
    obtain ⟨_, -, ⟨planned, h⟩, hok, _, -, rfl⟩ := hr
    obtain ⟨rfl, hall⟩ := hclosed planned h hok
    rw [if_pos hequity, hall]

end Bankrupt

/-- **A planned close, or a part of it the caller asks for, is what is closed** while equity is positive. -/
theorem closeSizeFor_planned {before : AccountHealth} {planned q : Int} (hbps : w.liquidation.partialLiquidationBps ≤ 10000)
    (hplan : planLiquidationSize w trader marketId w.liquidation.partialLiquidationBps = .ok (planned, before))
    (hequity : 0 < before.equity) (hq : 0 < q) (hle : q ≤ planned) :
    Liquidation.closeSizeFor w trader marketId q.toNat = .ok (q, before) := by
  obtain ⟨hpos, hsize, hrange⟩ := planLiquidationSize_bounds hbps hplan
  have hopen : (w.engine.positions (trader, marketId)).size ≠ 0 := abs_pos.1 (by omega)
  have hbound : M.min planned (M.toBoundedInt q.toNat) = q := by
    rw [M.min_eq, M.toBoundedInt, if_neg (by omega)]
    omega
  simp only [Liquidation.closeSizeFor, revertIf_of_not hopen, hplan, ok_bind, if_neg (not_le.2 hequity), hbound,
    revertIf_of_not (not_le.2 hq)]
  rfl

theorem Priced.congr {a : Address} (h : Priced w a) (hframes : Frames w w')
    (hopen : ∀ m, (w'.engine.positions (a, m)).size ≠ 0 → (w.engine.positions (a, m)).size ≠ 0) : Priced w' a := by
  intro m hm
  obtain ⟨hprice, hpos⟩ := h m (hopen m hm)
  have hindex : indexAt w' m = indexAt w m := by rw [indexAt, indexAt, hframes.risk, hframes.oracle]
  rw [hindex]
  refine ⟨?_, hpos⟩
  rw [← hprice]
  simp only [indexPrice, indexOf, RiskParams.market, OracleAdapter.getPrice, hframes.risk, hframes.oracle,
    hframes.timestamp]

end Engine

/-! ## The liquidation -/

/-- **A liquidation of a part of an open position that improves the account reverts only on overflow.** -/
theorem liquidate_overflows {env : Env} (hr : Reachable (machine D env) w) (hrun : Running w) {before : AccountHealth}
    (hb : Engine.accountHealth w trader = .ok before) {msg : Msg} (hsender : trader ≠ msg.sender)
    (hins : trader ≠ D.insurance) (hengine : trader ≠ D.engine) {maxSize : Nat} (hmax : maxSize ≠ 0) {q : Int}
    (hq : 0 < q ∧ q ≤ |(w.engine.positions (trader, marketId)).size|)
    (hclose : RevertsOnly Error.Overflow (Liquidation.closeSizeFor w trader marketId maxSize))
    (hclosed : ∀ r, Liquidation.closeSizeFor w trader marketId maxSize = .ok r → r = (q, before))
    (himproved : ∀ w₁ realized w₂ after,
      Engine.liquidationTransfer D w D.liquidation trader D.insurance marketId q (Engine.indexAt w marketId) =
        .ok (w₁, realized) →
      Liquidation.payPenalty D w₁ msg trader marketId q (Engine.indexAt w marketId) = .ok w₂ →
      Engine.accountHealth w₂ trader = .ok after → Liquidation.improved before after = true) :
    RevertsOnly Error.Overflow (Liquidation.liquidate D w msg trader marketId maxSize) := by
  have hl := reachable_listed hr
  have hv := reachable_valid hr
  have hplaced := reachable_placed hr
  have hready : Ready D w := ⟨hrun, hv.wired⟩
  have hpriced := (Engine.accountHealth_ok hl hb).priced
  have hopen : (w.engine.positions (trader, marketId)).size ≠ 0 := abs_pos.1 (by omega)
  obtain ⟨hindex, hprice⟩ := hpriced marketId hopen
  have hlisted := hplaced.market _ _ hopen
  obtain ⟨-, -, ⟨hfee, -⟩, -⟩ := hv.markets marketId hlisted
  simp only [Liquidation.liquidate, revertsOnly_bind, revertsOnly_revertIf]
  refine ⟨whenNotPaused_overflows hrun.liquidation, fun _ _ => ⟨fun h => absurd h hsender, fun _ _ =>
    ⟨fun h => absurd h hins, fun _ _ => ⟨fun h => absurd h hmax, fun _ _ => ⟨hclose, ?_⟩⟩⟩⟩⟩
  rintro ⟨closeSize, before'⟩ hok
  obtain ⟨rfl, rfl⟩ := Prod.mk.inj (hclosed _ hok)
  rw [hindex]
  refine ⟨revertsOnly_ok _, fun price hp => ?_⟩
  obtain rfl := Except.ok.inj hp
  refine ⟨Engine.liquidationTransfer_overflows hready hl hlisted hopen hq.1 hq.2 hprice, ?_⟩
  rintro ⟨w₁, realized⟩ h₁
  obtain ⟨-, hmoves, -⟩ := liquidationTransfer_clears h₁
  obtain ⟨-, hleft, hothers, -⟩ := Engine.liquidationTransfer_trader (reachable_sided hr) hengine hins h₁
  have hready₁ := hmoves.toFrames.ready hready
  refine ⟨payPenalty_overflows hready₁ (by rw [hmoves.risk]; exact hlisted)
    (by rw [hmoves.risk]; exact hfee.trans (by decide))
    (by rw [hmoves.liquidation]; exact hv.liquidation.reward.2.trans (by decide)) hq.1 hprice, fun w₂ h₂ => ?_⟩
  obtain ⟨hcharges, hsame, -⟩ := payPenalty_clears h₂
  have hframes : Frames w w₂ := hmoves.toFrames.trans hcharges.toFrames
  -- The account can be read again: what is open now was open before.
  have hplaced₂ : Engine.Placed D w₂ := (Engine.liquidationTransfer_placed hplaced h₁).of_engine hsame hcharges.risk
  have hpriced₂ : Engine.Priced w₂ trader := by
    refine hpriced.congr hframes fun m hm => ?_
    by_cases h : m = marketId
    · rw [h]
      exact hopen
    · rwa [hsame, hothers m h] at hm
  have hread₂ := Engine.Readable.of_placed hplaced₂ (by rw [hframes.risk]; exact hv.markets) hpriced₂ hins
  refine ⟨hread₂.accountHealth, fun after h₃ => ⟨fun hworse => ?_, fun _ _ => ?_⟩⟩
  · exact absurd hworse (by rw [himproved w₁ realized w₂ after h₁ h₂ h₃]; exact Bool.false_ne_true.symm)
  · rw [revertsOnly_ite]
    refine ⟨fun hbad => ?_, fun _ => revertsOnly_pure _⟩
    rw [revertsOnly_bind]
    refine ⟨settleBadDebt_overflows (hcharges.toFrames.ready hready₁) hins hbad.1, ?_⟩
    rintro ⟨w₃, covered⟩ -
    exact revertsOnly_pure _

end Kryon
