import Kryon.Books
import Kryon.Lib.Reverts
/-!
# PauseReverts — a liquidation reverts on a pause only where a contract is paused

Of the contracts that a liquidation calls, Liquidation, the engine, the vault and Insurance check that they are not
paused.  No other check of the whole call reverts with a pause error, and no step of it sets a pause, so a liquidation
that reverts with one was paused when it started (`liquidate_reverts`).
-/
namespace Kryon

open Program

/-- Any error but a pause. -/
def Error.Unpaused (e : Error) : Prop := e ≠ .enforcedPause ∧ e ≠ .executionPaused

instance (e : Error) : Decidable e.Unpaused := inferInstanceAs (Decidable (_ ∧ _))

/-- None of the contracts that a liquidation calls is paused. -/
structure Running (w : World) : Prop where
  engine : w.paused .engine = false
  liquidation : w.paused .liquidation = false
  insurance : w.paused .insurance = false
  vault : w.paused .vault = false

theorem Running.congr {w w' : World} (h : Running w) (hp : w'.paused = w.paused) : Running w' := by
  obtain ⟨h1, h2, h3, h4⟩ := h
  constructor <;> rwa [hp]

theorem Frames.paused {w w' : World} (h : Frames w w') : w'.paused = w.paused := by
  funext c
  rw [World.paused, World.paused, h.pauses, h.timestamp]

theorem whenNotPaused_reverts {w : World} {c : Contract} (h : w.paused c = false) :
    RevertsOnly Error.Unpaused (w.whenNotPaused c) := by
  simp [World.whenNotPaused, h]

@[simp] theorem onlyRole_reverts (w : World) (c : Contract) (r : Role) (a : Address) :
    RevertsOnly Error.Unpaused (w.onlyRole c r a) := by
  simp [World.onlyRole, Error.Unpaused]

/-! ## Arithmetic -/

namespace M

@[simp] theorem bound128_reverts (v : Int) : RevertsOnly Error.Unpaused (bound128 v) := by
  simp [bound128, Error.Unpaused]

@[simp] theorem add_reverts (a b : Int) : RevertsOnly Error.Unpaused (add a b) := by simp [add]

@[simp] theorem sub_reverts (a b : Int) : RevertsOnly Error.Unpaused (sub a b) := by simp [sub]

@[simp] theorem mulDiv_reverts (a b d : Int) : RevertsOnly Error.Unpaused (mulDiv a b d) := by
  simp [mulDiv, Error.Unpaused]

@[simp] theorem mulPrecision_reverts (a b : Int) : RevertsOnly Error.Unpaused (mulPrecision a b) := by
  simp [mulPrecision]

@[simp] theorem divPrecision_reverts (a b : Int) : RevertsOnly Error.Unpaused (divPrecision a b) := by
  simp [divPrecision]

@[simp] theorem mulPrecisionUp_reverts (a b : Int) : RevertsOnly Error.Unpaused (mulPrecisionUp a b) := by
  simp [mulPrecisionUp, Error.Unpaused]

@[simp] theorem applyBps_reverts (a : Int) (bps : Nat) : RevertsOnly Error.Unpaused (applyBps a bps) := by
  simp [applyBps, Error.Unpaused]

end M

/-! ## Health and plan -/

namespace RiskLib

@[simp] theorem notional_reverts (size price : Int) : RevertsOnly Error.Unpaused (notional size price) := by
  simp [notional, Error.Unpaused]

@[simp] theorem findMarket_reverts (markets : List RiskMarket) (m : MarketId) :
    RevertsOnly Error.Unpaused (findMarket markets m) := by
  unfold findMarket
  split <;> simp [Error.Unpaused]

@[simp] theorem signedPositionPnl_reverts (p : RiskPosition) (price : Int) :
    RevertsOnly Error.Unpaused (signedPositionPnl p price) := by
  simp [signedPositionPnl, Error.Unpaused]

@[simp] theorem fundingPnl_reverts (p : RiskPosition) (index : Int) : RevertsOnly Error.Unpaused (fundingPnl p index) := by
  simp [fundingPnl]

@[simp] theorem addPosition_reverts (markets : List RiskMarket) (t : Totals) (e : RiskPosition × Nat) :
    RevertsOnly Error.Unpaused (addPosition markets t e) := by
  simp [addPosition, Error.Unpaused]

@[simp] theorem addCollateral_reverts (total : Int) (c : RiskCollateral) :
    RevertsOnly Error.Unpaused (addCollateral total c) := by
  simp [addCollateral, collateralValueAfterHaircut]

@[simp] theorem addEquity_reverts (t : Int × Int) (e : RiskPosition × Int) :
    RevertsOnly Error.Unpaused (addEquity t e) := by
  simp [addEquity]

@[simp] theorem addCrossMaintenance_reverts (markets : List RiskMarket) (t : Int) (p : RiskPosition) :
    RevertsOnly Error.Unpaused (addCrossMaintenance markets t p) := by
  simp [addCrossMaintenance]

@[simp] theorem accountHealth_reverts (c : List RiskCollateral) (p : List RiskPosition) (mk : List RiskMarket) :
    RevertsOnly Error.Unpaused (accountHealth c p mk) := by
  simp [accountHealth, marginRatioOf, revertsOnly_foldlM]

end RiskLib

@[simp] theorem LiquidationLib.planLiquidation_reverts (c : List RiskCollateral) (p : List RiskPosition)
    (mk : List RiskMarket) (id bps : Nat) :
    RevertsOnly Error.Unpaused (LiquidationLib.planLiquidation c p mk id bps) := by
  have hfind : RevertsOnly Error.Unpaused (LiquidationLib.find p id) := by
    unfold LiquidationLib.find
    split <;> simp [Error.Unpaused]
  have hmin : ∀ position market shortfall notional,
      RevertsOnly Error.Unpaused (LiquidationLib.minToCover position market shortfall notional) := by
    simp [LiquidationLib.minToCover]
  simp [LiquidationLib.planLiquidation, hfind, hmin, Error.Unpaused]

@[simp] theorem RiskParams.market_reverts (w : World) (m : MarketId) :
    RevertsOnly Error.Unpaused (RiskParams.market w m) := by
  simp [RiskParams.market, Error.Unpaused]

@[simp] theorem OracleAdapter.getPrice_reverts (w : World) (id maxAge maxConfidenceBps : Nat) :
    RevertsOnly Error.Unpaused (OracleAdapter.getPrice w id maxAge maxConfidenceBps) := by
  simp [OracleAdapter.getPrice, OracleAdapter.validate, Error.Unpaused]

namespace Engine

@[simp] theorem indexOf_reverts (w : World) (m : MarketParams) : RevertsOnly Error.Unpaused (indexOf w m) := by
  simp [indexOf]

@[simp] theorem indexPrice_reverts (w : World) (m : MarketId) : RevertsOnly Error.Unpaused (indexPrice w m) := by
  simp [indexPrice]

@[simp] theorem riskInputs_reverts (w : World) (a : Address) : RevertsOnly Error.Unpaused (riskInputs w a) := by
  have hone : ∀ id, RevertsOnly Error.Unpaused (riskInput w a id) := by
    simp [riskInput]
  simp [riskInputs, revertsOnly_mapM _ fun id _ => hone id]

@[simp] theorem accountHealth_reverts (w : World) (a : Address) : RevertsOnly Error.Unpaused (accountHealth w a) := by
  simp [accountHealth]

@[simp] theorem planLiquidationSize_reverts (w : World) (a : Address) (m : MarketId) (bps : Nat) :
    RevertsOnly Error.Unpaused (planLiquidationSize w a m bps) := by
  simp [planLiquidationSize]

end Engine

/-! ## Money -/

variable {D : Deployment} {w w' : World}

theorem transferInternal_reverts (hrun : Running w) (caller src dst : Address) (amount : Int) :
    RevertsOnly Error.Unpaused (Vault.transferInternal w caller src dst amount) := by
  simp [Vault.transferInternal, whenNotPaused_reverts hrun.vault, Error.Unpaused]

theorem transferInternal_paused {caller src dst : Address} {amount : Int}
    (h : Vault.transferInternal w caller src dst amount = .ok w') : w'.paused = w.paused := by
  rw [(Vault.transferInternal_ok h).2]
  rfl

theorem applyPnl_reverts (hrun : Running w) (caller account : Address) (amount : Int) :
    RevertsOnly Error.Unpaused (Vault.applyPnl D w caller account amount) := by
  simp [Vault.applyPnl, Vault.move, whenNotPaused_reverts hrun.vault, Error.Unpaused]

/-! ## Trades -/

namespace Engine

theorem settleFunding_reverts (hrun : Running w) (trader : Address) (marketId : MarketId) (p : Position) :
    RevertsOnly Error.Unpaused (settleFunding D w trader marketId p) := by
  simp [settleFunding, transferInternal_reverts hrun]

@[simp] theorem openSide_reverts (w : World) (marketId : MarketId) (m : MarketParams) (p : Position)
    (delta notional : Int) (enforceLimits : Bool) :
    RevertsOnly Error.Unpaused (openSide w marketId m p delta notional enforceLimits) := by
  simp [openSide, changeOpenInterest, Error.Unpaused]

@[simp] theorem increase_reverts (w : World) (trader : Address) (marketId : MarketId) (m : MarketParams) (p : Position)
    (delta notional : Int) (reduceOnly enforceLimits : Bool) :
    RevertsOnly Error.Unpaused (increase w trader marketId m p delta notional reduceOnly enforceLimits) := by
  simp [increase, addMarket, Error.Unpaused]

@[simp] theorem reduce_reverts (w : World) (marketId : MarketId) (m : MarketParams) (p : Position)
    (delta price notional : Int) (reduceOnly enforceLimits : Bool) :
    RevertsOnly Error.Unpaused (reduce w marketId m p delta price notional reduceOnly enforceLimits) := by
  simp [reduce, changeOpenInterest, Error.Unpaused]

@[simp] theorem storePosition_reverts (w : World) (trader : Address) (marketId : MarketId) (p : Position) :
    RevertsOnly Error.Unpaused (storePosition w trader marketId p) := by
  simp [storePosition]

@[simp] theorem checkOpenInterest_reverts (w : World) (marketId : MarketId) (m : MarketParams) (price : Int) :
    RevertsOnly Error.Unpaused (checkOpenInterest D w marketId m price) := by
  simp [checkOpenInterest, Error.Unpaused]

theorem trade_reverts (hrun : Running w) {trader : Address} {marketId : MarketId} {m : MarketParams}
    {delta price notional : Int} {reduceOnly enforceLimits : Bool} (hd : delta ≠ 0) :
    RevertsOnly Error.Unpaused (trade D w trader marketId m delta price notional reduceOnly enforceLimits) := by
  rw [trade, revertsOnly_bind]
  refine ⟨settleFunding_reverts hrun trader marketId _, ?_⟩
  rintro ⟨w₁, p₁⟩ hfund
  obtain ⟨payment, rfl, rfl, -⟩ := settleFunding_ok hfund
  simp only [revertsOnly_bind]
  refine ⟨by simp, fun leg hleg => ⟨M.add_reverts _ _, fun basis _ => ⟨storePosition_reverts _ _ _ _,
    fun w₂ hstore => ⟨?_, fun w₃ _ => ⟨by simp, by simp⟩⟩⟩⟩⟩
  have hleg : LegBooked (w.withBalances (Book.transfer w.vault.balances trader D.engine payment)) trader marketId
      (settledPosition (w.engine.funding marketId) (w.engine.positions (trader, marketId))) delta notional leg :=
    (leg_ok hd hleg).1
  have hpaused : w₂.paused = w.paused := by
    rw [storePosition_ok hstore, hleg.world]
    rfl
  simp [applyPnl_reverts (hrun.congr hpaused)]

theorem liquidationTransfer_reverts (hrun : Running w) (caller trader receiver : Address) (marketId : MarketId)
    (size price : Int) :
    RevertsOnly Error.Unpaused (liquidationTransfer D w caller trader receiver marketId size price) := by
  simp only [liquidationTransfer, revertsOnly_bind, revertsOnly_revertIf, revertIf_ok, not_or, not_le]
  refine ⟨by simp [Error.Unpaused], fun _ _ => ⟨whenNotPaused_reverts hrun.engine, fun _ _ =>
    ⟨by simp [Error.Unpaused], fun _ hopen => ⟨by simp [Error.Unpaused], fun _ hsize => ⟨RiskParams.market_reverts _ _,
      fun m _ => ⟨M.mulPrecision_reverts _ _, fun n _ => ?_⟩⟩⟩⟩⟩⟩
  have hd : (if (w.engine.positions (trader, marketId)).size > 0 then -size else size) ≠ 0 := by
    split <;> omega
  generalize (if (w.engine.positions (trader, marketId)).size > 0 then -size else size) = delta at hd ⊢
  refine ⟨trade_reverts hrun hd, ?_⟩
  rintro ⟨w₁, _, _⟩ htrade
  obtain ⟨x, hx, rfl, -⟩ := trade_ok hd htrade
  have hrun₁ := hrun.congr (moves_booked (D := D) (signedValue delta n) hx).toFrames.paused
  simp [trade_reverts hrun₁ (neg_ne_zero.2 hd)]

end Engine

/-! ## Liquidations -/

theorem payPenalty_reverts (hrun : Running w) (msg : Msg) (trader : Address) (marketId : MarketId)
    (closeSize price : Int) :
    RevertsOnly Error.Unpaused (Liquidation.payPenalty D w msg trader marketId closeSize price) := by
  simp only [Liquidation.payPenalty, revertsOnly_bind]
  refine ⟨RiskParams.market_reverts _ _, fun m _ => ⟨RiskLib.notional_reverts _ _, fun n _ => ⟨M.applyBps_reverts _ _,
    fun penalty _ => ⟨M.applyBps_reverts _ _, fun cap _ => ⟨transferInternal_reverts hrun _ _ _ _, fun w₁ h₁ => ?_⟩⟩⟩⟩⟩
  have hrun₁ := hrun.congr (transferInternal_paused h₁)
  simp only [revertsOnly_ite, revertsOnly_bind, revertsOnly_pure, implies_true, and_true]
  refine fun _ => ⟨transferInternal_reverts hrun₁ _ _ _ _, fun w₂ h₂ => ?_⟩
  have hrun₂ := hrun₁.congr (transferInternal_paused h₂)
  simp only [FeeRouter.accrueLiquidationFee, revertsOnly_bind, revertsOnly_ite, revertsOnly_revertIf, revertsOnly_pure]
  refine ⟨onlyRole_reverts _ _ _ _, fun _ _ => ⟨by simp [Error.Unpaused], fun _ _ => ⟨by simp, fun _ =>
    ⟨M.mulDiv_reverts _ _ _, fun share _ => ⟨fun _ => ?_, by simp⟩⟩⟩⟩⟩
  refine transferInternal_reverts ?_ _ _ _ _
  exact hrun₂.congr rfl

theorem payPenalty_vault {msg : Msg} {trader : Address} {marketId : MarketId} {closeSize price : Int}
    (h : Liquidation.payPenalty D w msg trader marketId closeSize price = .ok w') : w.paused .vault = false := by
  simp only [Liquidation.payPenalty, bind_ok_iff] at h
  obtain ⟨m, -, n, -, penalty, -, cap, -, w₁, htransfer, -⟩ := h
  simp only [Vault.transferInternal, bind_ok_iff, World.onlyRole_ok, World.whenNotPaused_ok, exists_const] at htransfer
  exact htransfer.2.1

theorem settleBadDebt_reverts (hrun : Running w) (trader : Address) :
    RevertsOnly Error.Unpaused (Insurance.settleBadDebt D w trader) := by
  simp [Insurance.settleBadDebt, whenNotPaused_reverts hrun.insurance, transferInternal_reverts hrun, Error.Unpaused]

/-- **A liquidation that reverts on a pause found one of the contracts it calls paused.** -/
theorem liquidate_reverts (hrun : Running w) (msg : Msg) (trader : Address) (marketId : MarketId) (maxSize : Nat) :
    RevertsOnly Error.Unpaused (Liquidation.liquidate D w msg trader marketId maxSize) := by
  simp only [Liquidation.liquidate, revertsOnly_bind, revertsOnly_revertIf]
  refine ⟨whenNotPaused_reverts hrun.liquidation, fun _ _ => ⟨by simp [Error.Unpaused], fun _ _ =>
    ⟨by simp [Error.Unpaused], fun _ _ => ⟨by simp [Error.Unpaused], fun _ _ => ⟨?_, ?_⟩⟩⟩⟩⟩
  · simp [Liquidation.closeSizeFor, Error.Unpaused]
  rintro ⟨closeSize, before⟩ -
  refine ⟨Engine.indexPrice_reverts _ _, fun price _ => ⟨Engine.liquidationTransfer_reverts hrun _ _ _ _ _ _, ?_⟩⟩
  rintro ⟨w₁, realized⟩ h₁
  have hrun₁ := hrun.congr (liquidationTransfer_clears h₁).2.1.toFrames.paused
  refine ⟨payPenalty_reverts hrun₁ _ _ _ _ _, fun w₂ h₂ => ?_⟩
  have hrun₂ := hrun₁.congr (payPenalty_clears h₂).1.toFrames.paused
  refine ⟨Engine.accountHealth_reverts _ _, fun after _ => ⟨by simp [Error.Unpaused], fun _ _ => ?_⟩⟩
  simp [settleBadDebt_reverts hrun₂]

theorem liquidate_vault {msg : Msg} {trader : Address} {marketId : MarketId} {maxSize : Nat}
    (h : Liquidation.liquidate D w msg trader marketId maxSize = .ok w') : w.paused .vault = false := by
  obtain ⟨-, -, _, _, _, w₁, _, _, _, -, -, htransfer, hpay, -⟩ := liquidate_ok h
  have hvault := payPenalty_vault hpay
  rwa [(liquidationTransfer_clears htransfer).2.1.toFrames.paused] at hvault

theorem liquidate_paused {msg : Msg} {trader : Address} {marketId : MarketId} {maxSize : Nat}
    (h : Liquidation.liquidate D w msg trader marketId maxSize = .ok w') : w'.paused = w.paused :=
  (liquidate_clears h).2.2.1.toFrames.paused

end Kryon
