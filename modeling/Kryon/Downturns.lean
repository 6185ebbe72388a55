import Kryon.Custody
import Kryon.Orders
import Kryon.Withdrawals
/-!
# Downturns — what can make an account liquidatable

An account is under water at the stored prices when its equity is below a positive maintenance margin.  A fill or a
withdrawal of its own is checked, everyone else's calls leave its positions and never lower its balance, and only an
account that is under water is liquidated.  So an account that is not under water stays so until a price is pushed, a
market's parameters are set, a market's funding is updated, or the account itself is deleveraged.
-/
namespace Kryon

open Program Transition
open Clearing (State.Kept)
open OrderGateway (Settled)

variable {D : Deployment} {env : Env} {w w' : World} {msg : Msg} {a : Address} {l : Label} {ls : List Label}

/-! ## Margins at the stored prices -/

namespace Engine

def initialRequired (w : World) (a : Address) : Int := ∑ m, initialOf w a m

def maintenanceRequired (w : World) (a : Address) : Int := ∑ m, maintenanceOf w a m

def Underwater (w : World) (a : Address) : Prop := 0 < maintenanceRequired w a ∧ equityOf w a < maintenanceRequired w a

theorem IsHealth.underwater {h : AccountHealth} (hh : IsHealth w a h) : h.liquidatable = true ↔ Underwater w a := by
  rw [hh.liquidatable, hh.maintenance, hh.equity]
  rfl

theorem marginOf_mono {p : Position} {x : Int} {b c : Nat} (hx : 0 ≤ x) (h : b ≤ c) : marginOf p x b ≤ marginOf p x c := by
  have hn : 0 ≤ notionalOf p x := Int.tdiv_nonneg (mul_nonneg (abs_nonneg _) hx) (by decide)
  have hle : notionalOf p x * b ≤ notionalOf p x * c := mul_le_mul_of_nonneg_left (by exact_mod_cast h) hn
  unfold marginOf
  rw [Int.tdiv_eq_ediv_of_nonneg (mul_nonneg hn (Int.natCast_nonneg _)),
    Int.tdiv_eq_ediv_of_nonneg (mul_nonneg hn (Int.natCast_nonneg _))]
  exact Int.ediv_le_ediv (by decide) hle

/-- **A priced account's maintenance margin is at most its initial margin.** -/
theorem maintenance_le_initial (hv : Valid D w) (hp : Priced w a) : maintenanceRequired w a ≤ initialRequired w a := by
  refine Finset.sum_le_sum fun m _ => ?_
  by_cases hopen : (w.engine.positions (a, m)).size = 0
  · rw [maintenanceOf_flat hopen, initialOf_flat hopen]
  · obtain ⟨hprice, hpos⟩ := hp m hopen
    have hmarket := (indexPrice_ok hprice).1
    simp only [RiskParams.market, bind_ok_iff, revertIf_ok, pure_ok, exists_const, Bool.not_eq_false] at hmarket
    exact marginOf_mono hpos.le (hv.markets m hmarket.1).maintenanceMargin.2

/-- An account with its initial margin is not under water. -/
theorem IsHealth.of_initial {h : AccountHealth} (hv : Valid D w) (hh : IsHealth w a h)
    (hm : h.initialMarginRequired ≤ h.equity) : ¬ Underwater w a := by
  have hle : maintenanceRequired w a ≤ initialRequired w a := maintenance_le_initial hv hh.priced
  rw [hh.initial, hh.equity] at hm
  rintro ⟨-, hlt⟩
  exact absurd (hle.trans hm) (not_le.2 hlt)

/-! ## The market data a health reads -/

/-- The same prices, margin rates and funding indexes. -/
structure SameMarkets (w w' : World) : Prop where
  index : ∀ m, indexAt w' m = indexAt w m
  initial : ∀ m, (w'.risk.markets m).initialMarginBps = (w.risk.markets m).initialMarginBps
  maintenance : ∀ m, (w'.risk.markets m).maintenanceMarginBps = (w.risk.markets m).maintenanceMarginBps
  long : ∀ m, (w'.engine.funding m).longIndex = (w.engine.funding m).longIndex
  short : ∀ m, (w'.engine.funding m).shortIndex = (w.engine.funding m).shortIndex

theorem SameMarkets.refl (w : World) : SameMarkets w w := ⟨fun _ => rfl, fun _ => rfl, fun _ => rfl, fun _ => rfl, fun _ => rfl⟩

theorem SameMarkets.trans {w₁ w₂ w₃ : World} (h : SameMarkets w₁ w₂) (h' : SameMarkets w₂ w₃) : SameMarkets w₁ w₃ where
  index m := (h'.index m).trans (h.index m)
  initial m := (h'.initial m).trans (h.initial m)
  maintenance m := (h'.maintenance m).trans (h.maintenance m)
  long m := (h'.long m).trans (h.long m)
  short m := (h'.short m).trans (h.short m)

theorem SameMarkets.of_eq (hr : w'.risk = w.risk) (ho : w'.oracle = w.oracle) (hf : w'.engine.funding = w.engine.funding) :
    SameMarkets w w' :=
  ⟨fun m => by rw [indexAt, indexAt, hr, ho], fun m => by rw [hr], fun m => by rw [hr], fun m => by rw [hf],
    fun m => by rw [hf]⟩

theorem SameMarkets.markedPnl (h : SameMarkets w w') {m : MarketId}
    (hp : w'.engine.positions (a, m) = w.engine.positions (a, m)) : markedPnl w' a m = markedPnl w a m := by
  simp only [Engine.markedPnl, fundingPnlOf, sideIndex, h.index, h.long, h.short, hp]

/-- **Over the same markets, an account that kept its positions and lost no balance lost no equity**, and needs the same
margins. -/
theorem SameMarkets.kept (h : SameMarkets w w') (hk : (books D w).Kept a (books D w')) :
    equityOf w a ≤ equityOf w' a ∧ maintenanceRequired w' a = maintenanceRequired w a := by
  have hp := kept_positions hk
  refine ⟨?_, Finset.sum_congr rfl fun m _ => ?_⟩
  · have hsum : ∑ m, Engine.markedPnl w' a m = ∑ m, Engine.markedPnl w a m :=
      Finset.sum_congr rfl fun m _ => h.markedPnl (hp m)
    rw [equityOf, equityOf, hsum]
    exact add_le_add_left hk.bal _
  · rw [maintenanceOf, maintenanceOf, hp, h.index, h.maintenance]

theorem SameMarkets.not_underwater (h : SameMarkets w w') (hk : (books D w).Kept a (books D w'))
    (hu : ¬ Underwater w a) : ¬ Underwater w' a := by
  obtain ⟨heq, hmaint⟩ := h.kept hk
  rintro ⟨hpos, hlt⟩
  rw [hmaint] at hpos hlt
  exact hu ⟨hpos, heq.trans_lt hlt⟩

end Engine

open Engine (SameMarkets Underwater)

/-! ## Which steps change the market data -/

/-- The calls that push prices, set a market's parameters or update its funding. -/
def Tx.reprices : Tx → Bool
  | .config (.pushPrices _ _ _ _) | .config (.setMarket _ _) | .updateFunding _ => true
  | _ => false

theorem execConfig_sameMarkets (c : Config) (hc : (Tx.config c).reprices = false) :
    Returns (SameMarkets w) (execConfig D w msg c) := by
  cases c with
  | pushPrices ids prices confidences publishTime => exact absurd hc (by simp [Tx.reprices])
  | setMarket marketId params => exact absurd hc (by simp [Tx.reprices])
  | setMarketActive marketId active =>
    intro w' h
    simp only [execConfig, RiskParams.setMarketActive, RiskParams.market, bind_ok_iff, World.onlyRole_ok, revertIf_ok,
      pure_ok, exists_const] at h
    obtain ⟨-, _, ⟨-, rfl⟩, rfl⟩ := h
    have hfield : ∀ {β : Type} (g : MarketParams → β), (∀ p : MarketParams, g { p with active := active } = g p) →
        ∀ m, g (Function.update w.risk.markets marketId { w.risk.markets marketId with active := active } m) =
          g (w.risk.markets m) := by
      intro β g hg m
      by_cases hm : m = marketId
      · rw [hm, Function.update_self, hg]
      · rw [Function.update_of_ne hm]
    refine ⟨fun m => ?_, hfield MarketParams.initialMarginBps fun _ => rfl,
      hfield MarketParams.maintenanceMarginBps fun _ => rfl, fun _ => rfl, fun _ => rfl⟩
    exact congrArg (fun id => (w.oracle.snapshots id).price) (hfield MarketParams.oracleId (fun _ => rfl) m)
  | _ =>
    simp only [execConfig, KryonUpgradeable.pause, KryonUpgradeable.pauseIndefinitely, KryonUpgradeable.unpause,
      KryonUpgradeable.changeRole, KryonUpgradeable.renounceRole, Vault.setDepositCaps, Vault.setCapExempt,
      Vault.setCollateral, RiskParams.setFundingConfig, RiskParams.setOiPolicy, RiskParams.setMaxTotalOiPolicyBps,
      OracleAdapter.setPublishers, OracleAdapter.setFeed, OracleAdapter.setReferenceFeed, FeeRouter.setMarketFees,
      FeeRouter.defineTier, FeeRouter.setAccountTier, FeeRouter.setMinNetRate, FeeRouter.setRebatesEnabled,
      FeeRouter.setReferralsEnabled, FeeRouter.setReferrerApproved, FeeRouter.setSplit, FeeRouter.setLiquidationSplit,
      FeeRouter.setTreasury, Insurance.setUnwindLimits, Liquidation.setParams]
    repeat' first
      | exact Returns.pure ⟨fun _ => rfl, fun _ => rfl, fun _ => rfl, fun _ => rfl, fun _ => rfl⟩
      | refine Returns.bind fun _ => ?_

theorem sameMarkets_booked {trader : Address} {marketId : MarketId} {delta v : Int} {x : Clearing.Terms} :
    SameMarkets w (Engine.booked D w trader marketId delta v x) := .of_eq rfl rfl rfl

theorem sameMarkets_marked (marketId : MarketId) (t : Nat) (st : MarkState) :
    SameMarkets w (Engine.marked w marketId t st) := by
  have hfield : ∀ {β : Type} (g : FundingState → β), (∀ f : FundingState, g { f with lastUpdate := t } = g f) →
      ∀ m, g (Function.update w.engine.funding marketId { w.engine.funding marketId with lastUpdate := t } m) =
        g (w.engine.funding m) := by
    intro β g hg m
    by_cases hm : m = marketId
    · rw [hm, Function.update_self, hg]
    · rw [Function.update_of_ne hm]
  exact ⟨fun _ => rfl, fun _ => rfl, fun _ => rfl, hfield FundingState.longIndex fun _ => rfl,
    hfield FundingState.shortIndex fun _ => rfl⟩

theorem applyFill_sameMarkets {caller trader : Address} {marketId : MarketId} {isBuy : Bool}
    {size price notional : Int} {reduceOnly increased : Bool}
    (h : Engine.applyFill D w caller trader marketId isBuy size price notional reduceOnly = .ok (w', increased)) :
    SameMarkets w w' := by
  obtain ⟨-, -, t, st, x, -, rfl, -⟩ := Engine.applyFill_ok h
  exact (sameMarkets_marked marketId t st).trans sameMarkets_booked

theorem Frames.sameMarkets (h : Frames w w') (he : w'.engine.funding = w.engine.funding) : SameMarkets w w' :=
  .of_eq h.risk h.oracle he

theorem settleOne_sameMarkets {wallet : Address → Bytes32 → Bytes → Bool} {f : Fill} {st : OrderGateway.Settlement}
    (h : OrderGateway.settleOne D env w msg wallet f = .ok (w', st)) : SameMarkets w w' := by
  obtain ⟨orderState, unwound, happly⟩ := settleOne_progress h
  obtain ⟨w₁, mi, w₂, ti, hmaker, htaker, hcharge⟩ := apply_ok happly
  obtain ⟨hcharges, hengine, -⟩ := chargeFill_clears hcharge
  have hprogress : SameMarkets w (withProgress w orderState unwound) := .of_eq rfl rfl rfl
  exact ((hprogress.trans (applyFill_sameMarkets hmaker)).trans (applyFill_sameMarkets htaker)).trans
    (hcharges.toFrames.sameMarkets (by rw [hengine]))

theorem liquidate_sameMarkets {trader : Address} {marketId : MarketId} {maxSize : Nat}
    (h : Liquidation.liquidate D w msg trader marketId maxSize = .ok w') : SameMarkets w w' := by
  refine (liquidate_clears h).2.2.1.toFrames.sameMarkets ?_
  obtain ⟨-, -, _, _, _, w₁, _, w₂, _, -, -, htransfer, hpay, -, -, hw⟩ := liquidate_ok h
  obtain ⟨d, v, w₃, x, y, -, -, -, -, rfl, -, rfl, -⟩ := Engine.liquidationTransfer_ok htransfer
  have hpaid := (payPenalty_clears hpay).2.1
  rcases hw with ⟨rfl, -⟩ | rfl
  · rw [(coveredWorld_clears (D := D) trader).2.1, hpaid]
    rfl
  · rw [hpaid]
    rfl

theorem adl_sameMarkets {counterparty : Address} {marketId : MarketId} {maxSize : Nat}
    (h : Liquidation.adl D w counterparty marketId maxSize = .ok w') : SameMarkets w w' := by
  refine (adl_clears h).2.2.1.toFrames.sameMarkets ?_
  obtain ⟨_, _, _, w₁, _, haircut, -, htransfer, -, -, -, rfl⟩ := Liquidation.adl_ok h
  obtain ⟨d, v, w₃, x, y, -, -, -, rfl, -, -, rfl, -⟩ := Engine.adlTransfer_ok htransfer
  rfl

/-- **Only price pushes, parameters and funding updates change the market data.** -/
theorem step_sameMarkets (h : (machine D env).step w l w') (hl : l.call.tx.reprices = false) : SameMarkets w w' := by
  obtain ⟨hadm, hexec⟩ := h
  obtain ⟨⟨msg, tx⟩, settled⟩ := l
  have heffect := exec_effect hadm hexec
  cases htx : tx.touchesEngine with
  | false =>
    have hengine := exec_engine htx hadm hexec
    cases heffect with
    | configured h => exact execConfig_sameMarkets _ hl w' h
    | charged _ h => exact h.toFrames.sameMarkets (by rw [hengine])
    | settled h => exact absurd htx (by simp [Tx.touchesEngine])
    | cancelled _ _ _ _ => exact .of_eq rfl rfl rfl
    | staked _ h _ => exact .of_eq h.risk h.oracle (by rw [hengine])
    | outside _ _ => exact .of_eq rfl rfl rfl
  | true =>
    have hran := exec_ran hexec
    cases hran with
    | updateFunding _ => exact absurd hl (by simp [Tx.reprices])
    | settleFillsSigned h =>
      exact h.chain.relates SameMarkets .refl (fun _ _ _ => .trans) fun _ _ _ _ _ => settleOne_sameMarkets
    | liquidate h => exact liquidate_sameMarkets h
    | adl h => exact adl_sameMarkets h
    | cancel _ _ _ _ _ | pool _ _ | claimNothing _ => exact .of_eq rfl rfl rfl
    | _ => exact absurd htx (by simp [Tx.touchesEngine])

/-! ## The checks -/

namespace Engine

theorem maintenanceRequired_flat (hl : Listed w.engine) (hb : w.engine.marketBitmap a = 0) : maintenanceRequired w a = 0 := by
  refine Finset.sum_eq_zero fun m _ => maintenanceOf_flat ?_
  by_contra hopen
  have hmem := (Bitmap.mem_marketIds (hl.word a) m).1 (hl.mem.2 hopen)
  rw [hb, Nat.zero_testBit] at hmem
  exact absurd hmem Bool.false_ne_true

/-- What a margin check that passes found. -/
structure Margined (w : World) (a : Address) (increased : Bool) : Prop where
  health : ∃ h, accountHealth w a = .ok h ∧ (increased = true → h.initialMarginRequired ≤ h.equity) ∧
    (w.engine.marketBitmap a = 0 → 0 ≤ h.equity) ∧ h.liquidatable = false

theorem requireMargin_ok (hv : Valid D w) (hl : Listed w.engine) {increased : Bool} {u : Unit} (ha : a ≠ D.insurance)
    (h : requireMargin D w a increased = .ok u) : Margined w a increased := by
  rw [requireMargin, if_neg (fun hc => ha hc.1)] at h
  simp only [bind_ok_iff] at h
  obtain ⟨health, hh, h⟩ := h
  have his := accountHealth_ok hl hh
  have hnone : w.engine.marketBitmap a = 0 → health.maintenanceMarginRequired = 0 := fun hb => by
    rw [his.maintenance]
    exact maintenanceRequired_flat hl hb
  have hinit : 0 ≤ health.initialMarginRequired := by
    rw [his.initial]
    refine Finset.sum_nonneg fun m _ => ?_
    by_cases hopen : (w.engine.positions (a, m)).size = 0
    · rw [initialOf_flat hopen]
    · exact Int.tdiv_nonneg (mul_nonneg (Int.tdiv_nonneg (mul_nonneg (abs_nonneg _) (his.priced m hopen).2.le) (by decide))
        (Int.natCast_nonneg _)) (by decide)
  refine ⟨health, hh, ?_⟩
  split at h
  · rw [revertIf_ok, not_lt] at h
    refine ⟨fun _ => h, fun _ => hinit.trans h, ?_⟩
    rw [← Bool.not_eq_true, his.underwater]
    exact his.of_initial hv h
  · rename_i hinc
    refine ⟨fun ht => absurd ht hinc, ?_⟩
    split at h
    · rename_i hb
      rw [revertIf_ok, not_lt] at h
      refine ⟨fun _ => h, ?_⟩
      rw [← Bool.not_eq_true, his.liquidatable, hnone hb]
      exact fun hlt => absurd hlt.1 (lt_irrefl 0)
    · rename_i hb
      rw [revertIf_ok, Bool.not_eq_true] at h
      exact ⟨fun h0 => absurd h0 hb, h⟩

theorem Margined.not_underwater (hl : Listed w.engine) {increased : Bool} (h : Margined w a increased) :
    ¬ Underwater w a := by
  obtain ⟨health, hh, -, -, hliq⟩ := h
  rw [← (accountHealth_ok hl hh).underwater, hliq]
  exact Bool.false_ne_true

/-- **A trade that reports no more exposure reduced the position** within its size. -/
theorem trade_reduces {trader : Address} {marketId : MarketId} {m : MarketParams} {delta price notional : Int}
    {reduceOnly enforceLimits : Bool} {realized : Int} (hd : delta ≠ 0)
    (h : trade D w trader marketId m delta price notional reduceOnly enforceLimits = .ok (w', false, realized)) :
    Reduces (w.engine.positions (trader, marketId)) delta := by
  simp only [trade, bind_ok_iff, pure_ok, Prod.mk.injEq] at h
  obtain ⟨⟨w₁, p₁⟩, hfund, leg, hleg, _, -, w₂, -, w₃, -, _, -, -, hinc, -⟩ := h
  obtain ⟨payment, rfl, rfl, -⟩ := settleFunding_ok hfund
  have hsize := settledPosition_size (w.engine.funding marketId) (w.engine.positions (trader, marketId))
  have hlast := settledPosition_last (w.engine.funding marketId) (p := w.engine.positions (trader, marketId))
  rw [← hsize] at hlast
  split at hleg
  · rename_i hside
    have hgrew := (increase_ok hd hside (fun h0 => by rw [hlast h0, hsize]; rfl) hleg).2.2
    rw [hgrew] at hinc
    exact absurd hinc (by simp)
  · rename_i hside
    rw [not_or] at hside
    have hbooked : LegBooked _ trader marketId _ delta notional leg ∧ _ ∧ _ :=
      reduce_ok hd hside.1 hside.2 (by rw [hlast hside.1, hsize]; rfl) hleg
    have hgrew := hbooked.2.2
    rw [hinc, eq_comm, decide_eq_false_iff_not, not_lt, hsize] at hgrew
    rw [hsize] at hside
    exact ⟨hside.1, hside.2, hgrew⟩

end Engine

open Engine (Margined Reduces fillDelta)

theorem applyFill_reduces {caller trader : Address} {marketId : MarketId} {isBuy : Bool} {size price notional : Int}
    {reduceOnly increased : Bool}
    (h : Engine.applyFill D w caller trader marketId isBuy size price notional reduceOnly = .ok (w', increased)) :
    increased = true ∨ Reduces (w.engine.positions (trader, marketId)) (fillDelta isBuy size) := by
  simp only [Engine.applyFill, bind_ok_iff, revertIf_ok, World.whenNotPaused_ok, pure_ok, Prod.mk.injEq,
    exists_const] at h
  obtain ⟨-, -, hpos, m, -, index, -, maxDelta, -, lo, -, -, hi, -, -, w₁, hmark, ⟨w₂, inc, r⟩, htrade, rfl, rfl⟩ := h
  obtain ⟨t, st, rfl⟩ := Engine.recordMark_ok hmark
  have hd : fillDelta isBuy size ≠ 0 := by
    unfold fillDelta
    split <;> omega
  cases inc with
  | true => exact Or.inl rfl
  | false =>
    have hred : Reduces ((Engine.marked w marketId t st).engine.positions (trader, marketId)) (fillDelta isBuy size) :=
      Engine.trade_reduces hd htrade
    exact Or.inr hred

theorem applyFill_positions_of_ne {caller trader b : Address} {marketId : MarketId} {isBuy : Bool}
    {size price notional : Int} {reduceOnly increased : Bool} (hb : b ≠ trader) (m : MarketId)
    (h : Engine.applyFill D w caller trader marketId isBuy size price notional reduceOnly = .ok (w', increased)) :
    w'.engine.positions (b, m) = w.engine.positions (b, m) := by
  obtain ⟨-, -, t, st, x, -, rfl, -⟩ := Engine.applyFill_ok h
  exact Function.update_of_ne (fun he => hb (Prod.ext_iff.1 he).1) _ _

/-- **The margin checks of an applied fill**: each side's, in the world that both trades and the fees have led to. -/
theorem apply_margins {f : Fill} {notional : Int} {q : FeeRouter.Quote} (hdistinct : f.maker.owner ≠ f.taker.owner)
    (h : OrderGateway.apply D w f notional = .ok (w', q)) :
    ∀ o ∈ [f.maker, f.taker], ∃ increased, Engine.requireMargin D w' o.owner increased = .ok () ∧
      (increased = true ∨ Reduces (w.engine.positions (o.owner, o.marketId)) (fillDelta o.isLong f.size)) := by
  simp only [OrderGateway.apply, bind_ok_iff, M.toInt_ok, pure_ok, Prod.mk.injEq] at h
  obtain ⟨_, ⟨-, rfl⟩, _, ⟨-, rfl⟩, ⟨w₁, mi⟩, hmaker, ⟨w₂, ti⟩, htaker, ⟨w₃, q'⟩, -, _, hm, _, ht, rfl, rfl⟩ := h
  simp only [List.forall_mem_cons]
  refine ⟨⟨mi, hm, applyFill_reduces hmaker⟩, ⟨ti, ht, ?_⟩, fun _ h => absurd h List.not_mem_nil⟩
  have hred := applyFill_reduces htaker
  rwa [applyFill_positions_of_ne hdistinct.symm _ hmaker] at hred

/-! ## Fills -/

theorem settleOne_margins {wallet : Address → Bytes32 → Bytes → Bool} {x : Settled} (hv : Valid D x.before)
    (hl : Engine.Listed x.before.engine)
    (h : OrderGateway.settleOne D env x.before msg wallet x.settlement.fill = .ok (x.after, x.settlement)) :
    ∀ o ∈ x.orders, o.owner ≠ D.insurance → ∃ increased, Margined x.after o.owner increased ∧
      (increased = true ∨
        Reduces (x.before.engine.positions (o.owner, o.marketId)) (fillDelta o.isLong x.settlement.fill.size)) := by
  intro o ho hins
  obtain ⟨orderState, unwound, happly⟩ := settleOne_progress h
  obtain ⟨w₁, w₂, w₃, hs⟩ := settleOne_ok h
  have hcharges : Charges (withProgress x.before orderState unwound) x.after := (apply_clears hs.market hs.opposite happly).1
  have hv' : Valid D x.after := hcharges.sameConfig.valid
    ((⟨rfl, rfl, rfl, rfl⟩ : SameConfig x.before (withProgress x.before orderState unwound)).valid hv)
  obtain ⟨increased, hcheck, hred⟩ := apply_margins hs.distinct happly o ho
  exact ⟨increased, Engine.requireMargin_ok hv' (hcharges.listed hl) hins hcheck, hred⟩

/-- **Every fill is margined.** Whatever fills a run settles, each side other than the backstop is left with a health that
was computed and is not liquidatable, and, unless the fill only reduced its position, with its initial margin; a side that
is left flat owes nothing. -/
theorem fills_margined {w₀ : World} (h₀ : Reachable (machine D env) w₀) (h : Run (machine D env) w₀ ls w) :
    ∀ x ∈ history ls, ∀ o ∈ x.orders, o.owner ≠ D.insurance →
      ∃ health, Engine.accountHealth x.after o.owner = .ok health ∧ health.liquidatable = false ∧
        (x.after.engine.marketBitmap o.owner = 0 → 0 ≤ health.equity) ∧
        (health.initialMarginRequired ≤ health.equity ∨
          Reduces (x.before.engine.positions (o.owner, o.marketId)) (fillDelta o.isLong x.settlement.fill.size)) := by
  intro x hx o ho hins
  obtain ⟨pre, post, hsplit⟩ := List.append_of_mem hx
  obtain ⟨ls₁, w₁, earlier, msg, wallet, hrun, -, hchain, hone⟩ := history_split h hsplit
  have hr := h₀.of_run hrun
  have hv := (chain_sameConfig hchain).valid (reachable_valid hr)
  have hl := chain_listed hchain (reachable_listed hr)
  obtain ⟨increased, ⟨health, hh, hinitial, hflat, hliq⟩, hred⟩ := settleOne_margins hv hl hone o ho hins
  exact ⟨health, hh, hliq, hflat, hred.imp hinitial id⟩

theorem fills_margined_trading : ∃ x ∈ history (trace Sample.deployment Sample.env Sample.genesis Sample.trading),
    ∃ o ∈ x.orders, ∃ health, Engine.accountHealth x.after o.owner = .ok health ∧ health.liquidatable = false ∧
        (x.after.engine.marketBitmap o.owner = 0 → 0 ≤ health.equity) ∧
        (health.initialMarginRequired ≤ health.equity ∨
          Reduces (x.before.engine.positions (o.owner, o.marketId)) (fillDelta o.isLong x.settlement.fill.size)) := by
  have hrun := Sample.outcome_run Sample.trading (by decide +kernel)
  have hsome : (history (trace Sample.deployment Sample.env Sample.genesis Sample.trading)).any
      (fun x => decide (x.settlement.fill.maker.owner ≠ Sample.deployment.insurance)) = true := by decide +kernel
  obtain ⟨x, hx, hne⟩ := List.any_eq_true.1 hsome
  exact ⟨x, hx, x.settlement.fill.maker, List.mem_cons_self,
    fills_margined ⟨Sample.genesis, [], Sample.genesis_ok, Run.nil⟩ hrun x hx _ List.mem_cons_self (of_decide_eq_true hne)⟩

/-! ## Steps and runs -/

/-- **A batch leaves none of its traders under water**, whichever fills follow a trader's own. -/
theorem chain_not_underwater {settled : List Settled} (hv : Valid D w) (hl : Engine.Listed w.engine)
    (ha : ¬ D.IsProtocol a) (hu : ¬ Underwater w a) (h : Chain D env msg w settled w') : ¬ Underwater w' a := by
  have hins : a ≠ D.insurance := fun he => ha ⟨.insurance, he.symm⟩
  induction h with
  | nil w => exact hu
  | @cons x settled w' wallet hone _ ih =>
    have hone' : Chain D env msg x.before [x] x.after := .cons wallet hone (.nil _)
    refine ih ((chain_sameConfig hone').valid hv) (chain_listed hone' hl) ?_
    by_cases hside : ∃ o ∈ x.orders, o.owner = a
    · obtain ⟨o, ho, rfl⟩ := hside
      obtain ⟨increased, hm, -⟩ := settleOne_margins hv hl hone o ho hins
      exact hm.not_underwater (chain_listed hone' hl)
    · refine (settleOne_sameMarkets hone).not_underwater (chain_kept ha hone' fun y hy p hp howner => hside ?_) hu
      rw [List.mem_singleton.1 hy] at hp
      simp only [Settled.signed, List.mem_cons, List.not_mem_nil, or_false] at hp
      rcases hp with rfl | rfl
      · exact ⟨_, List.mem_cons_self, howner⟩
      · exact ⟨_, List.mem_cons_of_mem _ List.mem_cons_self, howner⟩

/-- **A withdrawal leaves its account with its initial margin.** -/
theorem withdrawTo_not_underwater {recipient : Address} {amount : Nat} (hv : Valid D w) (hl : Engine.Listed w.engine)
    (h : Vault.withdrawTo D w msg a recipient amount = .ok w') : ¬ Underwater w' a := by
  obtain ⟨hmoves, hengine, -, -⟩ := withdrawTo_clears h
  obtain ⟨x, health, -, -, hcheck, hpaid⟩ := Vault.withdrawTo_ok h
  simp only [Engine.validateWithdrawal, RiskLib.validateWithdrawal, bind_ok_iff, revertIf_ok, not_lt, pure_ok,
    exists_const] at hcheck
  obtain ⟨⟨c, ps, ms⟩, hinputs, -, before, hbefore, after, hafter, hmargin, -⟩ := hcheck
  have hhealth : Engine.accountHealth w a = .ok before := by
    rw [Engine.accountHealth, hinputs]
    exact hbefore
  have his := Engine.accountHealth_ok hl hhealth
  simp only [RiskLib.applyWithdrawal, bind_ok_iff, M.sub_ok, pure_ok] at hafter
  obtain ⟨_, -, _, ⟨-, rfl⟩, _, -, ratio, -, rfl⟩ := hafter
  have hsame := hmoves.toFrames.sameMarkets (by rw [hengine])
  have hpnl : ∑ m, Engine.markedPnl w' a m = ∑ m, Engine.markedPnl w a m :=
    Finset.sum_congr rfl fun m _ => hsame.markedPnl (by rw [hengine])
  have hneed : Engine.maintenanceRequired w' a = Engine.maintenanceRequired w a :=
    Finset.sum_congr rfl fun m _ => by rw [Engine.maintenanceOf, Engine.maintenanceOf, hengine, hsame.index, hsame.maintenance]
  have hle := Engine.maintenance_le_initial hv his.priced
  have hinit : before.initialMarginRequired = Engine.initialRequired w a := his.initial
  have hequity : Engine.equityOf w' a = before.equity - x := by
    rw [his.equity, Engine.equityOf, Engine.equityOf, hpnl, hpaid]
    ring
  rintro ⟨-, hlt⟩
  simp only at hmargin
  omega

/-- **No step but a repricing, or a deleveraging of the account itself, puts an account under water.** -/
theorem step_not_underwater (hr : Reachable (machine D env) w) (ha : ¬ D.IsProtocol a)
    (h : (machine D env).step w l w') (hl : l.call.tx.reprices = false)
    (hadl : ∀ m maxSize, l.call.tx ≠ .adl a m maxSize) (hu : ¬ Underwater w a) : ¬ Underwater w' a := by
  have hv := reachable_valid hr
  have hlisted := reachable_listed hr
  by_cases ht : Touches D env w l a
  · obtain ⟨hadm, hexec⟩ := h
    cases ht with
    | withdraws htx hsender =>
      obtain ⟨⟨msg, tx⟩, settled⟩ := l
      subst htx hsender
      exact withdrawTo_not_underwater hv hlisted (unsettled_ok.1 hexec).1
    | trades htx _ _ _ _ _ =>
      obtain ⟨⟨msg, tx⟩, settled⟩ := l
      subst htx
      have hran := exec_ran hexec
      generalize hfills : Tx.settleFillsSigned _ = tx at hran
      cases hran with
      | settleFillsSigned h => exact chain_not_underwater hv hlisted ha hu h.chain
      | cancel htx _ _ _ _ | pool htx _ | claimNothing htx =>
        rw [← hfills] at htx
        exact absurd htx (by simp [Tx.cancels, Tx.stakes, Tx.charges])
      | _ => cases hfills
    | liquidated _ hh hliq => exact absurd ((Engine.accountHealth_ok hlisted hh).underwater.1 hliq) hu
    | deleveraged htx _ => exact absurd htx (hadl _ _)
  · exact (step_sameMarkets h hl).not_underwater (step_kept ha h ht) hu

/-- **What makes an account liquidatable.** If an account that is no protocol contract was not liquidatable in a reachable
world, and is later, then the step on the way that put it under water pushed prices, set a market's parameters, updated a
market's funding or deleveraged the account itself: no fill, withdrawal, liquidation, fee or other call of anybody does. -/
theorem liquidatable_causes {w₀ : World} {before after : AccountHealth} (h₀ : Reachable (machine D env) w₀)
    (ha : ¬ D.IsProtocol a) (h : Run (machine D env) w₀ ls w) (hb : Engine.accountHealth w₀ a = .ok before)
    (hsound : before.liquidatable = false) (haft : Engine.accountHealth w a = .ok after)
    (hliq : after.liquidatable = true) :
    ∃ ls₁ u l v ls₂, ls = ls₁ ++ l :: ls₂ ∧ Run (machine D env) w₀ ls₁ u ∧ (machine D env).step u l v ∧
      Run (machine D env) v ls₂ w ∧ ¬ Underwater u a ∧ Underwater v a ∧
      (l.call.tx.reprices = true ∨ ∃ m maxSize, l.call.tx = .adl a m maxSize) := by
  have hstart : ¬ Underwater w₀ a := by
    rw [← (Engine.accountHealth_ok (reachable_listed h₀) hb).underwater, hsound]
    exact Bool.false_ne_true
  have hend : Underwater w a := (Engine.accountHealth_ok (reachable_listed (h₀.of_run h)) haft).underwater.1 hliq
  have hbroken : ¬ (Reachable (machine D env) w ∧ ¬ Underwater w a) := fun hc => hc.2 hend
  obtain ⟨ls₁, u, l, v, ls₂, hls, hbefore, hstep, hafter, hu, hv, hcause⟩ :=
    h.breaks (fun w => Reachable (machine D env) w ∧ ¬ Underwater w a)
      (fun _ l => l.call.tx.reprices = true ∨ ∃ m maxSize, l.call.tx = .adl a m maxSize)
      (fun u l v hn hu hstep => by
        rw [not_or, Bool.not_eq_true] at hn
        exact ⟨hu.1.step hstep, step_not_underwater hu.1 ha hstep hn.1 (fun m s he => hn.2 ⟨m, s, he⟩) hu.2⟩)
      ⟨h₀, hstart⟩ hbroken
  have hsunk : Underwater v a := by
    by_contra hn
    exact hv ⟨hu.1.step hstep, hn⟩
  exact ⟨ls₁, u, l, v, ls₂, hls, hbefore, hstep, hafter, hu.2, hsunk, hcause⟩

/-- A price push puts Alice's long under water. -/
theorem liquidatable_causes_crashing : ∃ ls₁ u l v ls₂,
    trace Sample.deployment Sample.env Sample.genesis Sample.crashing = ls₁ ++ l :: ls₂ ∧
      Run (machine Sample.deployment Sample.env) Sample.genesis ls₁ u ∧
      (machine Sample.deployment Sample.env).step u l v ∧
      Run (machine Sample.deployment Sample.env) v ls₂ (Sample.outcome Sample.crashing) ∧
      ¬ Underwater u Sample.alice ∧ Underwater v Sample.alice ∧
      (l.call.tx.reprices = true ∨ ∃ m maxSize, l.call.tx = .adl Sample.alice m maxSize) := by
  obtain ⟨before, hb, hsound⟩ := ok_of_returnsWith (x := Engine.accountHealth Sample.genesis Sample.alice)
    (P := fun h : AccountHealth => !h.liquidatable) (by decide +kernel)
  obtain ⟨after, haft, hliq⟩ := ok_of_returnsWith (x := Engine.accountHealth (Sample.outcome Sample.crashing) Sample.alice)
    (P := fun h : AccountHealth => h.liquidatable) (by decide +kernel)
  rw [Bool.not_eq_true'] at hsound
  exact liquidatable_causes ⟨Sample.genesis, [], Sample.genesis_ok, Run.nil⟩ (by decide)
    (Sample.outcome_run Sample.crashing (by decide +kernel)) hb hsound haft hliq

end Kryon
