import Kryon.Downturns
/-!
# Exposure — a market's open interest stays within its cap

Only a fill may raise a market's open interest, and a side that grows is checked against the cap once it is booked.  A side
that does not grow, a liquidation and an ADL only move or close what is open.  So as long as no cap is lowered, no run takes
a market past its cap, and a market that was never listed has no open interest at all.
-/
namespace Kryon

open Program Transition
open Engine (Reduces booked fillDelta)

variable {D : Deployment} {env : Env} {w w' : World} {msg : Msg} {l : Label} {ls : List Label}

/-- A market's open interest on both sides. -/
def oiTotal (w : World) (m : MarketId) : Int := (w.engine.openInterest m).long + (w.engine.openInterest m).short

theorem longPart_add_shortPart (x : Int) : Clearing.longPart x + Clearing.shortPart x = |x| := by
  unfold Clearing.longPart Clearing.shortPart
  rcases abs_cases x with ⟨h, h'⟩ | ⟨h, h'⟩ <;> omega

theorem Reduces.abs {p : Position} {delta : Int} (h : Reduces p delta) : |p.size + delta| = |p.size| - |delta| := by
  obtain ⟨hopen, hside, hle⟩ := h
  rw [ne_eq, decide_eq_decide] at hside
  rcases abs_cases p.size with ⟨h1, h1'⟩ | ⟨h1, h1'⟩ <;> rcases abs_cases delta with ⟨h2, h2'⟩ | ⟨h2, h2'⟩ <;>
    rcases abs_cases (p.size + delta) with ⟨h3, h3'⟩ | ⟨h3, h3'⟩ <;> omega

/-! ## Trades -/

theorem oiTotal_booked (trader : Address) (marketId : MarketId) (delta v : Int) (x : Clearing.Terms) :
    oiTotal (booked D w trader marketId delta v x) marketId = oiTotal w marketId +
      (|(w.engine.positions (trader, marketId)).size + delta| - |(w.engine.positions (trader, marketId)).size|) := by
  have hnew := longPart_add_shortPart ((w.engine.positions (trader, marketId)).size + delta)
  have hold := longPart_add_shortPart (w.engine.positions (trader, marketId)).size
  simp only [oiTotal, booked, Engine.nextOpenInterest, Function.update_self]
  omega

theorem oiTotal_booked_of_ne {trader : Address} {marketId m : MarketId} {delta v : Int} {x : Clearing.Terms}
    (hm : m ≠ marketId) : oiTotal (booked D w trader marketId delta v x) m = oiTotal w m := by
  simp only [oiTotal, booked, Function.update_of_ne hm]

/-- **A side that grew was checked against the cap.** -/
theorem trade_checked {trader : Address} {marketId : MarketId} {m : MarketParams} {delta price notional : Int}
    {reduceOnly : Bool} {realized : Int}
    (h : Engine.trade D w trader marketId m delta price notional reduceOnly true = .ok (w', true, realized)) :
    oiTotal w' marketId ≤ m.maxOpenInterest := by
  simp only [Engine.trade, bind_ok_iff, pure_ok, Prod.mk.injEq] at h
  obtain ⟨_, -, leg, -, _, -, w₂, -, w₃, -, _, hcheck, rfl, hinc, -⟩ := h
  rw [if_pos ⟨hinc, trivial⟩] at hcheck
  simp only [Engine.checkOpenInterest, bind_ok_iff, revertIf_ok, gt_iff_lt, not_lt] at hcheck
  obtain ⟨_, hle, -⟩ := hcheck
  exact hle

/-- The cap of every listed market holds, and the others have no open interest. -/
structure OiCapped (w : World) : Prop where
  listed : ∀ m, (w.risk.markets m).listed = true → oiTotal w m ≤ (w.risk.markets m).maxOpenInterest
  unlisted : ∀ m, (w.risk.markets m).listed = false → oiTotal w m = 0

theorem OiCapped.of_eq (hw : OiCapped w) (hr : w'.risk.markets = w.risk.markets)
    (he : w'.engine.openInterest = w.engine.openInterest) : OiCapped w' := by
  have ht : ∀ m, oiTotal w' m = oiTotal w m := fun m => by rw [oiTotal, he, oiTotal]
  exact ⟨fun m hm => by rw [ht, hr]; exact hw.listed m (hr ▸ hm), fun m hm => by rw [ht]; exact hw.unlisted m (hr ▸ hm)⟩

/-- Where one listed market changed, its new total decides. -/
theorem OiCapped.of_market {marketId : MarketId} (hw : OiCapped w) (hr : w'.risk.markets = w.risk.markets)
    (hlisted : (w.risk.markets marketId).listed = true) (hne : ∀ m, m ≠ marketId → oiTotal w' m = oiTotal w m)
    (hle : oiTotal w' marketId ≤ (w.risk.markets marketId).maxOpenInterest) : OiCapped w' := by
  refine ⟨fun m hm => ?_, fun m hm => ?_⟩
  · rw [hr] at hm ⊢
    by_cases hc : m = marketId
    · rw [hc]
      exact hle
    · rw [hne m hc]
      exact hw.listed m hm
  · rw [hr] at hm
    have hc : m ≠ marketId := fun hc => absurd hlisted (by rw [← hc, hm]; exact Bool.false_ne_true)
    rw [hne m hc]
    exact hw.unlisted m hm

/-- **One side of a fill keeps the cap**: it grew and was checked, or it reduced its position. -/
theorem applyFill_capped {caller trader : Address} {marketId : MarketId} {isBuy : Bool} {size price notional : Int}
    {reduceOnly increased : Bool} (hw : OiCapped w)
    (h : Engine.applyFill D w caller trader marketId isBuy size price notional reduceOnly = .ok (w', increased)) :
    OiCapped w' := by
  have hreduces := applyFill_reduces h
  obtain ⟨-, -, t', st', x, -, hbooked, -⟩ := Engine.applyFill_ok h
  simp only [Engine.applyFill, RiskParams.market, bind_ok_iff, revertIf_ok, World.whenNotPaused_ok, pure_ok,
    Prod.mk.injEq, exists_const, Bool.not_eq_false] at h
  obtain ⟨-, -, -, m, ⟨hlisted, rfl⟩, index, -, maxDelta, -, lo, -, -, hi, -, -, w₁, -, ⟨w₂, inc, r⟩, htrade, hworld, rfl⟩ := h
  have hbooked' : w₂ = _ := hworld.trans hbooked
  subst hworld
  have hle : oiTotal w₂ marketId ≤ (w.risk.markets marketId).maxOpenInterest := by
    rcases hreduces with rfl | hred
    · exact trade_checked htrade
    · have habs := Reduces.abs hred
      have hnonneg := abs_nonneg (fillDelta isBuy size)
      have hcap := hw.listed marketId hlisted
      have htotal := oiTotal_booked (D := D) (w := Engine.marked w marketId t' st') trader marketId (fillDelta isBuy size)
        (Engine.signedValue (fillDelta isBuy size) notional) x
      rw [← hbooked'] at htotal
      have hold : oiTotal (Engine.marked w marketId t' st') marketId = oiTotal w marketId := rfl
      have hpos : (Engine.marked w marketId t' st').engine.positions = w.engine.positions := rfl
      rw [hpos, hold, habs] at htotal
      omega
  rw [hbooked'] at hle ⊢
  exact hw.of_market rfl hlisted (fun m hm => oiTotal_booked_of_ne hm) hle

theorem settleOne_capped {wallet : Address → Bytes32 → Bytes → Bool} {f : Fill} {st : OrderGateway.Settlement}
    (hw : OiCapped w) (h : OrderGateway.settleOne D env w msg wallet f = .ok (w', st)) : OiCapped w' := by
  obtain ⟨orderState, unwound, happly⟩ := settleOne_progress h
  obtain ⟨w₁, mi, w₂, ti, hmaker, htaker, hcharge⟩ := apply_ok happly
  obtain ⟨hcharges, hengine, -⟩ := chargeFill_clears hcharge
  have hprogress : OiCapped (withProgress w orderState unwound) := hw.of_eq rfl rfl
  exact (applyFill_capped (applyFill_capped hprogress hmaker) htaker).of_eq (by rw [hcharges.risk]) (by rw [hengine])

/-! ## Liquidations and deleveraging -/

/-- **What leaves one account for another opens at most what it closes.** -/
theorem liquidationTransfer_capped {caller trader receiver : Address} {marketId : MarketId} {size price realized : Int}
    (hw : OiCapped w)
    (h : Engine.liquidationTransfer D w caller trader receiver marketId size price = .ok (w', realized)) : OiCapped w' := by
  obtain ⟨d, v, w₁, x, y, -, -, hred, -, rfl, -, rfl, -⟩ := Engine.liquidationTransfer_ok h
  simp only [Engine.liquidationTransfer, RiskParams.market, bind_ok_iff, revertIf_ok, exists_const,
    Bool.not_eq_false, pure_ok] at h
  obtain ⟨-, _, -, -, -, m, ⟨hlisted, -⟩, -⟩ := h
  have habs := Reduces.abs hred
  have hmoved := abs_add_le ((booked D w trader marketId d v x).engine.positions (receiver, marketId)).size (-d)
  rw [abs_neg] at hmoved
  refine hw.of_market rfl hlisted (fun m hm => ?_) ?_
  · rw [oiTotal_booked_of_ne hm, oiTotal_booked_of_ne hm]
  · have hcap := hw.listed marketId hlisted
    rw [oiTotal_booked, oiTotal_booked]
    omega

theorem adlTransfer_capped {caller backstop counterparty : Address} {marketId : MarketId} {size price realized : Int}
    (hw : OiCapped w)
    (h : Engine.adlTransfer D w caller backstop counterparty marketId size price = .ok (w', realized)) : OiCapped w' := by
  obtain ⟨d, v, w₁, x, y, -, hred, -, rfl, hred', -, rfl, -⟩ := Engine.adlTransfer_ok h
  simp only [Engine.adlTransfer, RiskParams.market, bind_ok_iff, revertIf_ok, exists_const,
    Bool.not_eq_false, pure_ok] at h
  obtain ⟨-, _, -, -, -, -, m, ⟨hlisted, -⟩, -⟩ := h
  have habs := Reduces.abs hred
  have habs' := Reduces.abs hred'
  have hnonneg := abs_nonneg d
  have hnonneg' := abs_nonneg (-d)
  refine hw.of_market rfl hlisted (fun m hm => ?_) ?_
  · rw [oiTotal_booked_of_ne hm, oiTotal_booked_of_ne hm]
  · have hcap := hw.listed marketId hlisted
    rw [oiTotal_booked, oiTotal_booked]
    omega

theorem liquidate_capped {trader : Address} {marketId : MarketId} {maxSize : Nat} (hw : OiCapped w)
    (h : Liquidation.liquidate D w msg trader marketId maxSize = .ok w') : OiCapped w' := by
  have hrisk := (liquidate_clears h).2.2.1.risk
  obtain ⟨-, -, _, _, _, w₁, _, w₂, _, -, -, htransfer, hpay, -, -, hw'⟩ := liquidate_ok h
  have hmoved := liquidationTransfer_capped hw htransfer
  obtain ⟨hcharges, hpaid, -⟩ := payPenalty_clears hpay
  have hclosed : OiCapped w₂ := hmoved.of_eq (by rw [hcharges.risk]) (by rw [hpaid])
  rcases hw' with ⟨rfl, -⟩ | rfl
  · obtain ⟨hmoves, hengine, -⟩ := coveredWorld_clears (D := D) (w := w₂) trader
    exact hclosed.of_eq (by rw [hmoves.risk]) (by rw [hengine])
  · exact hclosed

theorem adl_capped {counterparty : Address} {marketId : MarketId} {maxSize : Nat} (hw : OiCapped w)
    (h : Liquidation.adl D w counterparty marketId maxSize = .ok w') : OiCapped w' := by
  simp only [Liquidation.adl, bind_ok_iff, World.whenNotPaused_ok, revertIf_ok, exists_const] at h
  obtain ⟨-, -, -, shortfall, -, -, -, -, price, -, n, -, -, paying, -, -, ⟨w₁, realized⟩, htransfer, h⟩ := h
  have hmoved := adlTransfer_capped hw htransfer
  rw [transferIf_ok h]
  exact hmoved.of_eq rfl rfl

/-! ## Over a run -/

/-- The calls that lower no market's cap. -/
def KeepsOiCaps (w : World) (call : Call) : Prop :=
  match call.tx with
  | .config (.setMarket marketId params) =>
    (w.risk.markets marketId).listed = true → (w.risk.markets marketId).maxOpenInterest ≤ params.maxOpenInterest
  | _ => True

/-- The same, as a test. -/
def keepsOiCaps (w : World) (call : Call) : Bool :=
  match call.tx with
  | .config (.setMarket marketId params) =>
    !(w.risk.markets marketId).listed || decide ((w.risk.markets marketId).maxOpenInterest ≤ params.maxOpenInterest)
  | _ => true

theorem keepsOiCaps_iff {call : Call} : keepsOiCaps w call = true ↔ KeepsOiCaps w call := by
  unfold keepsOiCaps KeepsOiCaps
  split
  · rw [Bool.or_eq_true, decide_eq_true_eq, Bool.not_eq_true', ← Bool.not_eq_true, imp_iff_not_or]
  · exact iff_of_true rfl trivial

instance (w : World) (call : Call) : Decidable (KeepsOiCaps w call) := decidable_of_iff _ keepsOiCaps_iff

theorem setMarket_capped {marketId : MarketId} {params : MarketParams} (hw : OiCapped w)
    (hkeeps : (w.risk.markets marketId).listed = true → (w.risk.markets marketId).maxOpenInterest ≤ params.maxOpenInterest)
    (h : RiskParams.setMarket w msg marketId params = .ok w') : OiCapped w' := by
  simp only [RiskParams.setMarket, RiskParams.validateMarket, RiskParams.checkBounds, bind_ok_iff, World.onlyRole_ok,
    revertIf_ok, pure_ok, exists_const, not_or, not_lt] at h
  obtain ⟨-, -, ⟨-, -, -, -, -, -, -, implied, -, -, ⟨hmin, -⟩, -⟩, ids, -, rfl⟩ := h
  refine ⟨fun m hm => ?_, fun m hm => ?_⟩
  · by_cases hc : m = marketId
    · subst hc
      simp only [Function.update_self] at hm ⊢
      cases hl : (w.risk.markets m).listed with
      | true => exact (hw.listed m hl).trans (hkeeps hl)
      | false =>
        have h0 : oiTotal w m = 0 := hw.unlisted m hl
        have hpos : (0 : Int) ≤ params.maxOpenInterest := by omega
        exact h0.le.trans hpos
    · simp only [Function.update_of_ne hc] at hm ⊢
      exact hw.listed m hm
  · by_cases hc : m = marketId
    · subst hc
      simp at hm
    · simp only [Function.update_of_ne hc] at hm
      exact hw.unlisted m hm

theorem execConfig_capped {c : Config} (hw : OiCapped w) (hkeeps : KeepsOiCaps w ⟨msg, .config c⟩) :
    Returns OiCapped (execConfig D w msg c) := by
  cases c with
  | setMarket marketId params => exact fun w' h => setMarket_capped hw hkeeps h
  | setMarketActive marketId active =>
    intro w' h
    simp only [execConfig, RiskParams.setMarketActive, RiskParams.market, bind_ok_iff, World.onlyRole_ok, revertIf_ok,
      pure_ok, exists_const] at h
    obtain ⟨-, _, ⟨-, rfl⟩, rfl⟩ := h
    refine ⟨fun m hm => ?_, fun m hm => ?_⟩
    · by_cases hc : m = marketId
      · subst hc
        simp only [Function.update_self] at hm ⊢
        exact hw.listed m hm
      · simp only [Function.update_of_ne hc] at hm ⊢
        exact hw.listed m hm
    · by_cases hc : m = marketId
      · subst hc
        simp only [Function.update_self] at hm
        exact hw.unlisted m hm
      · simp only [Function.update_of_ne hc] at hm
        exact hw.unlisted m hm
  | _ =>
    simp only [execConfig, KryonUpgradeable.pause, KryonUpgradeable.pauseIndefinitely, KryonUpgradeable.unpause,
      KryonUpgradeable.changeRole, KryonUpgradeable.renounceRole, Vault.setDepositCaps, Vault.setCapExempt,
      Vault.setCollateral, RiskParams.setFundingConfig, RiskParams.setOiPolicy, RiskParams.setMaxTotalOiPolicyBps,
      OracleAdapter.setPublishers, OracleAdapter.setFeed, OracleAdapter.setReferenceFeed, OracleAdapter.pushPrices,
      FeeRouter.setMarketFees, FeeRouter.defineTier, FeeRouter.setAccountTier, FeeRouter.setMinNetRate,
      FeeRouter.setRebatesEnabled, FeeRouter.setReferralsEnabled, FeeRouter.setReferrerApproved, FeeRouter.setSplit,
      FeeRouter.setLiquidationSplit, FeeRouter.setTreasury, Insurance.setUnwindLimits, Liquidation.setParams]
    repeat' first
      | exact Returns.pure (hw.of_eq rfl rfl)
      | refine Returns.bind fun _ => ?_

/-- **A step that lowers no cap keeps every market within its cap.** -/
theorem step_oiCapped (hw : OiCapped w) (hkeeps : KeepsOiCaps w l.call) (h : (machine D env).step w l w') : OiCapped w' := by
  obtain ⟨hadm, hexec⟩ := h
  obtain ⟨⟨msg, tx⟩, settled⟩ := l
  have heffect := exec_effect hadm hexec
  cases htx : tx.touchesEngine with
  | false =>
    have hengine := exec_engine htx hadm hexec
    cases heffect with
    | configured h => exact execConfig_capped hw hkeeps w' h
    | charged _ h => exact hw.of_eq (by rw [h.risk]) (by rw [hengine])
    | settled h => exact absurd htx (by simp [Tx.touchesEngine])
    | cancelled _ _ _ _ => exact hw.of_eq rfl rfl
    | staked _ h _ => exact hw.of_eq (by rw [h.risk]; rfl) (by rw [hengine])
    | outside _ _ => exact hw.of_eq rfl rfl
  | true =>
    have hran := exec_ran hexec
    cases hran with
    | updateFunding h =>
      simp only [Engine.updateFunding, bind_ok_iff, World.onlyRole_ok, World.whenNotPaused_ok, M.bound128_ok, pure_ok,
        exists_const] at h
      obtain ⟨-, -, m, -, ⟨w₁, mark⟩, htwap, premium, -, next, -, _, -, _, -, _, -, rfl⟩ := h
      obtain ⟨marks, rfl⟩ := consumeTwap_ok htwap
      exact hw.of_eq rfl rfl
    | settleFillsSigned h =>
      exact h.chain.relates (fun u v => OiCapped u → OiCapped v) (fun _ => id) (fun _ _ _ h h' hu => h' (h hu))
        (fun _ _ _ _ _ hone hu => settleOne_capped hu hone) hw
    | liquidate h => exact liquidate_capped hw h
    | adl h => exact adl_capped hw h
    | cancel _ _ _ _ _ | pool _ _ | claimNothing _ => exact hw.of_eq rfl rfl
    | _ => exact absurd htx (by simp [Tx.touchesEngine])

theorem Genesis.oiCapped (h : Genesis D w) : OiCapped w := by
  have hzero : ∀ m, oiTotal w m = 0 := fun m => by rw [oiTotal, h.engine]; rfl
  refine ⟨fun m hm => ?_, fun m _ => hzero m⟩
  rw [h.risk.1 m] at hm
  exact absurd hm Bool.false_ne_true

/-- **No run takes a market past its open-interest cap.**  Along every run from the deployment in which no listed market's
cap is lowered, whatever is filled, liquidated and deleveraged in whatever order, the longs and shorts of every listed
market stay within its cap and the unlisted ones have none. -/
theorem open_interest_capped (hw : Genesis D w) (h : Run ((machine D env).restrict fun w l => KeepsOiCaps w l.call) w ls w') :
    (∀ m, (w'.risk.markets m).listed = true →
        (w'.engine.openInterest m).long + (w'.engine.openInterest m).short ≤ (w'.risk.markets m).maxOpenInterest) ∧
      ∀ m, (w'.risk.markets m).listed = false →
        (w'.engine.openInterest m).long + (w'.engine.openInterest m).short = 0 := by
  have hcapped := h.preserves OiCapped (fun u l v hu hl => by
    obtain ⟨hkeeps, hstep⟩ := hl
    exact step_oiCapped hu hkeeps hstep) hw.oiCapped
  exact ⟨hcapped.listed, hcapped.unlisted⟩

/-- Alice's long and Bob's short stand within the cap after Carol liquidates a part of the long. -/
theorem open_interest_capped_liquidating :
    ((Sample.outcome Sample.liquidating).engine.openInterest 1).long +
        ((Sample.outcome Sample.liquidating).engine.openInterest 1).short ≤
      ((Sample.outcome Sample.liquidating).risk.markets 1).maxOpenInterest :=
  (open_interest_capped Sample.genesis_ok
    (Sample.outcome_run_restrict KeepsOiCaps Sample.liquidating (by decide +kernel) (by decide +kernel))).1 1
    (by decide +kernel)

end Kryon
