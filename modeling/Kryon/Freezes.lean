import Kryon.Authority
import Kryon.PauseReverts
import Kryon.Shares
/-!
# Freezes — what stands still while a contract is paused

Every program that moves a ledger balance asks the vault first, every program that moves a position asks the engine, and
so on; none of them unpauses anything.  So over any run that finds a contract paused at each of its steps, what that
contract guards is at the end what it was at the start, while the rest of the protocol goes on.
-/
namespace Kryon

open Program Transition
open OrderGateway (Settled)

variable {D : Deployment} {env : Env} {w w' : World} {msg : Msg} {l : Label} {ls : List Label}

/-! ## A paused vault -/

/-- The ledger and the counters of the vault. -/
structure SameFunds (w w' : World) : Prop where
  balances : w'.vault.balances = w.vault.balances
  totalLedger : w'.vault.totalLedger = w.vault.totalLedger
  totalDeposited : w'.vault.totalDeposited = w.vault.totalDeposited
  netDeposited : w'.vault.netDeposited = w.vault.netDeposited

theorem SameFunds.of_vault (h : w'.vault = w.vault) : SameFunds w w' := ⟨by rw [h], by rw [h], by rw [h], by rw [h]⟩

theorem SameFunds.trans {w₁ w₂ w₃ : World} (h : SameFunds w₁ w₂) (h' : SameFunds w₂ w₃) : SameFunds w₁ w₃ :=
  ⟨h'.1.trans h.1, h'.2.trans h.2, h'.3.trans h.3, h'.4.trans h.4⟩

/-- What a program leaves when it starts with the vault paused: the vault, and the pause. -/
structure Locked (w w' : World) : Prop where
  vault : w.paused .vault = true → w'.vault = w.vault
  paused : w'.paused = w.paused

theorem Locked.refl (w : World) : Locked w w := ⟨fun _ => rfl, rfl⟩

theorem Locked.trans {w₁ w₂ w₃ : World} (h : Locked w₁ w₂) (h' : Locked w₂ w₃) : Locked w₁ w₃ := by
  refine ⟨fun hp => ?_, h'.paused.trans h.paused⟩
  rw [h'.vault (by rw [h.paused]; exact hp), h.vault hp]

theorem transferInternal_unpaused {caller src dst : Address} {amount : Int}
    (h : Vault.transferInternal w caller src dst amount = .ok w') : w.paused .vault = false := by
  simp only [Vault.transferInternal, bind_ok_iff, World.whenNotPaused_ok, exists_const] at h
  obtain ⟨-, -, hp, -⟩ := h
  exact hp

theorem transferInternal_locked {caller src dst : Address} {amount : Int}
    (h : Vault.transferInternal w caller src dst amount = .ok w') : Locked w w' :=
  ⟨fun hp => absurd (transferInternal_unpaused h) (by simp [hp]), transferInternal_paused h⟩

theorem transferIf_locked {caller src dst : Address} {x : Int}
    (h : (if x > 0 then Vault.transferInternal w caller src dst x else pure w) = .ok w') : Locked w w' := by
  split at h
  · exact transferInternal_locked h
  · rw [pure_ok] at h
    exact h ▸ .refl w

theorem applyPnl_locked {caller account : Address} {amount : Int}
    (h : Vault.applyPnl D w caller account amount = .ok w') : Locked w w' := by
  have hposted := Vault.applyPnl_ok h
  simp only [Vault.applyPnl, bind_ok_iff, World.whenNotPaused_ok, exists_const] at h
  exact ⟨fun hp => absurd h.1 (by simp [hp]), by rw [hposted]; rfl⟩

theorem settleFunding_locked {trader : Address} {marketId : MarketId} {p p' : Position}
    (h : Engine.settleFunding D w trader marketId p = .ok (w', p')) : Locked w w' := by
  unfold Engine.settleFunding at h
  split at h
  · simp only [pure_ok, Prod.mk.injEq] at h
    exact h.1 ▸ .refl w
  · simp only [bind_ok_iff] at h
    obtain ⟨d, -, h⟩ := h
    split at h
    · simp only [pure_ok, Prod.mk.injEq] at h
      exact h.1 ▸ .refl w
    · split at h
      all_goals
        simp only [bind_ok_iff, pure_ok, Prod.mk.injEq] at h
        obtain ⟨_, -, w₁, htransfer, rfl, -⟩ := h
        exact transferInternal_locked htransfer

theorem trade_locked {trader : Address} {marketId : MarketId} {m : MarketParams} {delta price notional : Int}
    {reduceOnly enforceLimits increased : Bool} {realized : Int} (hd : delta ≠ 0)
    (h : Engine.trade D w trader marketId m delta price notional reduceOnly enforceLimits =
      .ok (w', increased, realized)) : Locked w w' := by
  simp only [Engine.trade, bind_ok_iff, pure_ok, Prod.mk.injEq] at h
  obtain ⟨⟨w₁, p₁⟩, hfund, leg, hleg, basis, -, w₂, hstore, w₃, hpnl, _, -, rfl, -, -⟩ := h
  have hpaid := settleFunding_locked hfund
  obtain ⟨payment, rfl, rfl, -⟩ := Engine.settleFunding_ok hfund
  have hbooked : Engine.LegBooked (w.withBalances (Book.transfer w.vault.balances trader D.engine payment)) trader marketId
      (Engine.settledPosition (w.engine.funding marketId) (w.engine.positions (trader, marketId))) delta notional leg :=
    (Engine.leg_ok hd hleg).1
  have hstored : Locked (w.withBalances (Book.transfer w.vault.balances trader D.engine payment)) w₂ := by
    rw [Engine.storePosition_ok hstore, hbooked.world]
    exact ⟨fun _ => rfl, rfl⟩
  refine (hpaid.trans hstored).trans ?_
  split at hpnl
  · exact applyPnl_locked hpnl
  · rw [pure_ok] at hpnl
    exact hpnl ▸ .refl w₂

theorem applyFill_locked {caller trader : Address} {marketId : MarketId} {isBuy : Bool} {size price notional : Int}
    {reduceOnly increased : Bool}
    (h : Engine.applyFill D w caller trader marketId isBuy size price notional reduceOnly = .ok (w', increased)) :
    Locked w w' ∧ w.paused .engine = false := by
  simp only [Engine.applyFill, bind_ok_iff, revertIf_ok, World.whenNotPaused_ok, pure_ok, Prod.mk.injEq,
    exists_const] at h
  obtain ⟨-, hp, hpos, m, -, index, -, maxDelta, -, lo, -, -, hi, -, -, w₁, hmark, ⟨w₂, inc, r⟩, htrade, rfl, rfl⟩ := h
  obtain ⟨t, st, rfl⟩ := Engine.recordMark_ok hmark
  have hd : (if isBuy then size else -size) ≠ 0 := by
    split <;> omega
  have hmarked : Locked w (Engine.marked w marketId t st) := ⟨fun _ => rfl, rfl⟩
  exact ⟨hmarked.trans (trade_locked hd htrade), hp⟩

theorem chargeFill_locked {caller maker taker makerReferrer takerReferrer : Address} {marketId : MarketId} {notional : Int}
    {q : FeeRouter.Quote}
    (h : FeeRouter.chargeFill D w caller marketId maker taker notional makerReferrer takerReferrer = .ok (w', q)) :
    Locked w w' := by
  simp only [FeeRouter.chargeFill, bind_ok_iff, World.onlyRole_ok, pure_ok, Prod.mk.injEq, exists_const] at h
  obtain ⟨-, q', -, w₁, htaker, ⟨w₂, toInsurance⟩, hmaker, w₃, hins, rfl, -⟩ := h
  have hmoved : Locked w₁ w₂ := by
    split at hmaker
    · simp only [bind_ok_iff, pure_ok, Prod.mk.injEq] at hmaker
      obtain ⟨w₄, htransfer, ⟨s₁, fromMaker⟩, -, ⟨s₂, fromTaker⟩, -, rfl, -⟩ := hmaker
      have haccrued : Locked w₄ { w₄ with feeRouter := s₂ } := ⟨fun _ => rfl, rfl⟩
      exact (transferInternal_locked htransfer).trans haccrued
    · simp only [bind_ok_iff, pure_ok, Prod.mk.injEq] at hmaker
      obtain ⟨w₄, hrebate, ⟨s₁, fromTaker⟩, -, rfl, -⟩ := hmaker
      have haccrued : Locked w₄ { w₄ with feeRouter := s₁ } := ⟨fun _ => rfl, rfl⟩
      refine Locked.trans ?_ haccrued
      split at hrebate
      · exact transferInternal_locked hrebate
      · rw [pure_ok] at hrebate
        exact hrebate ▸ .refl w₁
  exact ((transferIf_locked htaker).trans hmoved).trans (transferIf_locked hins)

theorem settleOne_locked {wallet : Address → Bytes32 → Bytes → Bool} {f : Fill} {st : OrderGateway.Settlement}
    (h : OrderGateway.settleOne D env w msg wallet f = .ok (w', st)) : Locked w w' ∧ w.paused .engine = false := by
  obtain ⟨orderState, unwound, happly⟩ := settleOne_progress h
  obtain ⟨w₁, mi, w₂, ti, hmaker, htaker, hcharge⟩ := apply_ok happly
  have hprogress : Locked w (withProgress w orderState unwound) := ⟨fun _ => rfl, rfl⟩
  obtain ⟨hmoved, hengine⟩ := applyFill_locked hmaker
  exact ⟨((hprogress.trans hmoved).trans (applyFill_locked htaker).1).trans (chargeFill_locked hcharge), hengine⟩

theorem chain_locked {settled : List Settled} (h : Chain D env msg w settled w') : Locked w w' :=
  h.relates Locked .refl (fun _ _ _ => .trans) fun _ _ _ _ _ hone => (settleOne_locked hone).1

theorem adlTransfer_locked {caller backstop counterparty : Address} {marketId : MarketId} {size price realized : Int}
    (h : Engine.adlTransfer D w caller backstop counterparty marketId size price = .ok (w', realized)) :
    Locked w w' ∧ w.paused .engine = false := by
  simp only [Engine.adlTransfer, bind_ok_iff, revertIf_ok, World.whenNotPaused_ok, pure_ok, Prod.mk.injEq,
    exists_const, not_or, not_le] at h
  obtain ⟨-, hengine, -, -, hsize, m, -, n, -, ⟨w₁, inc, r⟩, htrade, ⟨w₂, inc', r'⟩, htrade', rfl, -⟩ := h
  have hd : ∀ {c : Prop} [Decidable c], (if c then -size else size) ≠ 0 := by
    intro c _
    split <;> omega
  exact ⟨(trade_locked hd htrade).trans (trade_locked hd htrade'), hengine⟩

theorem adl_locked {counterparty : Address} {marketId : MarketId} {maxSize : Nat}
    (h : Liquidation.adl D w counterparty marketId maxSize = .ok w') :
    Locked w w' ∧ w.paused .liquidation = false ∧ w.paused .engine = false := by
  simp only [Liquidation.adl, bind_ok_iff, World.whenNotPaused_ok, revertIf_ok, exists_const] at h
  obtain ⟨hp, -, -, shortfall, -, -, -, -, price, -, n, -, -, paying, -, -, ⟨w₁, realized⟩, htransfer, h⟩ := h
  obtain ⟨hmoved, hengine⟩ := adlTransfer_locked htransfer
  exact ⟨hmoved.trans (transferIf_locked h), hp, hengine⟩

theorem liquidate_unpaused {trader : Address} {marketId : MarketId} {maxSize : Nat}
    (h : Liquidation.liquidate D w msg trader marketId maxSize = .ok w') :
    w.paused .liquidation = false ∧ w.paused .engine = false := by
  simp only [Liquidation.liquidate, bind_ok_iff, World.whenNotPaused_ok, revertIf_ok, exists_const] at h
  obtain ⟨hp, -, -, -, ⟨closeSize, before⟩, -, price, -, ⟨w₁, realized⟩, htransfer, -⟩ := h
  simp only [Engine.liquidationTransfer, bind_ok_iff, World.whenNotPaused_ok, exists_const] at htransfer
  obtain ⟨-, -, hengine, -⟩ := htransfer
  exact ⟨hp, hengine⟩

theorem settleBadDebt_locked {trader : Address} {covered : Int}
    (h : Insurance.settleBadDebt D w trader = .ok (w', covered)) : Locked w w' ∧ w.paused .insurance = false := by
  simp only [Insurance.settleBadDebt, bind_ok_iff, World.whenNotPaused_ok, revertIf_ok, exists_const] at h
  generalize (if w.vault.balances trader < 0 then -w.vault.balances trader else 0) = deficit at h
  obtain ⟨hp, -, -, w₁, htransfer, h⟩ := h
  simp only [pure_ok, Prod.mk.injEq] at h
  refine ⟨(transferIf_locked htransfer).trans ?_, hp⟩
  rw [← h.1]
  split
  · exact ⟨fun _ => rfl, rfl⟩
  · exact .refl w₁

theorem execConfig_funds (c : Config) : Returns (SameFunds w) (execConfig D w msg c) := by
  cases c <;>
    simp only [execConfig, KryonUpgradeable.pause, KryonUpgradeable.pauseIndefinitely, KryonUpgradeable.unpause,
      KryonUpgradeable.changeRole, KryonUpgradeable.renounceRole, Vault.setDepositCaps, Vault.setCapExempt,
      Vault.setCollateral, RiskParams.setMarket, RiskParams.setMarketActive, RiskParams.setFundingConfig,
      RiskParams.setOiPolicy, RiskParams.setMaxTotalOiPolicyBps, OracleAdapter.setPublishers, OracleAdapter.setFeed,
      OracleAdapter.setReferenceFeed, OracleAdapter.pushPrices, FeeRouter.setMarketFees, FeeRouter.defineTier,
      FeeRouter.setAccountTier, FeeRouter.setMinNetRate, FeeRouter.setRebatesEnabled, FeeRouter.setReferralsEnabled,
      FeeRouter.setReferrerApproved, FeeRouter.setSplit, FeeRouter.setLiquidationSplit, FeeRouter.setTreasury,
      Insurance.setUnwindLimits, Liquidation.setParams]
  all_goals
    repeat' first
      | exact Returns.pure ⟨rfl, rfl, rfl, rfl⟩
      | refine Returns.bind fun _ => ?_

theorem withdrawTo_unpaused {account recipient : Address} {amount : Nat}
    (h : Vault.withdrawTo D w msg account recipient amount = .ok w') : w.paused .vault = false := by
  simp only [Vault.withdrawTo, bind_ok_iff, World.whenNotPaused_ok, exists_const] at h
  exact h.1

theorem pullIntoVault_unpaused {amount : Nat} (h : Insurance.pullIntoVault D w msg amount = .ok w') :
    w.paused .vault = false := by
  simp only [Insurance.pullIntoVault, bind_ok_iff] at h
  obtain ⟨w₁, hpull, h⟩ := h
  obtain ⟨-, rfl⟩ := usdcTransfer_ok hpull
  simp only [Vault.depositFor, bind_ok_iff, World.whenNotPaused_ok, exists_const] at h
  exact h.1

/-- **No call moves funds past a paused vault.** -/
theorem exec_funds {call : Call} {settled : List Settled} (hp : w.paused .vault = true)
    (hexec : exec D env w call = .ok (w', settled)) : SameFunds w w' := by
  have hrunning : ¬ w.paused .vault = false := by simp [hp]
  obtain ⟨msg, tx⟩ := call
  cases tx with
  | config c => exact execConfig_funds c w' (unsettled_ok.1 hexec).1
  | settleFillsSigned fills =>
    simp only [exec, OrderGateway.settleFillsSigned, bind_ok_iff] at hexec
    obtain ⟨_, -, _, -, _, -, h⟩ := hexec
    exact .of_vault ((chain_locked (settleFills_batch fills w w' settled h).chain).vault hp)
  | moveUsdc balances | wait seconds =>
    simp only [exec, pure_ok, Prod.mk.injEq] at hexec
    obtain ⟨rfl, -⟩ := hexec
    exact .of_vault rfl
  | deposit amount | depositFor account amount | depositWithPermit2 token amount =>
    have h := (unsettled_ok.1 hexec).1
    simp only [Vault.deposit, Vault.depositFor, Vault.depositWithPermit2, bind_ok_iff, World.whenNotPaused_ok,
      exists_const] at h
    exact absurd h.1 hrunning
  | withdrawTo recipient amount => exact absurd (withdrawTo_unpaused (unsettled_ok.1 hexec).1) hrunning
  | updateFunding marketId =>
    have h := (unsettled_ok.1 hexec).1
    simp only [Engine.updateFunding, bind_ok_iff, World.onlyRole_ok, World.whenNotPaused_ok, M.bound128_ok, pure_ok,
      exists_const] at h
    obtain ⟨-, -, m, -, ⟨w₁, mark⟩, htwap, premium, -, next, -, _, -, _, -, _, -, rfl⟩ := h
    obtain ⟨marks, rfl⟩ := consumeTwap_ok htwap
    exact .of_vault rfl
  | cancelOrder nonce =>
    have h := (unsettled_ok.1 hexec).1
    rw [pure_ok] at h
    exact h ▸ .of_vault rfl
  | cancelOrders nonces =>
    have h := (unsettled_ok.1 hexec).1
    rw [pure_ok] at h
    obtain ⟨cancelled, heq, -⟩ := cancelOrders_eq w msg nonces
    rw [heq] at h
    exact h ▸ .of_vault rfl
  | cancelUpTo newMinNonce =>
    have h := (unsettled_ok.1 hexec).1
    simp only [OrderGateway.cancelUpTo, bind_ok_iff, pure_ok] at h
    obtain ⟨_, -, rfl⟩ := h
    exact .of_vault rfl
  | cancelSigned c signature =>
    have h := (unsettled_ok.1 hexec).1
    simp only [OrderGateway.cancelSigned, bind_ok_iff, pure_ok] at h
    obtain ⟨_, -, _, -, rfl⟩ := h
    exact .of_vault rfl
  | donate amount =>
    have h := (unsettled_ok.1 hexec).1
    simp only [Insurance.donate, bind_ok_iff, World.whenNotPaused_ok, revertIf_ok, exists_const] at h
    exact absurd (pullIntoVault_unpaused h.2.2) hrunning
  | stake amount =>
    obtain ⟨w₁, minted, hpull, -⟩ := stake_ok (unsettled_ok.1 hexec).1
    exact absurd (pullIntoVault_unpaused hpull) hrunning
  | requestUnstake shares =>
    obtain ⟨-, -, rfl⟩ := requestUnstake_ok (unsettled_ok.1 hexec).1
    exact .of_vault rfl
  | withdrawUnstaked =>
    obtain ⟨-, -, ⟨-, rfl⟩ | ⟨-, w₁, amount, rfl, h | rfl⟩⟩ := withdrawUnstaked_ok (unsettled_ok.1 hexec).1
    · exact .of_vault rfl
    · have hp' := withdrawTo_unpaused h
      exact absurd hp' hrunning
    · exact .of_vault rfl
  | sweepToOperating amount =>
    obtain ⟨swept, -, -, rfl | rfl⟩ := sweepToOperating_ok (unsettled_ok.1 hexec).1
    · exact .of_vault rfl
    · exact .of_vault rfl
  | settleBadDebt trader =>
    have h := (unsettled_ok.1 hexec).1
    rw [map_ok] at h
    obtain ⟨⟨w₁, covered⟩, hcover, rfl⟩ := h
    exact .of_vault ((settleBadDebt_locked hcover).1.vault hp)
  | liquidate trader marketId maxSize => exact absurd (liquidate_vault (unsettled_ok.1 hexec).1) hrunning
  | adl counterparty marketId maxSize => exact .of_vault ((adl_locked (unsettled_ok.1 hexec).1).1.vault hp)
  | claimTreasury =>
    rcases claimTreasury_ok (unsettled_ok.1 hexec).1 with rfl | ⟨w₁, amount, -, rfl, h⟩
    · exact .of_vault rfl
    · have hp' := withdrawTo_unpaused h
      exact absurd hp' hrunning
  | claimReferral referrer =>
    rcases claimReferral_ok (unsettled_ok.1 hexec).1 with rfl | ⟨w₁, amount, -, rfl, h⟩
    · exact .of_vault rfl
    · have hp' := withdrawTo_unpaused h
      exact absurd hp' hrunning

/-! ## The other contracts -/

/-- **No call moves a position past a paused engine.** -/
theorem exec_positions {call : Call} {settled : List Settled} (hp : w.paused .engine = true)
    (hadm : call.Admissible D w) (hexec : exec D env w call = .ok (w', settled)) : w'.engine = w.engine := by
  have hrunning : ¬ w.paused .engine = false := by simp [hp]
  cases htx : call.tx.touchesEngine with
  | false => exact exec_engine htx hadm hexec
  | true =>
    obtain ⟨msg, tx⟩ := call
    cases tx with
    | updateFunding marketId =>
      have h := (unsettled_ok.1 hexec).1
      simp only [Engine.updateFunding, bind_ok_iff, World.onlyRole_ok, World.whenNotPaused_ok, exists_const] at h
      exact absurd h.2.1 hrunning
    | settleFillsSigned fills =>
      simp only [exec, OrderGateway.settleFillsSigned, bind_ok_iff] at hexec
      obtain ⟨_, -, _, -, _, -, h⟩ := hexec
      generalize hb : settled = xs at h
      cases (settleFills_batch fills w w' xs h).chain with
      | nil _ => rfl
      | cons wallet hone _ => exact absurd (settleOne_locked hone).2 hrunning
    | liquidate trader marketId maxSize => exact absurd (liquidate_unpaused (unsettled_ok.1 hexec).1).2 hrunning
    | adl counterparty marketId maxSize => exact absurd (adl_locked (unsettled_ok.1 hexec).1).2.2 hrunning
    | _ => exact absurd htx (by simp [Tx.touchesEngine])

/-- **No fill settles, and no order makes progress, past a paused gateway.** -/
theorem exec_orders {call : Call} {settled : List Settled} (hp : w.paused .gateway = true)
    (hadm : call.Admissible D w) (hexec : exec D env w call = .ok (w', settled)) :
    w'.gateway.orderState = w.gateway.orderState ∧ settled = [] := by
  have heffect := exec_effect hadm hexec
  obtain ⟨msg, tx⟩ := call
  cases heffect with
  | configured h => exact ⟨by rw [(execConfig_configures _ _ h).gateway], rfl⟩
  | charged _ h => exact ⟨by rw [h.gateway], rfl⟩
  | settled _ =>
    simp only [exec, OrderGateway.settleFillsSigned, bind_ok_iff, World.whenNotPaused_ok, exists_const] at hexec
    obtain ⟨_, -, hrunning, -⟩ := hexec
    exact absurd hrunning (by simp [hp])
  | cancelled _ _ _ _ => exact ⟨rfl, rfl⟩
  | staked _ h _ => exact ⟨by rw [h.gateway]; rfl, rfl⟩
  | outside _ _ => exact ⟨rfl, rfl⟩

/-- **No share moves and no request changes past a paused Insurance**; an emptying sweep may still retire the epoch. -/
theorem exec_shares {call : Call} {settled : List Settled} (hp : w.paused .insurance = true)
    (hadm : call.Admissible D w) (hexec : exec D env w call = .ok (w', settled)) :
    w'.insurance.shares = w.insurance.shares ∧ w'.insurance.pending = w.insurance.pending := by
  have hrunning : ¬ w.paused .insurance = false := by simp [hp]
  cases htx : call.tx.stakes with
  | false =>
    have hsame := effect_sameStake htx (exec_effect hadm hexec)
    exact ⟨hsame.shares, hsame.pending⟩
  | true =>
    obtain ⟨msg, tx⟩ := call
    cases tx with
    | stake amount =>
      have h := (unsettled_ok.1 hexec).1
      simp only [Insurance.stake, bind_ok_iff, World.whenNotPaused_ok, exists_const] at h
      exact absurd h.1 hrunning
    | requestUnstake shares =>
      have h := (unsettled_ok.1 hexec).1
      simp only [Insurance.requestUnstake, bind_ok_iff, World.whenNotPaused_ok, exists_const] at h
      exact absurd h.1 hrunning
    | withdrawUnstaked =>
      have h := (unsettled_ok.1 hexec).1
      simp only [Insurance.withdrawUnstaked, bind_ok_iff, World.whenNotPaused_ok, exists_const] at h
      exact absurd h.1 hrunning
    | sweepToOperating amount =>
      obtain ⟨swept, -, -, rfl | rfl⟩ := sweepToOperating_ok (unsettled_ok.1 hexec).1
      · exact ⟨rfl, rfl⟩
      · simp only [withInsurance_insurance, sweptPool]
        split <;> exact ⟨rfl, rfl⟩
    | _ => exact absurd htx (by simp [Tx.stakes])

/-- **No observation and no price is stored past a paused oracle.** -/
theorem exec_prices {call : Call} {settled : List Settled} (hp : w.paused .oracle = true)
    (hadm : call.Admissible D w) (hexec : exec D env w call = .ok (w', settled)) :
    w'.oracle.observations = w.oracle.observations ∧ w'.oracle.snapshots = w.oracle.snapshots := by
  obtain ⟨msg, tx⟩ := call
  by_cases hc : ∃ c, tx = .config c
  · obtain ⟨c, rfl⟩ := hc
    have h := (unsettled_ok.1 hexec).1
    cases c with
    | pushPrices ids prices confidences publishTime =>
      simp only [execConfig, OracleAdapter.pushPrices, bind_ok_iff, World.whenNotPaused_ok, exists_const] at h
      obtain ⟨-, -, hrunning, -⟩ := h
      exact absurd hrunning (by simp [hp])
    | _ =>
      refine (?_ : Returns (fun w' : World => w'.oracle.observations = w.oracle.observations ∧
        w'.oracle.snapshots = w.oracle.snapshots) _) w' h
      simp only [execConfig, KryonUpgradeable.pause, KryonUpgradeable.pauseIndefinitely, KryonUpgradeable.unpause,
        KryonUpgradeable.changeRole, KryonUpgradeable.renounceRole, Vault.setDepositCaps, Vault.setCapExempt,
        Vault.setCollateral, RiskParams.setMarket, RiskParams.setMarketActive, RiskParams.setFundingConfig,
        RiskParams.setOiPolicy, RiskParams.setMaxTotalOiPolicyBps, OracleAdapter.setPublishers, OracleAdapter.setFeed,
        OracleAdapter.setReferenceFeed, FeeRouter.setMarketFees, FeeRouter.defineTier,
        FeeRouter.setAccountTier, FeeRouter.setMinNetRate, FeeRouter.setRebatesEnabled, FeeRouter.setReferralsEnabled,
        FeeRouter.setReferrerApproved, FeeRouter.setSplit, FeeRouter.setLiquidationSplit, FeeRouter.setTreasury,
        Insurance.setUnwindLimits, Liquidation.setParams]
      repeat' first
        | exact Returns.pure ⟨rfl, rfl⟩
        | refine Returns.bind fun _ => ?_
  · have hop := effect_operates (fun c hc' => hc ⟨c, hc'⟩) (exec_effect hadm hexec)
    exact ⟨by rw [hop.oracle], by rw [hop.oracle]⟩

/-! ## Over a run -/

/-- Whether a call closes somebody's position. -/
def Tx.closes : Tx → Bool
  | .liquidate _ _ _ | .adl _ _ _ => true
  | _ => false

/-- What a contract guards is the same at the end of a run.  RiskParams and the fee router guard nothing. -/
def Frozen (c : Contract) (w : World) (ls : List Label) (w' : World) : Prop :=
  match c with
  | .vault => SameFunds w w'
  | .engine => w'.engine = w.engine
  | .gateway => w'.gateway.orderState = w.gateway.orderState ∧ history ls = []
  | .oracle => w'.oracle.observations = w.oracle.observations ∧ w'.oracle.snapshots = w.oracle.snapshots
  | .liquidation => ∀ l ∈ ls, l.call.tx.closes = false
  | .insurance => w'.insurance.shares = w.insurance.shares ∧ w'.insurance.pending = w.insurance.pending
  | .risk | .feeRouter => True

theorem step_closes (hp : w.paused .liquidation = true) (h : (machine D env).step w l w') :
    l.call.tx.closes = false := by
  have hrunning : ¬ w.paused .liquidation = false := by simp [hp]
  obtain ⟨-, hexec⟩ := h
  obtain ⟨⟨msg, tx⟩, settled⟩ := l
  cases tx with
  | liquidate trader marketId maxSize => exact absurd (liquidate_unpaused (unsettled_ok.1 hexec).1).1 hrunning
  | adl counterparty marketId maxSize => exact absurd (adl_locked (unsettled_ok.1 hexec).1).2.1 hrunning
  | _ => rfl

/-- **A paused contract's ward stands still.**  Over any run each of whose steps finds the contract paused: with the vault
paused no balance and no deposit counter moves; with the engine paused no position, open interest, index or mark; with the
gateway paused no fill settles and no order makes progress; with the oracle paused no observation or price is stored; with
Liquidation paused nobody is liquidated or deleveraged; with Insurance paused no share moves and no request changes. -/
theorem pause_freezes (c : Contract) (h : Run ((machine D env).restrict fun w _ => w.paused c = true) w ls w') :
    Frozen c w ls w' := by
  cases c with
  | vault =>
    refine h.preserves (SameFunds w) (fun u l v hu hl => ?_) (.of_vault rfl)
    obtain ⟨hp, -, hexec⟩ := hl
    exact hu.trans (exec_funds hp hexec)
  | engine =>
    refine h.preserves (fun u => u.engine = w.engine) (fun u l v hu hl => ?_) rfl
    obtain ⟨hp, hadm, hexec⟩ := hl
    exact (exec_positions hp hadm hexec).trans hu
  | gateway =>
    refine ⟨h.preserves (fun u => u.gateway.orderState = w.gateway.orderState) (fun u l v hu hl => ?_) rfl, ?_⟩
    · obtain ⟨hp, hadm, hexec⟩ := hl
      exact (exec_orders hp hadm hexec).1.trans hu
    · refine List.flatMap_eq_nil_iff.2 (h.forall_labels (fun l => l.settled = []) fun u l v hl => ?_)
      obtain ⟨hp, hadm, hexec⟩ := hl
      exact (exec_orders hp hadm hexec).2
  | oracle =>
    refine h.preserves (fun u => u.oracle.observations = w.oracle.observations ∧ u.oracle.snapshots = w.oracle.snapshots)
      (fun u l v hu hl => ?_) ⟨rfl, rfl⟩
    obtain ⟨hp, hadm, hexec⟩ := hl
    obtain ⟨hobs, hsnap⟩ := exec_prices hp hadm hexec
    exact ⟨hobs.trans hu.1, hsnap.trans hu.2⟩
  | liquidation =>
    refine h.forall_labels (fun l => l.call.tx.closes = false) fun u l v hl => ?_
    obtain ⟨hp, hstep⟩ := hl
    exact step_closes hp hstep
  | insurance =>
    refine h.preserves (fun u => u.insurance.shares = w.insurance.shares ∧ u.insurance.pending = w.insurance.pending)
      (fun u l v hu hl => ?_) ⟨rfl, rfl⟩
    obtain ⟨hp, hadm, hexec⟩ := hl
    obtain ⟨hshares, hpending⟩ := exec_shares hp hadm hexec
    exact ⟨hshares.trans hu.1, hpending.trans hu.2⟩
  | risk => trivial
  | feeRouter => trivial

namespace Sample

/-- The vault is paused on an open market, which can still be quoted, cancelled on and priced. -/
def halted : List Call := trading ++ [call admin (.config (.pauseIndefinitely .vault))]

def whileHalted : List Call := [
  call alice (.cancelOrder 7), call admin (.wait 10), push (90 * 10 ^ 18) 1010,
  settle [fill alice bob 1 (10 ^ 18) (90 * 10 ^ 18) 2]]

end Sample

theorem pause_freezes_halted :
    ∃ w', Frozen .vault (Sample.outcome Sample.halted)
      (trace Sample.deployment Sample.env (Sample.outcome Sample.halted) Sample.whileHalted) w' := by
  have hok : (script Sample.deployment Sample.env (Sample.outcome Sample.halted) Sample.whileHalted).isOk = true := by
    decide +kernel
  have hmeets : meets Sample.deployment Sample.env (fun w _ => w.paused .vault = true) (Sample.outcome Sample.halted)
      Sample.whileHalted = true := by decide +kernel
  obtain ⟨w', hs⟩ := ok_of_isOk hok
  exact ⟨w', pause_freezes .vault (script_run_restrict (fun w _ => w.paused .vault = true) _ _ _ hmeets hs)⟩

end Kryon
