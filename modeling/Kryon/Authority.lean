import Kryon.DepositCaps
import Kryon.Downturns
/-!
# Authority — who can change what the protocol is configured to do

Every guarded call names the role it needs (`Tx.authority`), and no call returns to a caller without it.  So a role is
only ever given or taken by the administrator of its contract, by the holder giving it up, or with the publisher set; and
a run of calls by accounts without any role changes no role, pause, price, parameter or fee, settles no fill and moves no
funding index.
-/
namespace Kryon

open Program Transition
open OrderGateway (Settled)

variable {D : Deployment} {env : Env} {w w' : World} {msg : Msg} {l : Label} {ls : List Label}

/-! ## The roles the calls need -/

/-- The role a configuration call needs; anybody may give up a role. -/
def Config.authority : Config → Option (Contract × Role)
  | .pause c => some (c, .pauser)
  | .pauseIndefinitely c | .unpause c | .changeRole c _ _ _ => some (c, .defaultAdmin)
  | .renounceRole _ _ => none
  | .setDepositCaps _ _ | .setCollateral _ _ => some (.vault, .riskAdmin)
  | .setCapExempt _ _ => some (.vault, .defaultAdmin)
  | .setMarket _ _ | .setMarketActive _ _ | .setFundingConfig _ _ | .setOiPolicy _ _ | .setMaxTotalOiPolicyBps _ =>
    some (.risk, .riskAdmin)
  | .setPublishers _ | .setFeed _ _ | .setReferenceFeed _ _ => some (.oracle, .riskAdmin)
  | .pushPrices _ _ _ _ => some (.oracle, .publisher)
  | .setMarketFees _ _ _ | .defineTier _ _ _ | .setMinNetRate _ | .setRebatesEnabled _ | .setReferralsEnabled _
  | .setReferrerApproved _ _ | .setSplit _ _ _ | .setLiquidationSplit _ | .setTreasury _ => some (.feeRouter, .feeAdmin)
  | .setAccountTier _ _ => some (.feeRouter, .feeTier)
  | .setUnwindLimits _ _ _ => some (.insurance, .riskAdmin)
  | .setParams _ _ => some (.liquidation, .riskAdmin)

/-- The role a call needs, if it needs one. -/
def Tx.authority : Tx → Option (Contract × Role)
  | .config c => c.authority
  | .updateFunding _ => some (.engine, .keeper)
  | .settleFillsSigned _ => some (.gateway, .operator)
  | .sweepToOperating _ => some (.insurance, .defaultAdmin)
  | _ => none

theorem execConfig_authorized {c : Config} {r : Contract × Role} (hr : c.authority = some r)
    (h : execConfig D w msg c = .ok w') : w.hasRole r.1 r.2 msg.sender = true := by
  have hguard : ∀ {α : Type} {c₀ : Contract} {r₀ : Role} {f : Unit → Except Error α} {y : α},
      (w.onlyRole c₀ r₀ msg.sender >>= f) = .ok y → (c₀, r₀) = r → w.hasRole r.1 r.2 msg.sender = true := by
    rintro α c₀ r₀ f y h rfl
    obtain ⟨_, hrole, -⟩ := (bind_ok_iff _ _ _).1 h
    exact (World.onlyRole_ok w _ _ _ _).1 hrole
  cases c with
  | renounceRole c r => exact absurd hr (by simp [Config.authority])
  | _ => exact hguard h (Option.some.inj hr)

/-- **No guarded call returns to a caller without its role.** -/
theorem exec_authorized {call : Call} {settled : List Settled} {r : Contract × Role} (hr : call.tx.authority = some r)
    (h : exec D env w call = .ok (w', settled)) : w.hasRole r.1 r.2 call.msg.sender = true := by
  obtain ⟨msg, tx⟩ := call
  cases tx with
  | config c => exact execConfig_authorized hr (unsettled_ok.1 h).1
  | updateFunding marketId =>
    obtain rfl := Option.some.inj hr
    have hrun := (unsettled_ok.1 h).1
    simp only [Engine.updateFunding, bind_ok_iff, World.onlyRole_ok, exists_const] at hrun
    exact hrun.1
  | settleFillsSigned fills =>
    obtain rfl := Option.some.inj hr
    simp only [exec, OrderGateway.settleFillsSigned, bind_ok_iff, World.onlyRole_ok, exists_const] at h
    exact h.1
  | sweepToOperating amount =>
    obtain rfl := Option.some.inj hr
    have hrun := (unsettled_ok.1 h).1
    simp only [Insurance.sweepToOperating, bind_ok_iff, World.onlyRole_ok, exists_const] at hrun
    exact hrun.1
  | _ => exact absurd hr (by simp [Tx.authority])

/-! ## Where roles come from -/

/-- The calls that may give or take a role: `held` says which. -/
inductive Reassigns (w : World) (l : Label) (c : Contract) (r : Role) (a : Address) (held : Bool) : Prop where
  /-- The administrator of the contract's roles gave or took it. -/
  | changed (htx : l.call.tx = .config (.changeRole c r a held))
      (hadmin : w.hasRole c .defaultAdmin l.call.msg.sender = true)
  /-- The holder gave it up. -/
  | renounced (htx : l.call.tx = .config (.renounceRole c r)) (hsender : l.call.msg.sender = a) (hheld : held = false)
  /-- The oracle's publishers were replaced. -/
  | published {keys : List Address} (htx : l.call.tx = .config (.setPublishers keys)) (hc : c = .oracle)
      (hr : r = .publisher) (hadmin : w.hasRole .oracle .riskAdmin l.call.msg.sender = true)
      (hheld : held = true ↔ a ∈ keys)

theorem grantPublishers_apply (roles : Role → Address → Bool) (keys : List Address) (held : Bool) (r : Role) (a : Address) :
    OracleAdapter.grantPublishers roles keys held r a = if r = .publisher ∧ a ∈ keys then held else roles r a := by
  unfold OracleAdapter.grantPublishers
  by_cases hr : r = .publisher
  · subst hr
    simp
  · simp [hr]

theorem setRole_changes {c c' : Contract} {r r' : Role} {a a' : Address} {held : Bool}
    (h : (KryonUpgradeable.setRole w c' r' a' held).hasRole c r a ≠ w.hasRole c r a) :
    c' = c ∧ r' = r ∧ a' = a ∧ (KryonUpgradeable.setRole w c' r' a' held).hasRole c r a = held := by
  by_cases hkey : c' = c ∧ r' = r ∧ a = a'
  · obtain ⟨rfl, rfl, rfl⟩ := hkey
    exact ⟨rfl, rfl, rfl, by simp [World.hasRole, KryonUpgradeable.setRole]⟩
  · exact absurd (setRole_hasRole hkey) h

/-- The configuration calls that write roles. -/
def Config.assigns : Config → Bool
  | .changeRole _ _ _ _ | .renounceRole _ _ | .setPublishers _ => true
  | _ => false

theorem execConfig_roles {c : Config} (hc : c.assigns = false) :
    Returns (fun w' => w'.roles = w.roles) (execConfig D w msg c) := by
  cases c with
  | changeRole _ _ _ _ | renounceRole _ _ | setPublishers _ => exact absurd hc (by simp [Config.assigns])
  | _ =>
    simp only [execConfig, KryonUpgradeable.pause, KryonUpgradeable.pauseIndefinitely, KryonUpgradeable.unpause,
      Vault.setDepositCaps, Vault.setCapExempt, Vault.setCollateral, RiskParams.setMarket, RiskParams.setMarketActive,
      RiskParams.setFundingConfig, RiskParams.setOiPolicy, RiskParams.setMaxTotalOiPolicyBps, OracleAdapter.setFeed,
      OracleAdapter.setReferenceFeed, OracleAdapter.pushPrices, FeeRouter.setMarketFees, FeeRouter.defineTier,
      FeeRouter.setAccountTier, FeeRouter.setMinNetRate, FeeRouter.setRebatesEnabled, FeeRouter.setReferralsEnabled,
      FeeRouter.setReferrerApproved, FeeRouter.setSplit, FeeRouter.setLiquidationSplit, FeeRouter.setTreasury,
      Insurance.setUnwindLimits, Liquidation.setParams]
    repeat' first
      | exact Returns.pure rfl
      | refine Returns.bind fun _ => ?_

/-- **A step that changes who holds a role reassigned it.** -/
theorem step_reassigns {c : Contract} {r : Role} {a : Address} (h : (machine D env).step w l w')
    (hne : w'.hasRole c r a ≠ w.hasRole c r a) : Reassigns w l c r a (w'.hasRole c r a) := by
  have hroles : w'.roles ≠ w.roles := fun he => hne (by rw [World.hasRole, World.hasRole, he])
  obtain ⟨hadm, hexec⟩ := h
  obtain ⟨⟨msg, tx⟩, settled⟩ := l
  cases htx : tx with
  | config c' =>
    subst htx
    have hrun := (unsettled_ok.1 hexec).1
    cases hc : c'.assigns with
    | false => exact absurd (execConfig_roles hc w' hrun) hroles
    | true =>
      cases c' with
      | changeRole c₀ r₀ a₀ held =>
        have hadmin := execConfig_authorized rfl hrun
        simp only [execConfig, KryonUpgradeable.changeRole, bind_ok_iff, pure_ok] at hrun
        obtain ⟨_, -, rfl⟩ := hrun
        obtain ⟨rfl, rfl, rfl, hheld⟩ := setRole_changes hne
        rw [hheld]
        exact .changed rfl hadmin
      | renounceRole c₀ r₀ =>
        simp only [execConfig, KryonUpgradeable.renounceRole, pure_ok] at hrun
        subst hrun
        obtain ⟨rfl, rfl, hsender, hheld⟩ := setRole_changes hne
        exact .renounced rfl hsender hheld
      | setPublishers keys =>
        have hadmin := execConfig_authorized rfl hrun
        simp only [execConfig, OracleAdapter.setPublishers, bind_ok_iff, pure_ok] at hrun
        obtain ⟨_, -, _, -, _, -, rfl⟩ := hrun
        have hc : c = .oracle := by
          by_contra hc
          exact hne (by simp [World.hasRole, Function.update_of_ne hc])
        subst hc
        simp only [World.hasRole, Function.update_self, grantPublishers_apply] at hne ⊢
        have hr : r = .publisher := by
          by_contra hr
          simp [hr] at hne
        subst hr
        refine .published rfl rfl rfl hadmin ?_
        by_cases hkey : a ∈ keys
        · simp [hkey]
        · -- A key that is not among the new publishers changed only if it was one of the old ones.
          by_cases hold : a ∈ w.oracle.publishers
          · simp [hkey, hold]
          · simp [hkey, hold] at hne
      | _ => exact absurd hc (by simp [Config.assigns])
  | _ =>
    have hsame := effect_sameConfig (fun c hc => by rw [htx] at hc; exact absurd hc (by simp)) (exec_effect hadm hexec)
    exact absurd hsame.roles hroles

/-- **Where a role comes from.** If an account holds a role after a run that it did not hold before it, or lost one that it
held, then some call of the run gave or took it: the administrator of that contract's roles did so then, the holder gave
it up itself, or the oracle's administrator replaced the publishers. -/
theorem role_provenance {c : Contract} {r : Role} {a : Address} (h : Run (machine D env) w ls w')
    (hne : w'.hasRole c r a ≠ w.hasRole c r a) :
    ∃ before u l v after, ls = before ++ l :: after ∧ Run (machine D env) w before u ∧ (machine D env).step u l v ∧
      Run (machine D env) v after w' ∧ u.hasRole c r a = w.hasRole c r a ∧ Reassigns u l c r a (w'.hasRole c r a) := by
  obtain ⟨before, u, l, v, after, hls, hbefore, hstep, hafter, hu, hv, -⟩ :=
    h.breaks (fun s => s.hasRole c r a = w.hasRole c r a) (fun _ _ => True) (fun _ _ _ hn => absurd trivial hn) rfl hne
  have hre := step_reassigns hstep (by rw [hu]; exact hv)
  have hflip : ∀ {x y z : Bool}, x ≠ y → z ≠ y → x = z := by decide
  rw [hflip hv hne] at hre
  exact ⟨before, u, l, v, after, hls, hbefore, hstep, hafter, hu, hre⟩

/-- Alice is made a publisher along the way. -/
theorem role_provenance_hostile :
    ∃ before u l v after, trace Sample.deployment Sample.env Sample.genesis Sample.hostile = before ++ l :: after ∧
      Run (machine Sample.deployment Sample.env) Sample.genesis before u ∧
      (machine Sample.deployment Sample.env).step u l v ∧
      Run (machine Sample.deployment Sample.env) v after (Sample.outcome Sample.hostile) ∧
      u.hasRole .oracle .publisher Sample.alice = Sample.genesis.hasRole .oracle .publisher Sample.alice ∧
      Reassigns u l .oracle .publisher Sample.alice
        ((Sample.outcome Sample.hostile).hasRole .oracle .publisher Sample.alice) :=
  role_provenance (Sample.outcome_run Sample.hostile (by decide +kernel)) (by decide +kernel)

/-! ## Callers without a role -/

/-- An account that holds no role of any contract. -/
def Outsider (w : World) (a : Address) : Prop := ∀ c r, w.hasRole c r a = false

/-- What only a settlement, the keeper and the administrators write: the progress of orders, the funding and mark of each
market, and the limits of the backstop's unwinds. -/
structure Undriven (w w' : World) : Prop where
  orderState : w'.gateway.orderState = w.gateway.orderState
  funding : w'.engine.funding = w.engine.funding
  marks : w'.engine.marks = w.engine.marks
  unwoundOnDay : w'.insurance.unwoundOnDay = w.insurance.unwoundOnDay
  maxUnwindDeviationBps : w'.insurance.maxUnwindDeviationBps = w.insurance.maxUnwindDeviationBps
  maxUnwindFillNotional : w'.insurance.maxUnwindFillNotional = w.insurance.maxUnwindFillNotional
  maxUnwindDailyNotional : w'.insurance.maxUnwindDailyNotional = w.insurance.maxUnwindDailyNotional

/-- Everything that governs the protocol: roles, pauses, prices, parameters, fees and caps. -/
structure Governed (w w' : World) : Prop extends SameConfig w w', SameCaps w w', Undriven w w' where
  pauses : w'.pauses = w.pauses
  oracle : w'.oracle = w.oracle

theorem Undriven.refl (w : World) : Undriven w w := ⟨rfl, rfl, rfl, rfl, rfl, rfl, rfl⟩

theorem Undriven.trans {w₁ w₂ w₃ : World} (h : Undriven w₁ w₂) (h' : Undriven w₂ w₃) : Undriven w₁ w₃ :=
  ⟨h'.1.trans h.1, h'.2.trans h.2, h'.3.trans h.3, h'.4.trans h.4, h'.5.trans h.5, h'.6.trans h.6, h'.7.trans h.7⟩

theorem Governed.refl (w : World) : Governed w w :=
  ⟨.refl w, (SameCounters.refl w).toSameCaps, .refl w, rfl, rfl⟩

theorem Governed.trans {w₁ w₂ w₃ : World} (h : Governed w₁ w₂) (h' : Governed w₂ w₃) : Governed w₁ w₃ :=
  ⟨h.toSameConfig.trans h'.toSameConfig, h.toSameCaps.trans h'.toSameCaps, h.toUndriven.trans h'.toUndriven,
    h'.pauses.trans h.pauses, h'.oracle.trans h.oracle⟩

theorem undriven_of_moves (h : Moves w w') (he : w'.engine = w.engine) : Undriven w w' := by
  have hi := h.insurance
  exact ⟨by rw [h.gateway], by rw [he], by rw [he], by rw [hi], by rw [hi], by rw [hi], by rw [hi]⟩

theorem undriven_of_frames (h : Frames w w') (hf : w'.engine.funding = w.engine.funding)
    (hm : w'.engine.marks = w.engine.marks) : Undriven w w' := by
  have hi := h.insurance
  exact ⟨by rw [h.gateway], hf, hm, by rw [hi], by rw [hi], by rw [hi], by rw [hi]⟩

theorem payPenalty_engine {trader : Address} {marketId : MarketId} {closeSize price : Int}
    (h : Liquidation.payPenalty D w msg trader marketId closeSize price = .ok w') : w'.engine = w.engine := by
  obtain ⟨-, hengine, -⟩ := payPenalty_clears h
  exact hengine

theorem liquidate_undriven {trader : Address} {marketId : MarketId} {maxSize : Nat}
    (h : Liquidation.liquidate D w msg trader marketId maxSize = .ok w') : Undriven w w' := by
  have hframes := (liquidate_clears h).2.2.1.toFrames
  obtain ⟨-, -, _, _, _, w₁, _, w₂, _, -, -, htransfer, hpay, -, -, hw⟩ := liquidate_ok h
  obtain ⟨d, v, w₃, x, y, -, -, -, -, rfl, -, rfl, -⟩ := Engine.liquidationTransfer_ok htransfer
  have hengine := payPenalty_engine hpay
  have hcovered : w'.engine = w₂.engine := by
    rcases hw with ⟨rfl, -⟩ | rfl
    · exact (coveredWorld_clears trader).2.1
    · rfl
  refine undriven_of_frames hframes ?_ ?_
  · rw [hcovered, hengine]
    rfl
  · rw [hcovered, hengine]
    rfl

theorem adl_undriven {counterparty : Address} {marketId : MarketId} {maxSize : Nat}
    (h : Liquidation.adl D w counterparty marketId maxSize = .ok w') : Undriven w w' := by
  have hframes := (adl_clears h).2.2.1.toFrames
  simp only [Liquidation.adl, bind_ok_iff, World.whenNotPaused_ok, revertIf_ok, exists_const] at h
  obtain ⟨-, -, -, shortfall, -, -, -, -, price, -, n, -, -, paying, -, -, ⟨w₁, realized⟩, htransfer, h⟩ := h
  obtain ⟨d, v, w₂, x, y, -, -, -, rfl, -, -, rfl, -⟩ := Engine.adlTransfer_ok htransfer
  rw [transferIf_ok h] at hframes ⊢
  exact undriven_of_frames hframes rfl rfl

/-- **A call that needs no role drives nothing.** -/
theorem exec_undriven {call : Call} {settled : List Settled} (hr : call.tx.authority = none)
    (hc : ∀ c, call.tx ≠ .config c) (hadm : call.Admissible D w) (hexec : exec D env w call = .ok (w', settled)) :
    Undriven w w' ∧ settled = [] := by
  obtain ⟨msg, tx⟩ := call
  have hsender : ∀ c, msg.sender ≠ D.address c := fun c hc => hadm.1 ⟨c, hc.symm⟩
  cases tx with
  | config c => exact absurd rfl (hc c)
  | settleFillsSigned fills | updateFunding marketId | sweepToOperating amount => exact absurd hr (by simp [Tx.authority])
  | moveUsdc balances | wait seconds =>
    simp only [exec, pure_ok, Prod.mk.injEq] at hexec
    obtain ⟨rfl, hs⟩ := hexec
    exact ⟨⟨rfl, rfl, rfl, rfl, rfl, rfl, rfl⟩, hs.symm⟩
  | cancelOrder nonce =>
    obtain ⟨h, hs⟩ := unsettled_ok.1 hexec
    rw [pure_ok] at h
    subst h
    exact ⟨⟨rfl, rfl, rfl, rfl, rfl, rfl, rfl⟩, hs⟩
  | cancelOrders nonces =>
    obtain ⟨h, hs⟩ := unsettled_ok.1 hexec
    rw [pure_ok] at h
    subst h
    obtain ⟨cancelled, heq, -⟩ := cancelOrders_eq w msg nonces
    rw [heq]
    exact ⟨⟨rfl, rfl, rfl, rfl, rfl, rfl, rfl⟩, hs⟩
  | cancelUpTo newMinNonce =>
    obtain ⟨h, hs⟩ := unsettled_ok.1 hexec
    simp only [OrderGateway.cancelUpTo, bind_ok_iff, pure_ok] at h
    obtain ⟨_, -, rfl⟩ := h
    exact ⟨⟨rfl, rfl, rfl, rfl, rfl, rfl, rfl⟩, hs⟩
  | cancelSigned c signature =>
    obtain ⟨h, hs⟩ := unsettled_ok.1 hexec
    simp only [OrderGateway.cancelSigned, bind_ok_iff, pure_ok] at h
    obtain ⟨_, -, _, -, rfl⟩ := h
    exact ⟨⟨rfl, rfl, rfl, rfl, rfl, rfl, rfl⟩, hs⟩
  | deposit amount | depositFor account amount | depositWithPermit2 token amount =>
    obtain ⟨h, hs⟩ := unsettled_ok.1 hexec
    simp only [Vault.deposit, Vault.depositFor, Vault.depositWithPermit2, bind_ok_iff, World.whenNotPaused_ok,
      revertIf_ok, exists_const] at h
    have hpull : ∃ account, Vault.pullAndCredit D w msg msg.sender account amount = .ok w' := by
      first
        | exact ⟨_, h.2⟩
        | exact ⟨_, h.2.2⟩
    obtain ⟨account, hpull⟩ := hpull
    obtain ⟨hmoves, hengine, -⟩ := pullAndCredit_clears (hsender .vault) hpull
    exact ⟨undriven_of_moves hmoves hengine, hs⟩
  | withdrawTo recipient amount =>
    obtain ⟨h, hs⟩ := unsettled_ok.1 hexec
    obtain ⟨hmoves, hengine, -⟩ := withdrawTo_clears h
    exact ⟨undriven_of_moves hmoves hengine, hs⟩
  | donate amount =>
    obtain ⟨h, hs⟩ := unsettled_ok.1 hexec
    simp only [Insurance.donate, bind_ok_iff, World.whenNotPaused_ok, revertIf_ok, exists_const] at h
    obtain ⟨hmoves, hengine, -⟩ := pullIntoVault_clears (hsender .vault) h.2.2
    exact ⟨undriven_of_moves hmoves hengine, hs⟩
  | stake amount =>
    obtain ⟨h, hs⟩ := unsettled_ok.1 hexec
    obtain ⟨w₁, minted, hpull, -, -, rfl⟩ := stake_ok h
    obtain ⟨hmoves, hengine, -⟩ := pullIntoVault_clears (hsender .vault) hpull
    have hpulled := undriven_of_moves hmoves hengine
    exact ⟨hpulled.trans ⟨rfl, rfl, rfl, rfl, rfl, rfl, rfl⟩, hs⟩
  | requestUnstake shares =>
    obtain ⟨h, hs⟩ := unsettled_ok.1 hexec
    obtain ⟨-, -, rfl⟩ := requestUnstake_ok h
    exact ⟨⟨rfl, rfl, rfl, rfl, rfl, rfl, rfl⟩, hs⟩
  | withdrawUnstaked =>
    obtain ⟨h, hs⟩ := unsettled_ok.1 hexec
    obtain ⟨-, -, ⟨-, rfl⟩ | ⟨-, w₁, amount, rfl, h | rfl⟩⟩ := withdrawUnstaked_ok h
    · exact ⟨⟨rfl, rfl, rfl, rfl, rfl, rfl, rfl⟩, hs⟩
    · obtain ⟨hmoves, hengine, -⟩ := withdrawTo_clears h
      have hredeemed : Undriven w (withInsurance w (redeemedPool w.insurance msg.sender
          (redeemedShares w.insurance msg.sender) (amount * Decimals.SCALE))) := ⟨rfl, rfl, rfl, rfl, rfl, rfl, rfl⟩
      exact ⟨hredeemed.trans (undriven_of_moves hmoves hengine), hs⟩
    · exact ⟨⟨rfl, rfl, rfl, rfl, rfl, rfl, rfl⟩, hs⟩
  | settleBadDebt trader =>
    obtain ⟨h, hs⟩ := unsettled_ok.1 hexec
    rw [map_ok] at h
    obtain ⟨⟨w₁, covered⟩, hcover, rfl⟩ := h
    obtain ⟨-, -, -, -, rfl⟩ := settleBadDebt_ok hcover
    obtain ⟨hmoves, hengine, -⟩ := coveredWorld_clears (D := D) (w := w) trader
    exact ⟨undriven_of_moves hmoves hengine, hs⟩
  | liquidate trader marketId maxSize =>
    obtain ⟨h, hs⟩ := unsettled_ok.1 hexec
    exact ⟨liquidate_undriven h, hs⟩
  | adl counterparty marketId maxSize =>
    obtain ⟨h, hs⟩ := unsettled_ok.1 hexec
    exact ⟨adl_undriven h, hs⟩
  | claimTreasury =>
    obtain ⟨h, hs⟩ := unsettled_ok.1 hexec
    rcases claimTreasury_ok h with rfl | ⟨w₁, amount, -, rfl, h⟩
    · exact ⟨.refl _, hs⟩
    · obtain ⟨hmoves, hengine, -⟩ := withdrawTo_clears h
      have hclaimed : Undriven w (withBuckets w (w.feeRouter.treasuryAccrued - amount * Decimals.SCALE)
          w.feeRouter.referralAccrued w.feeRouter.totalReferralAccrued) := ⟨rfl, rfl, rfl, rfl, rfl, rfl, rfl⟩
      exact ⟨hclaimed.trans (undriven_of_moves hmoves hengine), hs⟩
  | claimReferral referrer =>
    obtain ⟨h, hs⟩ := unsettled_ok.1 hexec
    rcases claimReferral_ok h with rfl | ⟨w₁, amount, -, rfl, h⟩
    · exact ⟨.refl _, hs⟩
    · obtain ⟨hmoves, hengine, -⟩ := withdrawTo_clears h
      have hclaimed : Undriven w (withBuckets w w.feeRouter.treasuryAccrued
          (Book.post w.feeRouter.referralAccrued referrer (-(amount * Decimals.SCALE)))
          (w.feeRouter.totalReferralAccrued - amount * Decimals.SCALE)) := ⟨rfl, rfl, rfl, rfl, rfl, rfl, rfl⟩
      exact ⟨hclaimed.trans (undriven_of_moves hmoves hengine), hs⟩

theorem Counts.sameCaps {call : Call} (h : Counts D w call w') : SameCaps w w' := by
  cases h with
  | deposited _ _ h => exact h.toSameCaps
  | withdrawn _ _ h => exact h.toSameCaps
  | paid _ _ _ h => exact h.toSameCaps
  | none _ _ h => exact h.toSameCaps

/-- Giving up a role one does not hold changes nothing. -/
theorem renounceRole_outsider {c : Contract} {r : Role} {a : Address} (ha : w.hasRole c r a = false) :
    KryonUpgradeable.setRole w c r a false = w := by
  have hrole : Function.update (w.roles c r) a false = w.roles c r := Function.update_eq_self_iff.2 ha.symm
  have hroles : Function.update (w.roles c) r (w.roles c r) = w.roles c := Function.update_eq_self _ _
  unfold KryonUpgradeable.setRole
  rw [hrole, hroles, Function.update_eq_self]

/-- **A step by an outsider governs nothing.** -/
theorem step_governed (ha : Outsider w l.call.msg.sender) (h : (machine D env).step w l w') :
    Governed w w' ∧ l.settled = [] := by
  obtain ⟨hadm, hexec⟩ := h
  have hauth : l.call.tx.authority = none := by
    by_contra hne
    obtain ⟨r, hr⟩ := Option.ne_none_iff_exists'.1 hne
    exact absurd (exec_authorized hr hexec) (by simp [ha r.1 r.2])
  obtain ⟨⟨msg, tx⟩, settled⟩ := l
  by_cases hc : ∃ c, tx = .config c
  · obtain ⟨c, rfl⟩ := hc
    obtain ⟨hrun, hs⟩ := unsettled_ok.1 hexec
    cases c with
    | renounceRole c r =>
      simp only [execConfig, KryonUpgradeable.renounceRole, pure_ok] at hrun
      rw [renounceRole_outsider (ha c r)] at hrun
      subst hrun
      exact ⟨.refl _, hs⟩
    | _ => exact absurd hauth (by simp [Tx.authority, Config.authority])
  · have hc' : ∀ c, tx ≠ .config c := fun c hc' => hc ⟨c, hc'⟩
    have heffect := exec_effect hadm hexec
    have hoperates := effect_operates hc' heffect
    have hcounts : Counts D w ⟨msg, tx⟩ w' := exec_counts hc' hexec
    obtain ⟨hundriven, hs⟩ := exec_undriven hauth hc' hadm hexec
    exact ⟨⟨effect_sameConfig hc' heffect, hcounts.sameCaps, hundriven,
      hoperates.pauses, hoperates.oracle⟩, hs⟩

/-- **Accounts without a role govern nothing.**  However long and in whatever order accounts that hold no role of any
contract call the protocol, and whatever time passes, every role, pause, price, market parameter, fee, cap and limit stays
as it was, no order makes progress, no fill settles and no funding index or mark moves. -/
theorem outsiders (h : Run (machine D env) w ls w') (hls : ∀ l ∈ ls, Outsider w l.call.msg.sender) :
    Governed w w' ∧ history ls = [] := by
  induction h with
  | nil => exact ⟨.refl w, rfl⟩
  | @snoc u v ls l h hl ih =>
    obtain ⟨hu, hnone⟩ := ih fun l hmem => hls l (List.mem_append.2 (Or.inl hmem))
    have hsender := hls l (List.mem_append.2 (Or.inr (List.mem_singleton_self l)))
    have hstill : Outsider u l.call.msg.sender := fun c r => by rw [World.hasRole, hu.roles]; exact hsender c r
    obtain ⟨hv, hsettled⟩ := step_governed hstill hl
    exact ⟨hu.trans hv, by rw [history_snoc, hnone, hsettled]; rfl⟩

namespace Sample

/-- What Carol does once Alice is bankrupt. -/
def closing : List Call := [call carol (.liquidate alice 1 (10 ^ 30)), call carol (.donate (10 * 10 ^ 6))]

end Sample

theorem outsiders_closing :
    ∃ w', Governed (Sample.outcome Sample.crashing) w' ∧
      history (trace Sample.deployment Sample.env (Sample.outcome Sample.crashing) Sample.closing) = [] := by
  have hok : (script Sample.deployment Sample.env (Sample.outcome Sample.crashing) Sample.closing).isOk = true := by
    decide +kernel
  have hsenders : (trace Sample.deployment Sample.env (Sample.outcome Sample.crashing) Sample.closing).map
      (fun l => l.call.msg.sender) = [Sample.carol, Sample.carol] := by
    decide +kernel
  have hcarol : Outsider (Sample.outcome Sample.crashing) Sample.carol := by
    intro c r
    cases c <;> cases r <;> decide +kernel
  obtain ⟨w', hs⟩ := ok_of_isOk hok
  refine ⟨w', outsiders (script_run _ _ _ hs) fun l hl => ?_⟩
  have hmem := List.mem_map_of_mem (f := fun l : Label => l.call.msg.sender) hl
  rw [hsenders] at hmem
  have hsender : l.call.msg.sender = Sample.carol := by simpa using hmem
  rw [hsender]
  exact hcarol

end Kryon
