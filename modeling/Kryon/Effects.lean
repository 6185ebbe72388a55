import Kryon.Settlement
/-!
# Effects — what each transaction does to the books

A configuration call touches no balance, position, share or order (`Configures`).  Every other transaction clears a list
of events: the surplus moves by the USDC that reached the vault other than as a deposit (`donation`), and an account that
cannot sign is never traded on (`Quiet`).
-/
namespace Kryon

open Program
open Clearing (Event Step)
open Transition
open OrderGateway (Settled)

variable {D : Deployment} {env : Env} {w w' : World} {msg : Msg}

/-! ## Configuration -/

/-- What a configuration call leaves alone. -/
structure Configures (w w' : World) : Prop where
  timestamp : w'.timestamp = w.timestamp
  usdc : w'.usdc = w.usdc
  engine : w'.engine = w.engine
  gateway : w'.gateway = w.gateway
  balances : w'.vault.balances = w.vault.balances
  totalLedger : w'.vault.totalLedger = w.vault.totalLedger
  treasuryAccrued : w'.feeRouter.treasuryAccrued = w.feeRouter.treasuryAccrued
  referralAccrued : w'.feeRouter.referralAccrued = w.feeRouter.referralAccrued
  totalReferralAccrued : w'.feeRouter.totalReferralAccrued = w.feeRouter.totalReferralAccrued
  insurance : w'.insurance = { w.insurance with
    maxUnwindDeviationBps := w'.insurance.maxUnwindDeviationBps
    maxUnwindFillNotional := w'.insurance.maxUnwindFillNotional
    maxUnwindDailyNotional := w'.insurance.maxUnwindDailyNotional }

/-- **No configuration call touches a balance, a position, a share or an order.** -/
theorem execConfig_configures (c : Config) : Returns (Configures w) (execConfig D w msg c) := by
  cases c <;>
    simp only [execConfig, KryonUpgradeable.pause, KryonUpgradeable.pauseIndefinitely, KryonUpgradeable.unpause,
      KryonUpgradeable.changeRole, KryonUpgradeable.renounceRole, Vault.setDepositCaps, Vault.setCapExempt,
      Vault.setCollateral, RiskParams.setMarket, RiskParams.setMarketActive, RiskParams.setFundingConfig,
      RiskParams.setOiPolicy, RiskParams.setMaxTotalOiPolicyBps, OracleAdapter.setPublishers, OracleAdapter.setFeed,
      OracleAdapter.setReferenceFeed, OracleAdapter.pushPrices, FeeRouter.setMarketFees, FeeRouter.defineTier,
      FeeRouter.setAccountTier, FeeRouter.setMinNetRate, FeeRouter.setRebatesEnabled, FeeRouter.setReferralsEnabled,
      FeeRouter.setReferrerApproved, FeeRouter.setSplit, FeeRouter.setLiquidationSplit, FeeRouter.setTreasury,
      Insurance.setUnwindLimits, Liquidation.setParams] <;>
    repeat' first
      | exact Returns.pure ⟨rfl, rfl, rfl, rfl, rfl, rfl, rfl, rfl, rfl, rfl⟩
      | refine Returns.bind fun _ => ?_

theorem Configures.books (h : Configures w w') : books D w' = books D w := by
  simp only [Kryon.books, h.usdc, h.engine, h.balances, h.totalLedger]

/-! ## The staking pool -/

def withInsurance (w : World) (i : InsuranceStorage) : World := { w with insurance := i }

@[simp] theorem withInsurance_insurance (i : InsuranceStorage) : (withInsurance w i).insurance = i := rfl

/-- The pool at `nav` and `total` once `staker` holds `held` shares of the present epoch. -/
def stakedPool (i : InsuranceStorage) (staker : Address) (nav total held : Int) : InsuranceStorage :=
  { i with
    stakedBalance := nav
    totalShares := total
    shares := Function.update i.shares staker ⟨i.epoch, held⟩ }

theorem stake_ok {amount : Nat} (h : Insurance.stake D w msg amount = .ok w') :
    ∃ w₁ minted, Insurance.pullIntoVault D w msg amount = .ok w₁ ∧ 0 < minted ∧
      Insurance.sharesFor (amount * Decimals.SCALE) w.insurance.totalShares w.insurance.stakedBalance = .ok minted ∧
      w' = withInsurance w₁ (stakedPool w₁.insurance msg.sender
        (w.insurance.stakedBalance + amount * Decimals.SCALE) (w.insurance.totalShares + minted)
        (Insurance.sharesOf w₁ msg.sender + minted)) := by
  simp only [Insurance.stake, bind_ok_iff, World.whenNotPaused_ok, revertIf_ok, Decimals.toInternal_ok, M.add_ok,
    pure_ok, exists_const, not_le] at h
  obtain ⟨-, -, _, ⟨-, rfl⟩, w₁, hpull, minted, hminted, hpos, _, ⟨-, rfl⟩, _, ⟨-, rfl⟩, _, ⟨-, rfl⟩, rfl⟩ := h
  exact ⟨w₁, minted, hpull, hpos, hminted, rfl⟩

/-- The pool once `staker` has the request `req`. -/
def requestedPool (i : InsuranceStorage) (staker : Address) (req : PendingUnstake) : InsuranceStorage :=
  { i with pending := Function.update i.pending staker req }

theorem requestUnstake_ok {shares : Int} (h : Insurance.requestUnstake w msg shares = .ok w') :
    0 < shares ∧ shares ≤ Insurance.sharesOf w msg.sender ∧
      w' = withInsurance w (requestedPool w.insurance msg.sender
        ⟨shares, w.timestamp + Insurance.UNSTAKE_COOLDOWN, w.insurance.epoch⟩) := by
  simp only [Insurance.requestUnstake, bind_ok_iff, World.whenNotPaused_ok, revertIf_ok, pure_ok, exists_const, not_le,
    not_lt, gt_iff_lt] at h
  obtain ⟨-, hpos, hheld, -, rfl⟩ := h
  exact ⟨hpos, hheld, rfl⟩

/-- The pool once the caller's stale shares are dropped. -/
def clearedPool (i : InsuranceStorage) (staker : Address) : InsuranceStorage :=
  { requestedPool i staker ⟨0, 0, 0⟩ with shares := Function.update i.shares staker ⟨0, 0⟩ }

/-- The pool after `staker` redeems `shares` for `paid`. -/
def redeemedPool (i : InsuranceStorage) (staker : Address) (shares paid : Int) : InsuranceStorage :=
  { requestedPool i staker ⟨0, 0, 0⟩ with
    stakedBalance := i.stakedBalance - paid
    totalShares := i.totalShares - shares
    shares := Function.update i.shares staker
      { i.shares staker with shares := (i.shares staker).shares - shares } }

/-- The shares a live redemption burns. -/
def redeemedShares (i : InsuranceStorage) (staker : Address) : Int :=
  min (i.pending staker).shares (i.shares staker).shares

/-- **A redemption is stale or live**: a stale one clears the caller's shares, a live one burns the requested ones. -/
theorem withdrawUnstaked_ok (h : Insurance.withdrawUnstaked D w msg = .ok w') :
    0 < (w.insurance.pending msg.sender).shares ∧ (w.insurance.pending msg.sender).unlockTime ≤ w.timestamp ∧
      (((w.insurance.pending msg.sender).epoch ≠ w.insurance.epoch ∧
        w' = withInsurance w (clearedPool w.insurance msg.sender)) ∨
      ((w.insurance.pending msg.sender).epoch = w.insurance.epoch ∧ ∃ (w₁ : World) (amount : Nat),
        w₁ = withInsurance w (redeemedPool w.insurance msg.sender (redeemedShares w.insurance msg.sender)
          (amount * Decimals.SCALE)) ∧
        (Vault.withdrawTo D w₁ msg D.insurance msg.sender amount = .ok w' ∨ w' = w₁))) := by
  simp only [Insurance.withdrawUnstaked, bind_ok_iff, World.whenNotPaused_ok, revertIf_ok, exists_const, not_le,
    not_lt] at h
  obtain ⟨-, hpos, htime, h⟩ := h
  refine ⟨hpos, htime, ?_⟩
  split at h
  · rename_i hstale
    rw [pure_ok] at h
    exact Or.inl ⟨hstale, h.symm⟩
  · rename_i hlive
    simp only [bind_ok_iff, Decimals.toInternal_ok, M.min_eq] at h
    obtain ⟨redeemable, -, payout, -, amount, -, _, ⟨-, rfl⟩, h⟩ := h
    refine Or.inr ⟨not_not.1 hlive, _, amount, rfl, ?_⟩
    split at h
    · exact Or.inl h
    · rw [pure_ok] at h
      exact Or.inr h.symm

/-- The pool after `swept` is taken from the stakers; an emptied one retires the epoch. -/
def sweptPool (i : InsuranceStorage) (swept : Int) : InsuranceStorage :=
  if i.stakedBalance - swept = 0 ∧ i.totalShares > 0 then
    { i with stakedBalance := 0, epoch := i.epoch + 1, totalShares := 0 }
  else { i with stakedBalance := i.stakedBalance - swept }

theorem sweepToOperating_ok {amount : Int} (h : Insurance.sweepToOperating w msg amount = .ok w') :
    ∃ swept, 0 ≤ swept ∧ (swept = 0 ∨ swept ≤ w.insurance.stakedBalance) ∧
      (w' = w ∨ w' = withInsurance w (sweptPool w.insurance swept)) := by
  simp only [Insurance.sweepToOperating, bind_ok_iff, World.onlyRole_ok, revertIf_ok, exists_const, M.min_eq] at h
  obtain ⟨-, -, h⟩ := h
  split at h
  · rw [pure_ok] at h
    exact ⟨0, le_refl 0, Or.inl rfl, Or.inl h.symm⟩
  · rename_i hswept
    refine ⟨Min.min amount w.insurance.stakedBalance, by omega, Or.inr (min_le_right _ _), Or.inr ?_⟩
    split at h
    · rename_i hempty
      simp only [bind_ok_iff, revertIf_ok, pure_ok, exists_const] at h
      rw [sweptPool, if_pos hempty, ← h.2, hempty.1]
      rfl
    · rename_i hne
      rw [pure_ok] at h
      rw [sweptPool, if_neg hne, ← h]
      rfl

/-! ## Claims -/

/-- The fee router's buckets. -/
def withBuckets (w : World) (treasury : Int) (referral : Address → Int) (total : Int) : World :=
  { w with feeRouter := { w.feeRouter with
    treasuryAccrued := treasury
    referralAccrued := referral
    totalReferralAccrued := total } }

theorem charges_withBuckets (treasury : Int) (referral : Address → Int) (total : Int) :
    Charges w (withBuckets w treasury referral total) := ⟨Frames.mk rfl rfl rfl rfl rfl rfl rfl rfl id, rfl⟩

/-- **A treasury claim takes from the bucket what it withdraws.** -/
theorem claimTreasury_ok (h : FeeRouter.claimTreasury D w msg = .ok w') :
    w' = w ∨ ∃ (w₁ : World) (amount : Nat), amount * Decimals.SCALE ≤ w.feeRouter.treasuryAccrued ∧
      w₁ = withBuckets w (w.feeRouter.treasuryAccrued - amount * Decimals.SCALE) w.feeRouter.referralAccrued
        w.feeRouter.totalReferralAccrued ∧
      Vault.withdrawTo D w₁ msg D.feeRouter w.feeRouter.treasury amount = .ok w' := by
  simp only [FeeRouter.claimTreasury, bind_ok_iff] at h
  obtain ⟨amount, hamount, h⟩ := h
  split at h
  · rw [pure_ok] at h
    exact Or.inl h.symm
  · simp only [bind_ok_iff, Decimals.toInternal_ok] at h
    obtain ⟨_, ⟨-, rfl⟩, h⟩ := h
    exact Or.inr ⟨_, amount, Decimals.toTokenDown_le hamount, rfl, h⟩

/-- **A referral claim takes from the referrer's bucket what it withdraws.** -/
theorem claimReferral_ok {referrer : Address} (h : FeeRouter.claimReferral D w msg referrer = .ok w') :
    w' = w ∨ ∃ (w₁ : World) (amount : Nat), amount * Decimals.SCALE ≤ w.feeRouter.referralAccrued referrer ∧
      w₁ = withBuckets w w.feeRouter.treasuryAccrued
        (Book.post w.feeRouter.referralAccrued referrer (-(amount * Decimals.SCALE)))
        (w.feeRouter.totalReferralAccrued - amount * Decimals.SCALE) ∧
      Vault.withdrawTo D w₁ msg D.feeRouter referrer amount = .ok w' := by
  simp only [FeeRouter.claimReferral, bind_ok_iff] at h
  obtain ⟨amount, hamount, h⟩ := h
  split at h
  · rw [pure_ok] at h
    exact Or.inl h.symm
  · simp only [bind_ok_iff, Decimals.toInternal_ok] at h
    obtain ⟨_, ⟨-, rfl⟩, h⟩ := h
    exact Or.inr ⟨_, amount, Decimals.toTokenDown_le hamount, rfl, h⟩

/-! ## What a transaction runs -/

variable {call : Call} {settled : List Settled}

/-- The staking calls. -/
def Tx.stakes : Tx → Bool
  | .stake _ | .requestUnstake _ | .withdrawUnstaked | .sweepToOperating _ => true
  | _ => false

/-- The calls that move money and positions, one at a time. -/
def Tx.charges : Tx → Bool
  | .deposit _ | .depositFor _ _ | .depositWithPermit2 _ _ | .withdrawTo _ _ | .updateFunding _ | .donate _
  | .settleBadDebt _ | .liquidate _ _ _ | .adl _ _ _ | .claimTreasury | .claimReferral _ => true
  | _ => false

/-- The cancellations. -/
def Tx.cancels : Tx → Bool
  | .cancelOrder _ | .cancelOrders _ | .cancelUpTo _ | .cancelSigned _ _ => true
  | _ => false

def withCancels (w : World) (cancelled : Address × Nat → Bool) (minNonce : Address → Nat) : World :=
  { w with gateway := { w.gateway with cancelled := cancelled, minNonce := minNonce } }

theorem cancel_cancelled (owner : Address) (nonce : Nat) {k : Address × Nat} (h : w.gateway.cancelled k = true) :
    (OrderGateway.cancel w owner nonce).gateway.cancelled k = true := by
  simp only [OrderGateway.cancel]
  by_cases hk : k = (owner, nonce)
  · rw [hk, Function.update_self]
  · rw [Function.update_of_ne hk]
    exact h

theorem cancelOrders_eq (w : World) (msg : Msg) (nonces : List Nat) :
    ∃ cancelled, OrderGateway.cancelOrders w msg nonces = withCancels w cancelled w.gateway.minNonce ∧
      ∀ k, w.gateway.cancelled k = true → cancelled k = true := by
  unfold OrderGateway.cancelOrders
  induction nonces generalizing w with
  | nil => exact ⟨w.gateway.cancelled, rfl, fun _ => id⟩
  | cons n nonces ih =>
    obtain ⟨cancelled, heq, hmono⟩ := ih (OrderGateway.cancel w msg.sender n)
    refine ⟨cancelled, ?_, fun k hk => hmono k (cancel_cancelled msg.sender n hk)⟩
    rw [List.foldl_cons, heq]
    rfl

@[simp] theorem unsettled_ok {x : Except Error World} {settled : List Settled} :
    unsettled x = .ok (w', settled) ↔ x = .ok w' ∧ settled = [] := by
  simp only [unsettled, bind_ok_iff, pure_ok, Prod.mk.injEq]
  constructor
  · rintro ⟨w₁, hx, rfl, rfl⟩
    exact ⟨hx, rfl⟩
  · rintro ⟨hx, rfl⟩
    exact ⟨w', hx, rfl, rfl⟩

/-- Only the staking pool differs. -/
structure Repools (i i' : InsuranceStorage) : Prop where
  recordedDebt : i'.recordedDebt = i.recordedDebt
  badDebt : i'.badDebt = i.badDebt
  unwoundOnDay : i'.unwoundOnDay = i.unwoundOnDay

/-- What a transaction that returns ran, past the guards of its entry point. -/
inductive Ran (D : Deployment) (env : Env) (w : World) (msg : Msg) : Tx → World → List Settled → Prop where
  | config {c : Config} {w' : World} (h : execConfig D w msg c = .ok w') : Ran D env w msg (.config c) w' []
  | deposit {amount : Nat} {w' : World} (h : Vault.pullAndCredit D w msg msg.sender msg.sender amount = .ok w') :
      Ran D env w msg (.deposit amount) w' []
  | depositFor {account : Address} {amount : Nat} {w' : World}
      (h : Vault.pullAndCredit D w msg msg.sender account amount = .ok w') :
      Ran D env w msg (.depositFor account amount) w' []
  | depositWithPermit2 {token : Address} {amount : Nat} {w' : World}
      (h : Vault.pullAndCredit D w msg msg.sender msg.sender amount = .ok w') :
      Ran D env w msg (.depositWithPermit2 token amount) w' []
  | withdrawTo {recipient : Address} {amount : Nat} {w' : World}
      (h : Vault.withdrawTo D w msg msg.sender recipient amount = .ok w') :
      Ran D env w msg (.withdrawTo recipient amount) w' []
  | updateFunding {marketId : MarketId} {w' : World} (h : Engine.updateFunding w msg marketId = .ok w') :
      Ran D env w msg (.updateFunding marketId) w' []
  | settleFillsSigned {fills : List (Fill × OrderGateway.FillContext)} {w' : World} {settled : List Settled}
      (h : Batch D env msg w fills settled w') : Ran D env w msg (.settleFillsSigned fills) w' settled
  | cancel {tx : Tx} (htx : tx.cancels = true) (cancelled : Address × Nat → Bool) (minNonce : Address → Nat)
      (hc : ∀ k, w.gateway.cancelled k = true → cancelled k = true) (hn : ∀ a, w.gateway.minNonce a ≤ minNonce a) :
      Ran D env w msg tx (withCancels w cancelled minNonce) []
  | donate {amount : Nat} {w' : World} (h : Insurance.pullIntoVault D w msg amount = .ok w') :
      Ran D env w msg (.donate amount) w' []
  | stake {amount : Nat} {w₁ : World} {i : InsuranceStorage} (h : Insurance.pullIntoVault D w msg amount = .ok w₁)
      (hi : Repools w₁.insurance i) : Ran D env w msg (.stake amount) (withInsurance w₁ i) []
  | pool {tx : Tx} {i : InsuranceStorage} (htx : tx.stakes = true) (hi : Repools w.insurance i) :
      Ran D env w msg tx (withInsurance w i) []
  | redeem {amount : Nat} {i : InsuranceStorage} {w' : World} (hi : Repools w.insurance i)
      (h : Vault.withdrawTo D (withInsurance w i) msg D.insurance msg.sender amount = .ok w') :
      Ran D env w msg .withdrawUnstaked w' []
  | settleBadDebt {trader : Address} (ht : trader ≠ D.insurance) :
      Ran D env w msg (.settleBadDebt trader) (coveredWorld D w trader) []
  | liquidate {trader : Address} {marketId : MarketId} {maxSize : Nat} {w' : World}
      (h : Liquidation.liquidate D w msg trader marketId maxSize = .ok w') :
      Ran D env w msg (.liquidate trader marketId maxSize) w' []
  | adl {counterparty : Address} {marketId : MarketId} {maxSize : Nat} {w' : World}
      (h : Liquidation.adl D w counterparty marketId maxSize = .ok w') :
      Ran D env w msg (.adl counterparty marketId maxSize) w' []
  | claimTreasury {amount : Nat} {w' : World} (hle : amount * Decimals.SCALE ≤ w.feeRouter.treasuryAccrued)
      (h : Vault.withdrawTo D (withBuckets w (w.feeRouter.treasuryAccrued - amount * Decimals.SCALE)
        w.feeRouter.referralAccrued w.feeRouter.totalReferralAccrued) msg D.feeRouter w.feeRouter.treasury amount
          = .ok w') : Ran D env w msg .claimTreasury w' []
  | claimReferral {referrer : Address} {amount : Nat} {w' : World}
      (hle : amount * Decimals.SCALE ≤ w.feeRouter.referralAccrued referrer)
      (h : Vault.withdrawTo D (withBuckets w w.feeRouter.treasuryAccrued
        (Book.post w.feeRouter.referralAccrued referrer (-(amount * Decimals.SCALE)))
        (w.feeRouter.totalReferralAccrued - amount * Decimals.SCALE)) msg D.feeRouter referrer amount = .ok w') :
      Ran D env w msg (.claimReferral referrer) w' []
  /-- A claim of less than one token unit. -/
  | claimNothing {tx : Tx} (htx : tx.charges = true) : Ran D env w msg tx w []
  | moveUsdc (balances : Address → Nat) : Ran D env w msg (.moveUsdc balances) { w with usdc := balances } []
  | wait (seconds : Nat) : Ran D env w msg (.wait seconds) { w with timestamp := w.timestamp + seconds } []

theorem ran_cancel (owner : Address) (nonce : Nat) {tx : Tx} (htx : tx.cancels = true) :
    Ran D env w msg tx (OrderGateway.cancel w owner nonce) [] :=
  .cancel htx _ w.gateway.minNonce (fun _ hk => cancel_cancelled owner nonce hk) fun _ => le_refl _

/-- **Every transaction that returns ran one of these.** -/
theorem exec_ran (hexec : exec D env w call = .ok (w', settled)) : Ran D env w call.msg call.tx w' settled := by
  obtain ⟨msg, tx⟩ := call
  cases tx with
  | settleFillsSigned fills =>
    simp only [exec, OrderGateway.settleFillsSigned, bind_ok_iff] at hexec
    obtain ⟨_, -, _, -, _, -, h⟩ := hexec
    exact .settleFillsSigned (settleFills_batch fills w w' settled h)
  | moveUsdc balances =>
    simp only [exec, pure_ok, Prod.mk.injEq] at hexec
    obtain ⟨rfl, rfl⟩ := hexec
    exact .moveUsdc balances
  | wait seconds =>
    simp only [exec, pure_ok, Prod.mk.injEq] at hexec
    obtain ⟨rfl, rfl⟩ := hexec
    exact .wait seconds
  | config c =>
    obtain ⟨h, rfl⟩ := unsettled_ok.1 hexec
    exact .config h
  | deposit amount =>
    obtain ⟨h, rfl⟩ := unsettled_ok.1 hexec
    simp only [Vault.deposit, bind_ok_iff] at h
    obtain ⟨_, -, h⟩ := h
    exact .deposit h
  | depositFor account amount =>
    obtain ⟨h, rfl⟩ := unsettled_ok.1 hexec
    simp only [Vault.depositFor, bind_ok_iff] at h
    obtain ⟨_, -, h⟩ := h
    exact .depositFor h
  | depositWithPermit2 token amount =>
    obtain ⟨h, rfl⟩ := unsettled_ok.1 hexec
    simp only [Vault.depositWithPermit2, bind_ok_iff] at h
    obtain ⟨_, -, _, -, h⟩ := h
    exact .depositWithPermit2 h
  | withdrawTo recipient amount =>
    obtain ⟨h, rfl⟩ := unsettled_ok.1 hexec
    exact .withdrawTo h
  | updateFunding marketId =>
    obtain ⟨h, rfl⟩ := unsettled_ok.1 hexec
    exact .updateFunding h
  | cancelOrder nonce =>
    obtain ⟨h, rfl⟩ := unsettled_ok.1 hexec
    rw [pure_ok] at h
    subst h
    exact ran_cancel msg.sender nonce rfl
  | cancelOrders nonces =>
    obtain ⟨h, rfl⟩ := unsettled_ok.1 hexec
    rw [pure_ok] at h
    subst h
    obtain ⟨cancelled, heq, hmono⟩ := cancelOrders_eq w msg nonces
    rw [heq]
    exact .cancel rfl cancelled _ hmono fun _ => le_refl _
  | cancelUpTo newMinNonce =>
    obtain ⟨h, rfl⟩ := unsettled_ok.1 hexec
    simp only [OrderGateway.cancelUpTo, bind_ok_iff, revertIf_ok, exists_const, pure_ok, not_le] at h
    obtain ⟨hlt, rfl⟩ := h
    refine .cancel rfl w.gateway.cancelled _ (fun _ => id) fun a => ?_
    by_cases ha : a = msg.sender
    · subst ha
      rw [Function.update_self]
      exact hlt.le
    · rw [Function.update_of_ne ha]
  | cancelSigned c signature =>
    obtain ⟨h, rfl⟩ := unsettled_ok.1 hexec
    simp only [OrderGateway.cancelSigned, bind_ok_iff, pure_ok] at h
    obtain ⟨_, -, _, -, rfl⟩ := h
    exact ran_cancel c.owner c.nonce rfl
  | donate amount =>
    obtain ⟨h, rfl⟩ := unsettled_ok.1 hexec
    simp only [Insurance.donate, bind_ok_iff] at h
    obtain ⟨_, -, _, -, h⟩ := h
    exact .donate h
  | stake amount =>
    obtain ⟨h, rfl⟩ := unsettled_ok.1 hexec
    obtain ⟨w₁, minted, hpull, -, -, rfl⟩ := stake_ok h
    exact .stake hpull ⟨rfl, rfl, rfl⟩
  | requestUnstake shares =>
    obtain ⟨h, rfl⟩ := unsettled_ok.1 hexec
    obtain ⟨-, -, rfl⟩ := requestUnstake_ok h
    exact .pool rfl ⟨rfl, rfl, rfl⟩
  | withdrawUnstaked =>
    obtain ⟨h, rfl⟩ := unsettled_ok.1 hexec
    obtain ⟨-, -, ⟨-, rfl⟩ | ⟨-, w₁, amount, rfl, h | rfl⟩⟩ := withdrawUnstaked_ok h
    · exact .pool rfl ⟨rfl, rfl, rfl⟩
    · exact .redeem (i := redeemedPool _ _ _ _) ⟨rfl, rfl, rfl⟩ h
    · exact .pool rfl ⟨rfl, rfl, rfl⟩
  | sweepToOperating amount =>
    obtain ⟨h, rfl⟩ := unsettled_ok.1 hexec
    obtain ⟨swept, -, -, rfl | rfl⟩ := sweepToOperating_ok h
    · exact .pool rfl (i := w'.insurance) ⟨rfl, rfl, rfl⟩
    · refine .pool rfl ?_
      unfold sweptPool
      split <;> exact ⟨rfl, rfl, rfl⟩
  | settleBadDebt trader =>
    obtain ⟨h, rfl⟩ := unsettled_ok.1 hexec
    rw [map_ok] at h
    obtain ⟨⟨w₁, covered⟩, hcover, rfl⟩ := h
    obtain ⟨-, ht, -, -, rfl⟩ := settleBadDebt_ok hcover
    exact .settleBadDebt ht
  | liquidate trader marketId maxSize =>
    obtain ⟨h, rfl⟩ := unsettled_ok.1 hexec
    exact .liquidate h
  | adl counterparty marketId maxSize =>
    obtain ⟨h, rfl⟩ := unsettled_ok.1 hexec
    exact .adl h
  | claimTreasury =>
    obtain ⟨h, rfl⟩ := unsettled_ok.1 hexec
    rcases claimTreasury_ok h with rfl | ⟨w₁, amount, hle, rfl, h⟩
    · exact .claimNothing rfl
    · exact .claimTreasury hle h
  | claimReferral referrer =>
    obtain ⟨h, rfl⟩ := unsettled_ok.1 hexec
    rcases claimReferral_ok h with rfl | ⟨w₁, amount, hle, rfl, h⟩
    · exact .claimNothing rfl
    · exact .claimReferral hle h

/-! ## What a transaction clears -/

/-- The calls by which USDC reaches the vault other than as a deposit. -/
def Call.Donates (D : Deployment) (w : World) (call : Call) : Prop :=
  match call.tx with
  | .moveUsdc balances => balances D.vault ≠ w.usdc D.vault
  | .withdrawTo recipient _ => recipient = D.vault
  | .claimTreasury => w.feeRouter.treasury = D.vault
  | .claimReferral referrer => referrer = D.vault
  | _ => False

/-- The account holds no position. -/
def Flat (w : World) (a : Address) : Prop := ∀ m, (w.engine.positions (a, m)).size = 0

/-- What an event may do to the protocol's own accounts: one that cannot sign and holds no position is not traded on, and
the funding pool is then not debited either. -/
structure Quiet (D : Deployment) (env : Env) (w : World) (e : Event Address MarketId) : Prop where
  trades : ∀ c, c ≠ .insurance → Keyless env (D.address c) → Flat w (D.address c) → ¬ e.TradesOn (D.address c)
  spares : Keyless env D.engine → Flat w D.engine → e.Spares D.engine

theorem quiet_transfer {i j : Address} {x : Int} (hi : Keyless env D.engine → Flat w D.engine → i ≠ D.engine) :
    Quiet D env w (.transfer i j x) := ⟨fun _ _ _ _ => id, hi⟩

theorem quiet_credit {i : Address} {x : Int} (hi : i = D.engine → 0 ≤ x) : Quiet D env w (.credit i x) :=
  ⟨fun _ _ _ _ => id, fun _ _ => hi⟩

theorem quiet_donate {x : Int} : Quiet D env w (.donate x) := ⟨fun _ _ _ _ => id, fun _ _ => trivial⟩

theorem quiet_reindex {m : MarketId} {δ : Int} : Quiet D env w (.reindex m δ) :=
  ⟨fun _ _ _ _ => id, fun _ _ => trivial⟩

theorem quiet_trade {i j : Address} {m : MarketId} {d v : Int}
    (h : ∀ c, c ≠ .insurance → Keyless env (D.address c) → Flat w (D.address c) → i ≠ D.address c ∧ j ≠ D.address c) :
    Quiet D env w (.trade i j m d v) :=
  ⟨fun c hc hk hf => not_or.2 (h c hc hk hf), fun hk hf => h .engine (by decide) hk hf⟩

theorem flat_ne {a b : Address} {m : MarketId} (hs : (w.engine.positions (b, m)).size ≠ 0) (hf : Flat w a) : b ≠ a := by
  rintro rfl
  exact hs (hf m)

theorem feeRouter_ne_engine : D.feeRouter ≠ D.engine := D.address_ne (by decide)

theorem insurance_ne_engine : D.insurance ≠ D.engine := D.address_ne (by decide)

/-- **A settled fill clears quiet events that donate nothing.** -/
theorem settleOne_quiet {wallet : Address → Bytes32 → Bytes → Bool} {f : Fill} {st : OrderGateway.Settlement}
    (w₀ : World) (h : OrderGateway.settleOne D env w msg wallet f = .ok (w', st)) :
    ∃ es, Clears D w es w' ∧ ∀ e ∈ es, e.donated = 0 ∧ Quiet D env w₀ e := by
  obtain ⟨d, v, toInsurance, hrun⟩ := settleOne_clears h
  have howners : ∀ c, c ≠ .insurance → Keyless env (D.address c) →
      f.maker.owner ≠ D.address c ∧ f.taker.owner ≠ D.address c := fun c hc hk => settleOne_owners hc hk h
  refine ⟨_, hrun, ?_⟩
  simp only [feeEvents, List.forall_mem_cons, Event.donated, true_and]
  refine ⟨quiet_trade fun c hc hk _ => howners c hc hk, ?_, ?_, ?_, ?_, fun _ h => absurd h List.not_mem_nil⟩
  · exact quiet_transfer fun hk _ => (howners .engine (by decide) hk).2
  · exact quiet_transfer fun hk _ => (howners .engine (by decide) hk).1
  · exact quiet_transfer fun _ _ => feeRouter_ne_engine
  · exact quiet_transfer fun _ _ => feeRouter_ne_engine

theorem chain_quiet {settled : List Settled} (w₀ : World) (h : Chain D env msg w settled w') :
    ∃ es, Clears D w es w' ∧ ∀ e ∈ es, e.donated = 0 ∧ Quiet D env w₀ e := by
  induction h with
  | nil w => exact ⟨[], Run.nil, fun _ h => absurd h List.not_mem_nil⟩
  | cons wallet h _ ih =>
    obtain ⟨es, hrun, hes⟩ := settleOne_quiet w₀ h
    obtain ⟨es', hrun', hes'⟩ := ih
    refine ⟨es ++ es', hrun.append hrun', fun e he => ?_⟩
    rcases List.mem_append.1 he with he | he
    · exact hes e he
    · exact hes' e he

/-- The call cleared quiet events, which donate only if it does. -/
def Cleared (D : Deployment) (env : Env) (w : World) (call : Call) (w' : World) : Prop :=
  ∃ es, Clears D w es w' ∧ ∀ e ∈ es, Quiet D env w e ∧ (¬ call.Donates D w → e.donated = 0)

theorem cleared_nil (h : books D w' = books D w) : Cleared D env w call w' :=
  ⟨[], clears_nil h, fun _ he => absurd he List.not_mem_nil⟩

theorem cleared_deposit {account : Address} {amount : Nat}
    (h : Clears D w [.credit account (amount * Decimals.SCALE)] w') : Cleared D env w call w' := by
  refine ⟨_, h, fun e he => ?_⟩
  rw [List.mem_singleton] at he
  subst he
  exact ⟨quiet_credit fun _ => mul_nonneg (Int.natCast_nonneg _) (Int.natCast_nonneg _), fun _ => rfl⟩

/-- **A payment out of an account other than the pool's** clears quietly, and donates only if the vault pays itself. -/
theorem cleared_withdrawal {account recipient : Address} {amount : Nat} (ha : account ≠ D.engine)
    (hd : recipient = D.vault → call.Donates D w)
    (h : Clears D w [.credit account (-(amount * Decimals.SCALE)), .donate (returned D recipient amount)] w') :
    Cleared D env w call w' := by
  refine ⟨_, h, ?_⟩
  simp only [List.forall_mem_cons]
  refine ⟨⟨quiet_credit fun he => absurd he ha, fun _ => rfl⟩, ⟨quiet_donate, fun hn => ?_⟩,
    fun _ he => absurd he List.not_mem_nil⟩
  exact if_neg fun hr => hn (hd hr)

theorem cleared_liquidate {trader : Address} {marketId : MarketId} {maxSize : Nat}
    (h : Liquidation.liquidate D w msg trader marketId maxSize = .ok w') : Cleared D env w call w' := by
  obtain ⟨hs, -, -, d, v, reward, rest, share, cover, -, -, -, -, hrun⟩ := liquidate_clears h
  refine ⟨_, hrun, ?_⟩
  simp only [List.forall_mem_cons, Event.donated, implies_true, and_true]
  refine ⟨quiet_trade fun c hc _ hf => ⟨flat_ne hs hf, (D.address_ne hc).symm⟩, ?_, ?_, ?_, ?_,
    fun _ he => absurd he List.not_mem_nil⟩
  · exact quiet_transfer fun _ hf => flat_ne hs hf
  · exact quiet_transfer fun _ hf => flat_ne hs hf
  · exact quiet_transfer fun _ _ => feeRouter_ne_engine
  · exact quiet_transfer fun _ _ => insurance_ne_engine

theorem cleared_adl {counterparty : Address} {marketId : MarketId} {maxSize : Nat}
    (h : Liquidation.adl D w counterparty marketId maxSize = .ok w') : Cleared D env w call w' := by
  obtain ⟨hs, -, -, d, v, haircut, -, hrun⟩ := adl_clears h
  refine ⟨_, hrun, ?_⟩
  simp only [List.forall_mem_cons, Event.donated, implies_true, and_true]
  refine ⟨quiet_trade fun c hc _ hf => ⟨flat_ne hs hf, (D.address_ne hc).symm⟩, ?_,
    fun _ he => absurd he List.not_mem_nil⟩
  exact quiet_transfer fun _ hf => flat_ne hs hf

theorem Cleared.of_books {w₀ : World} (hb : books D w₀ = books D w) {es : List (Event Address MarketId)}
    (h : Clears D w₀ es w') : Clears D w es w' := by
  rwa [Clears, hb] at h

theorem moveUsdc_clears {balances : Address → Nat} (hle : w.usdc D.vault ≤ balances D.vault) :
    ∃ x, x = ((balances D.vault : Int) - w.usdc D.vault) * Decimals.SCALE ∧
      Clears D w [.donate x] { w with usdc := balances } := by
  have hdonated : (0 : Int) ≤ ((balances D.vault : Int) - w.usdc D.vault) * Decimals.SCALE :=
    mul_nonneg (sub_nonneg.2 (Int.ofNat_le.2 hle)) (Int.natCast_nonneg _)
  have hcash : (balances D.vault : Int) * Decimals.SCALE =
      (books D w).cash + ((balances D.vault : Int) - w.usdc D.vault) * Decimals.SCALE := by
    simp only [books]
    ring
  have hbooks : books D { w with usdc := balances } = { books D w with
      cash := (books D w).cash + ((balances D.vault : Int) - w.usdc D.vault) * Decimals.SCALE } := by
    rw [← hcash]
    rfl
  refine ⟨_, rfl, ?_⟩
  rw [Clears, hbooks]
  exact Run.single (Step.donate hdonated)

/-- **Every transaction that returns clears quiet events.** -/
theorem exec_cleared (hadm : call.Admissible D w) (hexec : exec D env w call = .ok (w', settled)) :
    Cleared D env w call w' := by
  have hran := exec_ran hexec
  obtain ⟨msg, tx⟩ := call
  have hsender : ∀ c, msg.sender ≠ D.address c := fun c hc => hadm.1 ⟨c, hc.symm⟩
  cases hran with
  | config h => exact cleared_nil (execConfig_configures _ _ h).books
  | deposit h | depositFor h | depositWithPermit2 h => exact cleared_deposit (pullAndCredit_clears (hsender .vault) h).2.2.2
  | withdrawTo h => exact cleared_withdrawal (hsender .engine) id (withdrawTo_clears h).2.2.2
  | updateFunding h =>
    obtain ⟨-, δ, hrun⟩ := updateFunding_clears (D := D) h
    refine ⟨_, hrun, fun e he => ?_⟩
    rw [List.mem_singleton] at he
    subst he
    exact ⟨quiet_reindex, fun _ => rfl⟩
  | settleFillsSigned h =>
    obtain ⟨es, hrun, hes⟩ := chain_quiet w h.chain
    exact ⟨es, hrun, fun e he => ⟨(hes e he).2, fun _ => (hes e he).1⟩⟩
  | cancel _ _ _ _ _ => exact cleared_nil rfl
  | donate h => exact cleared_deposit (pullIntoVault_clears (hsender .vault) h).2.2
  | stake h _ => exact cleared_deposit (pullIntoVault_clears (hsender .vault) h).2.2
  | pool _ _ => exact cleared_nil rfl
  | redeem _ h =>
    exact cleared_withdrawal insurance_ne_engine (fun hr => absurd hr (hsender .vault))
      (Cleared.of_books rfl (withdrawTo_clears h).2.2.2)
  | settleBadDebt _ =>
    refine ⟨_, (coveredWorld_clears _).2.2, fun e he => ?_⟩
    rw [List.mem_singleton] at he
    subst he
    exact ⟨quiet_transfer fun _ _ => insurance_ne_engine, fun _ => rfl⟩
  | liquidate h => exact cleared_liquidate h
  | adl h => exact cleared_adl h
  | claimTreasury _ h | claimReferral _ h =>
    exact cleared_withdrawal feeRouter_ne_engine id (Cleared.of_books rfl (withdrawTo_clears h).2.2.2)
  | claimNothing _ => exact cleared_nil rfl
  | moveUsdc balances =>
    obtain ⟨x, hx, hrun⟩ := moveUsdc_clears (of_decide_eq_true hadm.2.2 .vault (Deployment.mem_contracts _))
    refine ⟨_, hrun, fun e he => ?_⟩
    rw [List.mem_singleton] at he
    subst he
    refine ⟨quiet_donate, fun hn => ?_⟩
    rw [Event.donated, hx, not_not.1 hn, sub_self, zero_mul]
  | wait seconds => exact cleared_nil rfl

/-! ## What a transaction writes -/

/-- What a transaction that returns wrote. -/
inductive Effect (D : Deployment) (env : Env) (w : World) (msg : Msg) : Tx → World → List Settled → Prop where
  | configured {c : Config} {w' : World} (h : execConfig D w msg c = .ok w') : Effect D env w msg (.config c) w' []
  | charged {tx : Tx} {w' : World} (htx : tx.charges = true) (h : Charges w w') : Effect D env w msg tx w' []
  | settled {fills : List (Fill × OrderGateway.FillContext)} {w' : World} {settled : List Settled}
      (h : Chain D env msg w settled w') : Effect D env w msg (.settleFillsSigned fills) w' settled
  | cancelled {tx : Tx} (cancelled : Address × Nat → Bool) (minNonce : Address → Nat)
      (hc : ∀ k, w.gateway.cancelled k = true → cancelled k = true) (hn : ∀ a, w.gateway.minNonce a ≤ minNonce a) :
      Effect D env w msg tx (withCancels w cancelled minNonce) []
  | staked {tx : Tx} {w' : World} {i : InsuranceStorage} (htx : tx.stakes = true) (h : Moves (withInsurance w i) w')
      (hu : i.unwoundOnDay = w.insurance.unwoundOnDay) : Effect D env w msg tx w' []
  | outside {tx : Tx} (usdc : Address → Nat) (seconds : Nat) :
      Effect D env w msg tx { w with usdc := usdc, timestamp := w.timestamp + seconds } []

theorem Moves.withInsurance (h : Moves w w') (i : InsuranceStorage) :
    Moves (withInsurance w i) (withInsurance w' i) :=
  ⟨⟨h.timestamp, h.roles, h.pauses, h.risk, h.oracle, h.liquidation, h.gateway, rfl, h.listed⟩,
    h.feeRouter⟩

theorem Charges.of_withBuckets {treasury : Int} {referral : Address → Int} {total : Int}
    (h : Moves (withBuckets w treasury referral total) w') : Charges w w' :=
  (charges_withBuckets treasury referral total).trans h.charges

/-- **What every transaction that returns wrote.** -/
theorem exec_effect (hadm : call.Admissible D w) (hexec : exec D env w call = .ok (w', settled)) :
    Effect D env w call.msg call.tx w' settled := by
  have hran := exec_ran hexec
  obtain ⟨msg, tx⟩ := call
  have hsender : ∀ c, msg.sender ≠ D.address c := fun c hc => hadm.1 ⟨c, hc.symm⟩
  cases hran with
  | config h => exact .configured h
  | deposit h | depositFor h | depositWithPermit2 h =>
    exact .charged rfl (pullAndCredit_clears (hsender .vault) h).1.charges
  | withdrawTo h => exact .charged rfl (withdrawTo_clears h).1.charges
  | updateFunding h => exact .charged rfl (updateFunding_clears (D := D) h).1.charges
  | settleFillsSigned h => exact .settled h.chain
  | cancel _ cancelled minNonce hc hn => exact .cancelled cancelled minNonce hc hn
  | donate h => exact .charged rfl (pullIntoVault_clears (hsender .vault) h).1.charges
  | stake h hi =>
    have hm := (pullIntoVault_clears (hsender .vault) h).1
    exact .staked rfl (hm.withInsurance _) (hi.unwoundOnDay.trans (by rw [hm.insurance]))
  | pool htx hi => exact .staked htx (Moves.refl _) hi.unwoundOnDay
  | redeem hi h => exact .staked rfl (withdrawTo_clears h).1 hi.unwoundOnDay
  | settleBadDebt _ => exact .charged rfl (coveredWorld_clears _).1.charges
  | liquidate h => exact .charged rfl (liquidate_clears h).2.2.1
  | adl h => exact .charged rfl (adl_clears h).2.2.1.charges
  | claimTreasury _ h | claimReferral _ h => exact .charged rfl (Charges.of_withBuckets (withdrawTo_clears h).1)
  | claimNothing htx => exact .charged htx (Moves.refl _).charges
  | moveUsdc balances => exact .outside balances 0
  | wait seconds => exact .outside w.usdc seconds

/-! ## The engine -/

/-- The calls that write the engine. -/
def Tx.touchesEngine : Tx → Bool
  | .updateFunding _ | .settleFillsSigned _ | .liquidate _ _ _ | .adl _ _ _ => true
  | _ => false

/-- **Every other call leaves the engine as it was.** -/
theorem exec_engine (htx : call.tx.touchesEngine = false) (hadm : call.Admissible D w)
    (hexec : exec D env w call = .ok (w', settled)) : w'.engine = w.engine := by
  have hran := exec_ran hexec
  obtain ⟨msg, tx⟩ := call
  have hsender : ∀ c, msg.sender ≠ D.address c := fun c hc => hadm.1 ⟨c, hc.symm⟩
  cases hran with
  | config h => exact (execConfig_configures _ _ h).engine
  | deposit h | depositFor h | depositWithPermit2 h => exact (pullAndCredit_clears (hsender .vault) h).2.1
  | withdrawTo h => exact (withdrawTo_clears h).2.1
  | updateFunding _ | settleFillsSigned _ | liquidate _ | adl _ => exact absurd htx (by simp [Tx.touchesEngine])
  | donate h => exact (pullIntoVault_clears (hsender .vault) h).2.1
  | stake h _ => exact (pullIntoVault_clears (hsender .vault) h).2.1
  | redeem _ h => exact (withdrawTo_clears h).2.1
  | settleBadDebt _ => exact (coveredWorld_clears _).2.1
  | claimTreasury _ h | claimReferral _ h => exact (withdrawTo_clears h).2.1
  | cancel _ _ _ _ _ | pool _ _ | claimNothing _ | moveUsdc _ | wait _ => rfl

/-! ## Time, pauses and prices -/

/-- Time goes on, and no pause and no price changes. -/
structure Operates (w w' : World) : Prop where
  timestamp : w.timestamp ≤ w'.timestamp
  pauses : w'.pauses = w.pauses
  oracle : w'.oracle = w.oracle

theorem Frames.operates (h : Frames w w') : Operates w w' := ⟨le_of_eq h.timestamp.symm, h.pauses, h.oracle⟩

theorem Operates.trans {w₁ w₂ w₃ : World} (h : Operates w₁ w₂) (h' : Operates w₂ w₃) : Operates w₁ w₃ :=
  ⟨h.timestamp.trans h'.timestamp, h'.pauses.trans h.pauses, h'.oracle.trans h.oracle⟩

theorem chain_operates (h : Chain D env msg w settled w') : Operates w w' := by
  refine h.relates Operates (fun _ => ⟨le_refl _, rfl, rfl⟩) (fun _ _ _ => Operates.trans) ?_
  intro w wallet f w' st hone
  obtain ⟨orderState, unwound, hcharges⟩ := settleOne_charges hone
  have hsame : Operates w (withProgress w orderState unwound) := ⟨le_refl _, rfl, rfl⟩
  exact hsame.trans hcharges.operates

/-- **Only a configuration call changes a pause or a price.** -/
theorem effect_operates {tx : Tx} (htx : ∀ c, tx ≠ .config c) (h : Effect D env w msg tx w' settled) :
    Operates w w' := by
  cases h with
  | configured h => exact absurd rfl (htx _)
  | charged _ h => exact h.operates
  | settled h => exact chain_operates h
  | cancelled _ _ _ _ => exact ⟨le_refl _, rfl, rfl⟩
  | staked _ h _ => exact ⟨le_of_eq h.timestamp.symm, h.pauses, h.oracle⟩
  | outside _ seconds => exact ⟨Nat.le_add_right _ seconds, rfl, rfl⟩

theorem step_operates {l : Label} (h : (machine D env).step w l w') :
    (∃ c, l.call.tx = .config c ∧ execConfig D w l.call.msg c = .ok w') ∨
      (∀ c, l.call.tx ≠ .config c) ∧ Operates w w' := by
  obtain ⟨hadm, hexec⟩ := h
  by_cases htx : ∃ c, l.call.tx = .config c
  · obtain ⟨c, hc⟩ := htx
    refine Or.inl ⟨c, hc, ?_⟩
    simp only [exec, hc, unsettled_ok] at hexec
    exact hexec.1
  · have hne := not_exists.1 htx
    exact Or.inr ⟨hne, effect_operates hne (exec_effect hadm hexec)⟩

theorem step_timestamp {l : Label} (h : (machine D env).step w l w') : w.timestamp ≤ w'.timestamp := by
  rcases step_operates h with ⟨c, -, hc⟩ | ⟨-, hop⟩
  · exact (execConfig_configures c _ hc).timestamp.symm.le
  · exact hop.timestamp

/-! ## Open positions -/

theorem chain_listed (h : Chain D env msg w settled w') (hl : Engine.Listed w.engine) : Engine.Listed w'.engine := by
  refine h.relates (fun w w' => Engine.Listed w.engine → Engine.Listed w'.engine) (fun _ => id)
    (fun _ _ _ h h' => h' ∘ h) ?_ hl
  intro w wallet f w' st hone hl
  obtain ⟨orderState, unwound, hcharges⟩ := settleOne_charges hone
  exact hcharges.listed hl

theorem effect_listed {tx : Tx} (h : Effect D env w msg tx w' settled) (hl : Engine.Listed w.engine) :
    Engine.Listed w'.engine := by
  cases h with
  | configured h =>
    rw [(execConfig_configures _ _ h).engine]
    exact hl
  | charged _ h => exact h.listed hl
  | settled h => exact chain_listed h hl
  | cancelled _ _ _ _ => exact hl
  | staked _ h _ => exact h.listed hl
  | outside _ _ => exact hl

theorem genesis_listed (h : Genesis D w) : Engine.Listed w.engine := by
  rw [h.engine]
  refine ⟨fun _ => Nat.two_pow_pos 256, fun a m => ?_, fun a m hm => ?_, fun _ _ => rfl⟩
  · simp [Position.empty]
  · exact absurd rfl hm

/-- **Every reachable account's bitmap lists exactly its open positions.** -/
theorem reachable_listed (h : Reachable (machine D env) w) : Engine.Listed w.engine := by
  refine h.invariant (fun w => Engine.Listed w.engine) (fun _ => genesis_listed) ?_
  rintro s l t - hl ⟨hadm, hexec⟩
  exact effect_listed (exec_effect hadm hexec) hl

/-- **Only a batch settles fills**, and they are a chain from the world the batch starts in. -/
theorem exec_chain {x : Settled} (hadm : call.Admissible D w) (hexec : exec D env w call = .ok (w', settled))
    (hx : x ∈ settled) : ∃ earlier wallet, Chain D env call.msg w earlier x.before ∧
      OrderGateway.settleOne D env x.before call.msg wallet x.settlement.fill = .ok (x.after, x.settlement) := by
  have heffect := exec_effect hadm hexec
  generalize call.tx = tx at heffect
  cases heffect with
  | settled h => exact h.mem hx
  | _ => exact absurd hx List.not_mem_nil

end Kryon
