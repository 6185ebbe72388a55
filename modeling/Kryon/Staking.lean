import Kryon.Shares
import Kryon.Lib.Pool
/-!
# Staking — the price of a share, and what a redemption pays

The staking pool is a share pool (`stakePool`): a stake mints at the present price, a redemption burns at no better than
it, and a sweep is a loss.  What a redemption burns is the caller's own, so it is within the total (`Staked`); what it
pays is a part of the smaller of the redeemable and the staked capital.
-/
namespace Kryon

open Program Transition
open OrderGateway (Settled)

variable {D : Deployment} {env : Env} {w w' : World} {msg : Msg} {l : Label} {a : Address}

def stakePool (i : InsuranceStorage) : Pool.State Int where
  value := i.stakedBalance
  shares := i.totalShares

/-- What holds of every reachable staking pool. -/
structure Staked (i : InsuranceStorage) : Prop where
  requests : RequestsLive i
  covered : Epochs.Covered (shareLedger i)
  sound : Pool.Sound (stakePool i)

theorem SameStake.pool {i i' : InsuranceStorage} (h : SameStake i i') : stakePool i' = stakePool i := by
  simp only [stakePool, h.stakedBalance, h.totalShares]

theorem SameStake.staked {i i' : InsuranceStorage} (h : SameStake i i') (hs : Staked i) : Staked i' := by
  refine ⟨h.requests hs.requests, ?_, ?_⟩
  · rw [h.ledger]
    exact hs.covered
  · rw [h.pool]
    exact hs.sound

/-! ## Minting -/

theorem sharesFor_le {value total nav minted : Int} (hvalue : 0 ≤ value)
    (h : Insurance.sharesFor value total nav = .ok minted) (htotal : 0 < total) (hnav : 0 < nav) :
    minted * nav ≤ value * total := by
  unfold Insurance.sharesFor at h
  rw [if_neg (by omega), M.mulDiv_ok] at h
  obtain ⟨-, rfl⟩ := h
  rw [Int.tdiv_eq_ediv_of_nonneg (mul_nonneg hvalue htotal.le)]
  exact Int.ediv_mul_le _ hnav.ne'

theorem stake_writes {amount : Nat} (hs : msg.sender ≠ D.vault) (h : Insurance.stake D w msg amount = .ok w') :
    ∃ minted, 0 < minted ∧
      Insurance.sharesFor (amount * Decimals.SCALE) w.insurance.totalShares w.insurance.stakedBalance = .ok minted ∧
      w'.insurance.stakedBalance = w.insurance.stakedBalance + amount * Decimals.SCALE ∧
      w'.insurance.totalShares = w.insurance.totalShares + minted ∧
      Insurance.sharesOf w' msg.sender = Insurance.sharesOf w msg.sender + minted := by
  obtain ⟨w₁, minted, hpull, hpos, hminted, rfl⟩ := stake_ok h
  have hsame : SamePool w.insurance w₁.insurance := (pullIntoVault_clears hs hpull).1.toFrames.samePool
  have hheld : Insurance.sharesOf w₁ msg.sender = Insurance.sharesOf w msg.sender := by
    simp only [Insurance.sharesOf, hsame.shares, hsame.epoch]
  refine ⟨minted, hpos, hminted, rfl, rfl, ?_⟩
  rw [← hheld]
  simp [Insurance.sharesOf, stakedPool]

theorem stake_mints {amount : Nat} (hpool : Pool.Sound (stakePool w.insurance)) (hs : msg.sender ≠ D.vault)
    (h : Insurance.stake D w msg amount = .ok w') :
    ∃ minted, Insurance.sharesOf w' msg.sender = Insurance.sharesOf w msg.sender + minted ∧
      Pool.Step (stakePool w.insurance) (.mint (amount * Decimals.SCALE : Int) minted) (stakePool w'.insurance) := by
  obtain ⟨minted, hpos, hfor, hstaked, htotal, hheld⟩ := stake_writes hs h
  have hamount : amount ≠ 0 := by
    simp only [Insurance.stake, bind_ok_iff, World.whenNotPaused_ok, revertIf_ok, exists_const] at h
    exact h.2.1
  have hvalue : (0 : Int) < amount * Decimals.SCALE :=
    mul_pos (by omega) (by decide)
  refine ⟨minted, hheld, ?_⟩
  have hstep := Pool.Step.mint (s := stakePool w.insurance) hvalue hpos fun htotal =>
    sharesFor_le hvalue.le hfor htotal (hpool.backed htotal)
  have heq : stakePool w'.insurance =
      ⟨(stakePool w.insurance).value + amount * Decimals.SCALE, (stakePool w.insurance).shares + minted⟩ := by
    simp only [stakePool, hstaked, htotal]
  rw [heq]
  exact hstep

/-! ## Redeeming -/

theorem withdrawTo_usdc {account recipient : Address} {amount : Nat} (hne : D.vault ≠ recipient)
    (h : Vault.withdrawTo D w msg account recipient amount = .ok w') : w'.usdc recipient = w.usdc recipient + amount := by
  simp only [Vault.withdrawTo, bind_ok_iff] at h
  obtain ⟨_, -, _, -, _, -, _, -, _, -, _, -, w₁, hmove, hpay⟩ := h
  obtain ⟨-, rfl⟩ := usdcTransfer_ok hpay
  obtain rfl := Vault.move_ok hmove
  have husdc : ∀ w₁ : World, (Vault.countWithdrawal w₁ account amount).usdc = w₁.usdc := by
    intro w₁
    unfold Vault.countWithdrawal
    split <;> rfl
  show paidUsdc _ D.vault recipient amount recipient = _
  rw [paidUsdc_receiver hne, husdc]
  rfl

theorem redeemableStake_le {redeemable : Int} (hstaked : 0 ≤ w.insurance.stakedBalance)
    (h : Insurance.redeemableStake D w = .ok redeemable) : 0 ≤ redeemable ∧ redeemable ≤ w.insurance.stakedBalance := by
  unfold Insurance.redeemableStake at h
  split at h
  · rw [pure_ok, M.max_eq, M.min_eq] at h
    omega
  · exact absurd h (by simp)

/-- **A redemption is paid its part of what is redeemable**, and never more than is staked. -/
theorem payoutFor_le {shares redeemable total nav payout : Int} (hshares : 0 ≤ shares) (hredeemable : 0 ≤ redeemable)
    (htotal : 0 < total) (h : Insurance.payoutFor shares redeemable total nav = .ok payout) :
    payout * total ≤ shares * redeemable ∧ payout ≤ nav := by
  unfold Insurance.payoutFor at h
  rw [if_neg (by omega)] at h
  simp only [bind_ok_iff, M.mulDiv_ok, pure_ok, M.min_eq] at h
  obtain ⟨_, ⟨-, rfl⟩, rfl⟩ := h
  refine ⟨?_, min_le_right _ _⟩
  have hpart : (shares * redeemable).tdiv total * total ≤ shares * redeemable := by
    rw [Int.tdiv_eq_ediv_of_nonneg (mul_nonneg hshares hredeemable)]
    exact Int.ediv_mul_le _ htotal.ne'
  exact (mul_le_mul_of_nonneg_right (min_le_left _ _) htotal.le).trans hpart

/-- What a live redemption pays and burns. -/
structure Redeems (D : Deployment) (w : World) (staker : Address) (amount : Nat) (redeemable payout : Int) (w' : World) :
    Prop where
  priced : Insurance.redeemableStake D w = .ok redeemable
  due : Insurance.payoutFor (redeemedShares w.insurance staker) redeemable w.insurance.totalShares
    w.insurance.stakedBalance = .ok payout
  paid : (amount * Decimals.SCALE : Int) ≤ max payout 0
  usdc : w'.usdc staker = w.usdc staker + amount
  stakedBalance : w'.insurance.stakedBalance = w.insurance.stakedBalance - amount * Decimals.SCALE
  totalShares : w'.insurance.totalShares = w.insurance.totalShares - redeemedShares w.insurance staker

theorem withdrawUnstaked_redeems (hs : msg.sender ≠ D.vault)
    (hlive : (w.insurance.pending msg.sender).epoch = w.insurance.epoch)
    (h : Insurance.withdrawUnstaked D w msg = .ok w') :
    ∃ amount redeemable payout, Redeems D w msg.sender amount redeemable payout w' := by
  simp only [Insurance.withdrawUnstaked, bind_ok_iff, World.whenNotPaused_ok, revertIf_ok, exists_const, not_le,
    not_lt, hlive, ne_eq, not_true_eq_false, if_false, Decimals.toInternal_ok, M.min_eq] at h
  obtain ⟨-, -, -, redeemable, hredeemable, payout, hpayout, amount, hamount, _, ⟨-, rfl⟩, h⟩ := h
  have hpaid : (amount * Decimals.SCALE : Int) ≤ max payout 0 := by
    split at hamount
    · exact (Decimals.toTokenDown_le hamount).trans (le_max_left _ _)
    · rw [pure_ok] at hamount
      simp [← hamount]
  refine ⟨amount, redeemable, payout, ?_⟩
  split at h
  · have hmoves := (withdrawTo_clears h).1.toFrames.sameStake
    have husdc := withdrawTo_usdc (Ne.symm hs) h
    exact ⟨hredeemable, hpayout, hpaid, husdc, hmoves.stakedBalance, hmoves.totalShares⟩
  · rename_i hzero
    rw [pure_ok] at h
    subst h
    have hnone : amount = 0 := by omega
    have husdc : w.usdc msg.sender = w.usdc msg.sender + amount := by rw [hnone, add_zero]
    exact ⟨hredeemable, hpayout, hpaid, husdc, rfl, rfl⟩

theorem redeemedShares_le (hs : Staked w.insurance) (hpos : 0 < (w.insurance.pending a).shares)
    (hlive : (w.insurance.pending a).epoch = w.insurance.epoch) :
    0 ≤ redeemedShares w.insurance a ∧ redeemedShares w.insurance a ≤ Insurance.sharesOf w a ∧
      Insurance.sharesOf w a ≤ w.insurance.totalShares := by
  have hepoch := hs.requests.live a hpos hlive
  have hheld : Insurance.sharesOf w a = (w.insurance.shares a).shares := if_pos hepoch
  have hnonneg : 0 ≤ Insurance.sharesOf w a := hs.covered.live a
  have htotal : Insurance.sharesOf w a ≤ w.insurance.totalShares := hs.covered.le_total a
  unfold redeemedShares
  omega

/-- **A live redemption is a burn of the pool.** -/
theorem redeems_burns {amount : Nat} {redeemable payout : Int} (hs : Staked w.insurance)
    (hpos : 0 < (w.insurance.pending a).shares) (hlive : (w.insurance.pending a).epoch = w.insurance.epoch)
    (h : Redeems D w a amount redeemable payout w') :
    (amount * Decimals.SCALE : Int) * w.insurance.totalShares ≤
        redeemedShares w.insurance a * min redeemable w.insurance.stakedBalance ∧
      Pool.Step (stakePool w.insurance) (.burn (redeemedShares w.insurance a) (amount * Decimals.SCALE : Int))
        (stakePool w'.insurance) := by
  obtain ⟨hnonneg, hheld, hle⟩ := redeemedShares_le hs hpos hlive
  obtain ⟨hred, hcap⟩ := redeemableStake_le hs.sound.value h.priced
  have hstaked : 0 ≤ w.insurance.stakedBalance := hs.sound.value
  have htotal : 0 ≤ w.insurance.totalShares := hs.sound.shares
  have hpaid : (0 : Int) ≤ amount * Decimals.SCALE := mul_nonneg (Int.natCast_nonneg _) (by decide)
  obtain ⟨hpart, hnav⟩ : (amount * Decimals.SCALE : Int) * w.insurance.totalShares ≤
      redeemedShares w.insurance a * redeemable ∧ (amount * Decimals.SCALE : Int) ≤ w.insurance.stakedBalance := by
    rcases htotal.eq_or_lt with hzero | htotal
    · have hpayout := h.due
      rw [Insurance.payoutFor, if_pos (by omega), pure_ok] at hpayout
      have hamount := h.paid
      rw [← hpayout, max_self] at hamount
      rw [← hzero, mul_zero]
      exact ⟨mul_nonneg hnonneg hred, hamount.trans hstaked⟩
    · obtain ⟨hpart, hnav⟩ := payoutFor_le hnonneg hred htotal h.due
      have hpart₀ : 0 ≤ redeemedShares w.insurance a * redeemable := mul_nonneg hnonneg hred
      have hmax : max payout 0 * w.insurance.totalShares ≤ redeemedShares w.insurance a * redeemable := by
        rw [max_mul_of_nonneg _ _ htotal.le, zero_mul]
        exact max_le hpart hpart₀
      exact ⟨(mul_le_mul_of_nonneg_right h.paid htotal.le).trans hmax, h.paid.trans (max_le hnav hstaked)⟩
  refine ⟨by rwa [min_eq_left hcap], ?_⟩
  have hstep := Pool.Step.burn (s := stakePool w.insurance) hnonneg (hheld.trans hle) hpaid hnav
    (hpart.trans (mul_le_mul_of_nonneg_left hcap hnonneg))
  have heq : stakePool w'.insurance = ⟨(stakePool w.insurance).value - amount * Decimals.SCALE,
      (stakePool w.insurance).shares - redeemedShares w.insurance a⟩ := by
    simp only [stakePool, h.stakedBalance, h.totalShares]
  rw [heq]
  exact hstep

/-! ## Sweeping -/

theorem sweepToOperating_loses {amount : Int} (hs : Pool.Sound (stakePool w.insurance))
    (h : Insurance.sweepToOperating w msg amount = .ok w') :
    stakePool w'.insurance = stakePool w.insurance ∨
      ∃ y, Pool.Step (stakePool w.insurance) (.loss y) (stakePool w'.insurance) := by
  obtain ⟨swept, hnonneg, hle, rfl | rfl⟩ := sweepToOperating_ok h
  · exact Or.inl rfl
  · have hvalue : 0 ≤ w.insurance.stakedBalance := hs.value
    have hshares : 0 ≤ w.insurance.totalShares := hs.shares
    have hstep := Pool.Step.loss (s := stakePool w.insurance) hnonneg (show swept ≤ w.insurance.stakedBalance by omega)
    refine Or.inr ⟨swept, ?_⟩
    have heq : stakePool (withInsurance w (sweptPool w.insurance swept)).insurance =
        ⟨w.insurance.stakedBalance - swept, if swept = w.insurance.stakedBalance then 0 else w.insurance.totalShares⟩ := by
      simp only [withInsurance_insurance, sweptPool, stakePool, Pool.State.mk.injEq]
      split
      · rename_i hempty
        exact ⟨hempty.1.symm, (if_pos (by omega)).symm⟩
      · rename_i hrest
        refine ⟨rfl, ?_⟩
        split
        · simp only
          omega
        · rfl
    rw [heq]
    exact hstep

/-! ## Every step -/

/-- What a call does to the pool. -/
structure Prices (w w' : World) (tx : Tx) : Prop where
  staked : Staked w'.insurance
  step : stakePool w'.insurance = stakePool w.insurance ∨
    ∃ e, Pool.Step (stakePool w.insurance) e (stakePool w'.insurance) ∧
      ∀ y, e = .loss y → ∃ amount, tx = .sweepToOperating amount

theorem SameStake.prices {tx : Tx} (hs : Staked w.insurance) (h : SameStake w.insurance w'.insurance) :
    Prices w w' tx := ⟨h.staked hs, Or.inl h.pool⟩

theorem stake_prices {amount : Nat} (hs : Staked w.insurance) (hsender : msg.sender ≠ D.vault)
    (h : Insurance.stake D w msg amount = .ok w') : Prices w w' (.stake amount) := by
  obtain ⟨x, hpools⟩ := stake_pools hsender hs.requests h
  obtain ⟨minted, hpos, -, -, htotal, -⟩ := stake_writes hsender h
  obtain ⟨minted', -, hstep⟩ := stake_mints hs.sound hsender h
  have hx : x = minted := by
    have hmint := Epochs.mint_total hpools.step
    simp only [shareLedger] at hmint
    omega
  refine ⟨⟨hpools.requests, ?_, Pool.step_sound hs.sound hstep⟩, Or.inr ⟨_, hstep, fun y hy => absurd hy (by simp)⟩⟩
  refine Epochs.step_covered hs.covered ?_ (fun a y hy => absurd hy (by simp)) hpools.step
  rintro a y hy
  obtain ⟨-, rfl⟩ := Epochs.Event.mint.inj hy
  exact hx ▸ hpos.le

theorem withdrawUnstaked_prices (hs : Staked w.insurance) (hsender : msg.sender ≠ D.vault)
    (h : Insurance.withdrawUnstaked D w msg = .ok w') : Prices w w' .withdrawUnstaked := by
  have hpos := (withdrawUnstaked_ok h).1
  rcases withdrawUnstaked_pools hs.requests h with ⟨hlive, x, hpools⟩ | ⟨hstale, hpools⟩
  · obtain ⟨amount, redeemable, payout, hredeems⟩ := withdrawUnstaked_redeems hsender hlive h
    obtain ⟨-, hstep⟩ := redeems_burns hs hpos hlive hredeems
    have hx : x = redeemedShares w.insurance msg.sender := by
      have hburn := Epochs.burn_total hpools.step
      have htotal := hredeems.totalShares
      simp only [shareLedger] at hburn
      omega
    refine ⟨⟨hpools.requests, ?_, Pool.step_sound hs.sound hstep⟩, Or.inr ⟨_, hstep, fun y hy => absurd hy (by simp)⟩⟩
    refine Epochs.step_covered hs.covered (fun a y hy => absurd hy (by simp)) ?_ hpools.step
    rintro a y hy
    obtain ⟨rfl, rfl⟩ := Epochs.Event.burn.inj hy
    exact hx ▸ (redeemedShares_le hs hpos hlive).2.1
  · obtain ⟨-, -, ⟨-, rfl⟩ | ⟨hlive, -⟩⟩ := withdrawUnstaked_ok h
    · refine ⟨⟨hpools.requests, ?_, hs.sound⟩, Or.inl rfl⟩
      exact Epochs.step_covered hs.covered (fun a y hy => absurd hy (by simp)) (fun a y hy => absurd hy (by simp)) hpools.step
    · exact absurd hlive hstale

theorem sweepToOperating_prices {amount : Int} (hs : Staked w.insurance)
    (h : Insurance.sweepToOperating w msg amount = .ok w') : Prices w w' (.sweepToOperating amount) := by
  have hpool := sweepToOperating_loses hs.sound h
  refine ⟨?_, ?_⟩
  · obtain ⟨hrequests, hcovered⟩ : RequestsLive w'.insurance ∧ Epochs.Covered (shareLedger w'.insurance) := by
      rcases sweepToOperating_pools hs.requests h with hpools | ⟨hledger, hrequests⟩
      · exact ⟨hpools.requests, Epochs.step_covered hs.covered (fun a y hy => absurd hy (by simp)) (fun a y hy => absurd hy (by simp))
          hpools.step⟩
      · rw [hledger]
        exact ⟨hrequests, hs.covered⟩
    refine ⟨hrequests, hcovered, ?_⟩
    rcases hpool with hsame | ⟨y, hstep⟩
    · rw [hsame]
      exact hs.sound
    · exact Pool.step_sound hs.sound hstep
  · rcases hpool with hsame | ⟨y, hstep⟩
    · exact Or.inl hsame
    · exact Or.inr ⟨_, hstep, fun _ _ => ⟨amount, rfl⟩⟩

/-- **What every step does to the pool.** -/
theorem step_prices (hs : Staked w.insurance) (h : (machine D env).step w l w') : Prices w w' l.call.tx := by
  obtain ⟨hadm, hexec⟩ := h
  obtain ⟨⟨msg, tx⟩, settled⟩ := l
  have hsender : ∀ c, msg.sender ≠ D.address c := fun c hc => hadm.1 ⟨c, hc.symm⟩
  by_cases htx : tx.stakes = true
  · cases tx with
    | stake amount => exact stake_prices hs (hsender .vault) (unsettled_ok.1 hexec).1
    | requestUnstake shares =>
      obtain ⟨hledger, hrequests⟩ := requestUnstake_requests hs.requests (unsettled_ok.1 hexec).1
      obtain ⟨-, -, rfl⟩ := requestUnstake_ok (unsettled_ok.1 hexec).1
      exact ⟨⟨hrequests, hs.covered, hs.sound⟩, Or.inl rfl⟩
    | withdrawUnstaked => exact withdrawUnstaked_prices hs (hsender .vault) (unsettled_ok.1 hexec).1
    | sweepToOperating amount => exact sweepToOperating_prices hs (unsettled_ok.1 hexec).1
    | _ => exact absurd htx Bool.false_ne_true
  · exact (effect_sameStake (by simpa using htx) (exec_effect hadm hexec)).prices hs

theorem genesis_staked (h : Genesis D w) : Staked w.insurance := by
  refine ⟨genesis_requests h, ?_, ?_⟩
  · rw [h.insurance]
    exact ⟨(Finset.sum_eq_zero fun _ _ => rfl).le, fun _ => le_refl 0, fun _ => le_refl 0⟩
  · rw [h.insurance]
    exact ⟨le_refl 0, le_refl 0, fun hpos => absurd hpos (lt_irrefl 0)⟩

theorem reachable_staked (h : Reachable (machine D env) w) : Staked w.insurance :=
  h.invariant (fun w => Staked w.insurance) (fun _ => genesis_staked) fun _ _ _ _ hs hstep =>
    (step_prices hs hstep).staked

/-- **Only a sweep lowers the price of a share.** -/
theorem step_priceLe (hs : Staked w.insurance) (h : (machine D env).step w l w')
    (hsweep : ∀ amount, l.call.tx ≠ .sweepToOperating amount) (htotal : 0 < w.insurance.totalShares) :
    Pool.PriceLe (stakePool w.insurance) (stakePool w'.insurance) := by
  rcases (step_prices hs h).step with hsame | ⟨e, hstep, hloss⟩
  · rw [hsame]
    exact Pool.PriceLe.refl _
  · refine Pool.step_price htotal (fun y hy => ?_) hstep
    obtain ⟨amount, htx⟩ := hloss y hy
    exact hsweep amount htx

/-- The steps that sweep nothing, from states with shares. -/
def Unswept (w : World) (l : Label) : Prop :=
  0 < w.insurance.totalShares ∧ ∀ amount, l.call.tx ≠ .sweepToOperating amount

/-- **Without a sweep the price of a share never falls while there are shares.** -/
theorem run_priceLe {ls : List Label} (hs : Staked w.insurance)
    (h : Run ((machine D env).restrict Unswept) w ls w') :
    Pool.PriceLe (stakePool w.insurance) (stakePool w'.insurance) := by
  refine (h.preserves (fun v => Staked v.insurance ∧ Pool.PriceLe (stakePool w.insurance) (stakePool v.insurance)) ?_
    ⟨hs, Pool.PriceLe.refl _⟩).2
  rintro u l v ⟨hu, hle⟩ ⟨⟨htotal, hsweep⟩, hstep⟩
  have hv := (step_prices hu hstep).staked
  exact ⟨hv, hle.trans hs.sound.shares htotal hv.sound.shares (step_priceLe hu hstep hsweep htotal)⟩

/-! ## Round trips -/

/-- A run that calls nothing of the pool. -/
abbrev Idle (D : Deployment) (env : Env) (w w' : World) : Prop :=
  ∃ ls, Run ((machine D env).restrict fun _ l => l.call.tx.stakes = false) w ls w'

theorem idle_sameStake (h : Idle D env w w') : SameStake w.insurance w'.insurance := by
  obtain ⟨ls, hrun⟩ := h
  refine hrun.preserves (fun v => SameStake w.insurance v.insurance) ?_ ⟨⟨rfl, rfl, rfl, rfl⟩, rfl⟩
  rintro u l v hsame ⟨htx, hadm, hexec⟩
  exact hsame.trans (effect_sameStake htx (exec_effect hadm hexec))

/-- A staker's call that returns. -/
def Calls (D : Deployment) (env : Env) (staker : Address) (tx : Tx) (w w' : World) : Prop :=
  ∃ l, l.call.msg.sender = staker ∧ l.call.tx = tx ∧ (machine D env).step w l w'

/-- Staking `amount`, and redeeming what it minted with no other call of the pool in between. -/
structure RoundTrip (D : Deployment) (env : Env) (staker : Address) (amount : Nat) (w w' before after : World) :
    Prop where
  stake : Calls D env staker (.stake amount) w w'
  redeem : ∃ w₁ w₂, Idle D env w' w₁ ∧
    Calls D env staker (.requestUnstake (Insurance.sharesOf w' staker - Insurance.sharesOf w staker)) w₁ w₂ ∧
    Idle D env w₂ before ∧ Calls D env staker .withdrawUnstaked before after

/-- **A round trip returns at most what was staked.** -/
theorem roundTrip_le {staker : Address} {amount : Nat} {before after : World} (hs : Staked w.insurance)
    (htotal : 0 < w.insurance.totalShares) (h : RoundTrip D env staker amount w w' before after) :
    before.usdc staker ≤ after.usdc staker ∧ after.usdc staker ≤ before.usdc staker + amount := by
  obtain ⟨⟨⟨⟨msg, tx⟩, _⟩, rfl, rfl, hstake⟩, w₁, w₂, hidle, ⟨⟨⟨msg₁, tx₁⟩, _⟩, hsender₁, rfl, hrequest⟩, hidle₂,
    ⟨⟨⟨msg₂, tx₂⟩, _⟩, hsender₂, rfl, hredeem⟩⟩ := h
  simp only at hsender₁ hsender₂ hrequest ⊢
  have hne : msg.sender ≠ D.vault := fun hc => hstake.1.1 ⟨.vault, hc.symm⟩
  obtain ⟨minted, hheld, hmint⟩ := stake_mints hs.sound hne (unsettled_ok.1 hstake.2).1
  have hminted : Insurance.sharesOf w' msg.sender - Insurance.sharesOf w msg.sender = minted := by omega
  rw [hminted] at hrequest
  have hs₀ := (step_prices hs hstake).staked
  have hsame₁ := idle_sameStake hidle
  have hs₁ := hsame₁.staked hs₀
  have hs₂ := (step_prices hs₁ hrequest).staked
  obtain ⟨hpos, hle, rfl⟩ := requestUnstake_ok (unsettled_ok.1 hrequest.2).1
  have hsame₂ := idle_sameStake hidle₂
  have hs₃ := hsame₂.staked hs₂
  -- The request still stands when it is redeemed, and is covered by what the staker holds.
  have hpending : before.insurance.pending msg.sender =
      ⟨minted, w₁.timestamp + Insurance.UNSTAKE_COOLDOWN, w₁.insurance.epoch⟩ := by
    rw [hsame₂.pending, ← hsender₁]
    exact Function.update_self _ _ _
  have hepoch : before.insurance.epoch = w₁.insurance.epoch := hsame₂.epoch
  have hlive : (before.insurance.pending msg.sender).epoch = before.insurance.epoch := by rw [hpending, hepoch]
  have hshares : before.insurance.shares = w₁.insurance.shares := hsame₂.shares
  have hpend : 0 < (before.insurance.pending msg.sender).shares := by rw [hpending]; exact hpos
  have hburned : redeemedShares before.insurance msg.sender = minted := by
    have hlivehold := hs₃.requests.live msg.sender hpend hlive
    have hheld₁ : Insurance.sharesOf w₁ msg.sender = (w₁.insurance.shares msg.sender).shares := by
      refine if_pos ?_
      rw [← hshares, hlivehold, hepoch]
    rw [redeemedShares, hpending, hshares, ← hheld₁]
    rw [hsender₁] at hle
    exact min_eq_left hle
  have hne₂ : msg₂.sender ≠ D.vault := hsender₂ ▸ hne
  have hlive₂ : (before.insurance.pending msg₂.sender).epoch = before.insurance.epoch := hsender₂ ▸ hlive
  obtain ⟨paid, redeemable, payout, hredeems⟩ :=
    withdrawUnstaked_redeems hne₂ hlive₂ (unsettled_ok.1 hredeem.2).1
  rw [hsender₂] at hredeems
  obtain ⟨-, hburn⟩ := redeems_burns hs₃ hpend hlive hredeems
  have hpool : stakePool before.insurance = stakePool w'.insurance := hsame₂.pool.trans hsame₁.pool
  rw [hburned, hpool] at hburn
  have hreturn := Pool.round_trip htotal hmint hburn
  have hpaid : paid ≤ amount := by
    have hscale : (0 : Int) < Decimals.SCALE := by decide
    exact_mod_cast le_of_mul_le_mul_right hreturn hscale
  rw [hredeems.usdc]
  omega

theorem withdrawUnstaked_pays (hs : Staked w.insurance) (hsender : msg.sender ≠ D.vault)
    (h : Insurance.withdrawUnstaked D w msg = .ok w') :
    ∃ paid : Nat, w'.usdc msg.sender = w.usdc msg.sender + paid ∧
      (paid = 0 ∨ ∃ redeemable, Insurance.redeemableStake D w = .ok redeemable ∧
        (paid * Decimals.SCALE : Int) * w.insurance.totalShares ≤
          (w.insurance.totalShares - w'.insurance.totalShares) * min redeemable w.insurance.stakedBalance) := by
  obtain ⟨hpos, -, ⟨-, rfl⟩ | ⟨hlive, -⟩⟩ := withdrawUnstaked_ok h
  · exact ⟨0, rfl, Or.inl rfl⟩
  · obtain ⟨paid, redeemable, payout, hredeems⟩ := withdrawUnstaked_redeems hsender hlive h
    obtain ⟨hpart, -⟩ := redeems_burns hs hpos hlive hredeems
    have hburned : w.insurance.totalShares - w'.insurance.totalShares = redeemedShares w.insurance msg.sender := by
      rw [hredeems.totalShares]
      omega
    exact ⟨paid, hredeems.usdc, Or.inr ⟨redeemable, hredeems.priced, hburned ▸ hpart⟩⟩

/-- **Staking neither dilutes nor overpays.** In every reachable world shares stand on staked capital, no call but a sweep
lowers the price of a share, a redemption pays at most its part of the smaller of the redeemable and the staked capital,
and, where there were shares before, staking and redeeming what was minted returns at most what was staked. -/
theorem staking_fair (h : Reachable (machine D env) w) :
    (0 < w.insurance.totalShares → 0 < w.insurance.stakedBalance) ∧
      (∀ l w', (machine D env).step w l w' → (∀ amount, l.call.tx ≠ .sweepToOperating amount) →
        0 < w.insurance.totalShares →
          w.insurance.stakedBalance * w'.insurance.totalShares ≤ w'.insurance.stakedBalance * w.insurance.totalShares) ∧
      (∀ staker w', Calls D env staker .withdrawUnstaked w w' →
        ∃ paid : Nat, w'.usdc staker = w.usdc staker + paid ∧
          (paid = 0 ∨ ∃ redeemable, Insurance.redeemableStake D w = .ok redeemable ∧
            (paid * Decimals.SCALE : Int) * w.insurance.totalShares ≤
              (w.insurance.totalShares - w'.insurance.totalShares) * min redeemable w.insurance.stakedBalance)) ∧
      ∀ staker amount w' before after, 0 < w.insurance.totalShares →
        RoundTrip D env staker amount w w' before after →
          before.usdc staker ≤ after.usdc staker ∧ after.usdc staker ≤ before.usdc staker + amount := by
  have hs := reachable_staked h
  refine ⟨hs.sound.backed, fun l w' hstep hsweep => step_priceLe hs hstep hsweep, ?_,
    fun staker amount w' before after htotal htrip => roundTrip_le hs htotal htrip⟩
  rintro staker w' ⟨⟨⟨msg, tx⟩, settled⟩, rfl, rfl, hstep⟩
  have hsender : msg.sender ≠ D.vault := fun hc => hstep.1.1 ⟨.vault, hc.symm⟩
  exact withdrawUnstaked_pays hs hsender (unsettled_ok.1 hstep.2).1

/-- Alice and Bob stake; Alice asks for all her shares back and waits the cooldown out. -/
def Sample.maturing : List Call := [
  call alice (.stake (100 * 10 ^ 6)),
  call bob (.stake (50 * 10 ^ 6)),
  call alice (.requestUnstake (100 * 10 ^ 18)),
  call admin (.wait (7 * 86400))]

theorem staking_fair_maturing : ∃ w',
    Calls Sample.deployment Sample.env Sample.alice .withdrawUnstaked (Sample.outcome Sample.maturing) w' ∧
      w'.usdc Sample.alice = (Sample.outcome Sample.maturing).usdc Sample.alice + 100 * 10 ^ 6 ∧
      (Sample.outcome Sample.maturing).insurance.stakedBalance * w'.insurance.totalShares ≤
        w'.insurance.stakedBalance * (Sample.outcome Sample.maturing).insurance.totalShares := by
  obtain ⟨settled, hstep⟩ := Sample.outcome_step Sample.maturing (Sample.call Sample.alice .withdrawUnstaked)
    (by decide +kernel)
  obtain ⟨-, hprice, -⟩ := staking_fair (Sample.outcome_reachable Sample.maturing)
  exact ⟨_, ⟨_, rfl, rfl, hstep⟩, by decide +kernel,
    hprice _ _ hstep (fun amount htx => absurd htx (by simp [Sample.call])) (by decide +kernel)⟩

end Kryon
