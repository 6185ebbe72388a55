import Kryon.Effects
import Kryon.Lib.Epochs
import Kryon.Sample
/-!
# Shares — the staking pool's shares and its total

The pool is a share ledger with epochs (`shareLedger`): a stake mints, a live redemption burns, a sweep that empties the
staked capital retires the epoch, and a redemption that outlived its epoch drops the caller's holding.  The last is the one
event that does not keep the total when the holding it drops was minted after the request.
-/
namespace Kryon

open Program Transition
open OrderGateway (Settled)

variable {D : Deployment} {env : Env} {w w' : World} {msg : Msg} {l : Label}

def shareLedger (i : InsuranceStorage) : Epochs.State Address where
  epoch := i.epoch
  total := i.totalShares
  held := fun a => ((i.shares a).epoch, (i.shares a).shares)

theorem sharesOf_eq (w : World) : Insurance.sharesOf w = (shareLedger w.insurance).live := rfl

theorem shareLedger_hold (i i' : InsuranceStorage) (a : Address) (b : ShareBalance) (he : i'.epoch = i.epoch)
    (hs : i'.shares = Function.update i.shares a b) :
    shareLedger i' = { (shareLedger i).hold a (b.epoch, b.shares) with total := i'.totalShares } := by
  have hheld := Book.map_update (fun b : ShareBalance => (b.epoch, b.shares)) i.shares a b
  simp only [shareLedger, Epochs.State.hold, hs, he, hheld]

/-! ## Requests -/

/-- No request is of an epoch to come, and one of the present epoch rests on a holding of the present epoch. -/
structure RequestsLive (i : InsuranceStorage) : Prop where
  past : ∀ a, 0 < (i.pending a).shares → (i.pending a).epoch ≤ i.epoch
  live : ∀ a, 0 < (i.pending a).shares → (i.pending a).epoch = i.epoch → (i.shares a).epoch = i.epoch

/-- What reads the pool's shares and requests only. -/
structure SamePool (i i' : InsuranceStorage) : Prop where
  epoch : i'.epoch = i.epoch
  totalShares : i'.totalShares = i.totalShares
  shares : i'.shares = i.shares
  pending : i'.pending = i.pending

theorem SamePool.ledger {i i' : InsuranceStorage} (h : SamePool i i') : shareLedger i' = shareLedger i := by
  simp only [shareLedger, h.epoch, h.totalShares, h.shares]

theorem SamePool.requests {i i' : InsuranceStorage} (h : SamePool i i') (hr : RequestsLive i) : RequestsLive i' := by
  refine ⟨?_, ?_⟩
  · rw [h.pending, h.epoch]
    exact hr.past
  · rw [h.pending, h.epoch, h.shares]
    exact hr.live

theorem Frames.samePool (h : Frames w w') : SamePool w.insurance w'.insurance := by
  rw [h.insurance]
  exact ⟨rfl, rfl, rfl, rfl⟩

theorem SamePool.trans {i₁ i₂ i₃ : InsuranceStorage} (h : SamePool i₁ i₂) (h' : SamePool i₂ i₃) : SamePool i₁ i₃ :=
  ⟨h'.epoch.trans h.epoch, h'.totalShares.trans h.totalShares, h'.shares.trans h.shares, h'.pending.trans h.pending⟩

/-- The same shares, requests and staked capital. -/
structure SameStake (i i' : InsuranceStorage) : Prop extends SamePool i i' where
  stakedBalance : i'.stakedBalance = i.stakedBalance

theorem SameStake.trans {i₁ i₂ i₃ : InsuranceStorage} (h : SameStake i₁ i₂) (h' : SameStake i₂ i₃) : SameStake i₁ i₃ :=
  ⟨h.toSamePool.trans h'.toSamePool, h'.stakedBalance.trans h.stakedBalance⟩

theorem Frames.sameStake (h : Frames w w') : SameStake w.insurance w'.insurance :=
  ⟨h.samePool, by rw [h.insurance]⟩

theorem chain_sameStake {settled : List Settled} (h : Chain D env msg w settled w') :
    SameStake w.insurance w'.insurance := by
  refine h.relates (fun w w' => SameStake w.insurance w'.insurance) (fun _ => ⟨⟨rfl, rfl, rfl, rfl⟩, rfl⟩)
    (fun _ _ _ => SameStake.trans) ?_
  intro w wallet f w' st hone
  obtain ⟨orderState, unwound, hc⟩ := settleOne_charges hone
  have hsame : SameStake w.insurance (withProgress w orderState unwound).insurance := ⟨⟨rfl, rfl, rfl, rfl⟩, rfl⟩
  exact hsame.trans hc.toFrames.sameStake

/-! ## The staking calls -/

/-- A call's event on the share ledger, with the requests kept live. -/
structure Pools (w w' : World) (e : Epochs.Event Address) : Prop where
  step : Epochs.Step (shareLedger w.insurance) e (shareLedger w'.insurance)
  requests : RequestsLive w'.insurance

theorem requests_hold {i : InsuranceStorage} (hr : RequestsLive i) {a : Address} {b : ShareBalance}
    (hb : 0 < (i.pending a).shares → (i.pending a).epoch = i.epoch → b.epoch = i.epoch) (c : Address)
    (hc : 0 < (i.pending c).shares) (he : (i.pending c).epoch = i.epoch) :
    (Function.update i.shares a b c).epoch = i.epoch := by
  by_cases h : c = a
  · subst h
    rw [Function.update_self]
    exact hb hc he
  · rw [Function.update_of_ne h]
    exact hr.live c hc he

/-- **A stake mints.** -/
theorem stake_pools {amount : Nat} (hs : msg.sender ≠ D.vault) (hr : RequestsLive w.insurance)
    (h : Insurance.stake D w msg amount = .ok w') : ∃ x, Pools w w' (.mint msg.sender x) := by
  obtain ⟨w₁, minted, hpull, -, -, rfl⟩ := stake_ok h
  have hsame : SamePool w.insurance w₁.insurance := (pullIntoVault_clears hs hpull).1.toFrames.samePool
  have hr₁ := hsame.requests hr
  refine ⟨minted, ⟨?_, hr₁.past, requests_hold hr₁ fun _ _ => rfl⟩⟩
  have hledger := shareLedger_hold w₁.insurance (stakedPool w₁.insurance msg.sender
    (w.insurance.stakedBalance + amount * Decimals.SCALE) (w₁.insurance.totalShares + minted)
    (Insurance.sharesOf w₁ msg.sender + minted)) msg.sender
    ⟨w₁.insurance.epoch, Insurance.sharesOf w₁ msg.sender + minted⟩ rfl rfl
  rw [← hsame.ledger, ← hsame.totalShares, withInsurance_insurance, hledger]
  exact Epochs.Step.mint (s := shareLedger w₁.insurance) msg.sender minted

theorem requestUnstake_requests {shares : Int} (hr : RequestsLive w.insurance)
    (h : Insurance.requestUnstake w msg shares = .ok w') :
    shareLedger w'.insurance = shareLedger w.insurance ∧ RequestsLive w'.insurance := by
  obtain ⟨hpos, hheld, rfl⟩ := requestUnstake_ok h
  have hlive : (w.insurance.shares msg.sender).epoch = w.insurance.epoch := by
    by_contra hne
    rw [Insurance.sharesOf] at hheld
    simp only [hne, if_false] at hheld
    omega
  refine ⟨rfl, ⟨fun a ha => ?_, fun a ha he => ?_⟩⟩
  · simp only [withInsurance, requestedPool] at ha ⊢
    by_cases hc : a = msg.sender
    · rw [hc, Function.update_self]
    · rw [Function.update_of_ne hc] at ha ⊢
      exact hr.past a ha
  · simp only [withInsurance, requestedPool] at ha he ⊢
    by_cases hc : a = msg.sender
    · rw [hc]
      exact hlive
    · rw [Function.update_of_ne hc] at ha he
      exact hr.live a ha he

/-- Dropping the caller's request keeps the others live, whatever the caller's holding becomes. -/
theorem requests_dropped {i : InsuranceStorage} (hr : RequestsLive i) {a : Address} {b : ShareBalance}
    {i' : InsuranceStorage} (he : i'.epoch = i.epoch) (hs : i'.shares = Function.update i.shares a b)
    (hp : i'.pending = Function.update i.pending a ⟨0, 0, 0⟩) : RequestsLive i' := by
  have hne : ∀ c, 0 < (Function.update i.pending a ⟨0, 0, 0⟩ c).shares → c ≠ a := by
    rintro c hc rfl
    simp at hc
  refine ⟨fun c hc => ?_, fun c hc hce => ?_⟩
  · rw [hp] at hc ⊢
    rw [he, Function.update_of_ne (hne c hc)]
    rw [Function.update_of_ne (hne c hc)] at hc
    exact hr.past c hc
  · rw [hp] at hc hce
    have hca := hne c hc
    rw [Function.update_of_ne hca] at hc hce
    rw [hs, he, Function.update_of_ne hca]
    exact hr.live c hc (hce.trans he)

/-- **A redemption burns, unless it outlived its epoch: then it drops the caller's holding.** -/
theorem withdrawUnstaked_pools (hr : RequestsLive w.insurance) (h : Insurance.withdrawUnstaked D w msg = .ok w') :
    ((w.insurance.pending msg.sender).epoch = w.insurance.epoch ∧ ∃ x, Pools w w' (.burn msg.sender x)) ∨
      (w.insurance.pending msg.sender).epoch ≠ w.insurance.epoch ∧ Pools w w' (.drop msg.sender) := by
  obtain ⟨hpos, -, ⟨hstale, rfl⟩ | ⟨hlive, w₁, amount, hw₁, h⟩⟩ := withdrawUnstaked_ok h
  · refine Or.inr ⟨hstale, ⟨?_, requests_dropped hr rfl rfl rfl⟩⟩
    have hledger := shareLedger_hold w.insurance (clearedPool w.insurance msg.sender) msg.sender ⟨0, 0⟩ rfl rfl
    rw [withInsurance_insurance, hledger]
    exact Epochs.Step.drop (s := shareLedger w.insurance) msg.sender (Nat.zero_le _) rfl
  · have hsame : SamePool w₁.insurance w'.insurance := by
      rcases h with h | rfl
      · exact (withdrawTo_clears h).1.toFrames.samePool
      · exact ⟨rfl, rfl, rfl, rfl⟩
    have hepoch : (w.insurance.shares msg.sender).epoch = w.insurance.epoch := hr.live _ hpos hlive
    refine Or.inl ⟨hlive, redeemedShares w.insurance msg.sender, ?_, hsame.requests ?_⟩
    · rw [hsame.ledger, hw₁]
      have hledger := shareLedger_hold w.insurance (redeemedPool w.insurance msg.sender
        (redeemedShares w.insurance msg.sender) (amount * Decimals.SCALE)) msg.sender ⟨w.insurance.epoch,
        (w.insurance.shares msg.sender).shares - redeemedShares w.insurance msg.sender⟩ rfl (by rw [← hepoch]; rfl)
      rw [withInsurance_insurance, hledger]
      exact Epochs.Step.burn (s := shareLedger w.insurance) msg.sender _ hepoch
    · rw [hw₁]
      exact requests_dropped hr rfl rfl rfl

/-- **A sweep that empties the pool retires the epoch**; any other leaves the shares alone. -/
theorem sweepToOperating_pools {amount : Int} (hr : RequestsLive w.insurance)
    (h : Insurance.sweepToOperating w msg amount = .ok w') :
    Pools w w' .retire ∨ shareLedger w'.insurance = shareLedger w.insurance ∧ RequestsLive w'.insurance := by
  obtain ⟨swept, -, -, rfl | rfl⟩ := sweepToOperating_ok h
  · exact Or.inr ⟨rfl, hr⟩
  · unfold sweptPool
    split
    · refine Or.inl ⟨Epochs.Step.retire (s := shareLedger w.insurance), ⟨fun a ha => ?_, fun a ha he => ?_⟩⟩
      · exact (hr.past a ha).trans (Nat.le_succ _)
      · have hpast := hr.past a ha
        simp only [withInsurance] at he
        omega
    · exact Or.inr ⟨rfl, ⟨hr.past, hr.live⟩⟩

/-! ## Transactions -/

/-- The redemptions of a request that outlived its epoch, by an account that has staked again since. -/
def Call.DropsLiveShares (w : World) (call : Call) : Prop :=
  match call.tx with
  | .withdrawUnstaked => (w.insurance.pending call.msg.sender).epoch ≠ w.insurance.epoch ∧
      Insurance.sharesOf w call.msg.sender ≠ 0
  | _ => False

theorem effect_sameStake {tx : Tx} {settled : List Settled} (htx : tx.stakes = false)
    (h : Effect D env w msg tx w' settled) : SameStake w.insurance w'.insurance := by
  cases h with
  | configured h =>
    rw [(execConfig_configures _ _ h).insurance]
    exact ⟨⟨rfl, rfl, rfl, rfl⟩, rfl⟩
  | charged _ h => exact h.toFrames.sameStake
  | settled h => exact chain_sameStake h
  | cancelled _ _ _ _ => exact ⟨⟨rfl, rfl, rfl, rfl⟩, rfl⟩
  | staked h _ _ => exact absurd (htx.symm.trans h) (by decide)
  | outside _ _ => exact ⟨⟨rfl, rfl, rfl, rfl⟩, rfl⟩

/-- **What a step does to the shares**: nothing, or one event that drops a live holding only if the call does. -/
theorem step_pools (hr : RequestsLive w.insurance) (h : (machine D env).step w l w') :
    (shareLedger w'.insurance = shareLedger w.insurance ∧ RequestsLive w'.insurance) ∨
      ∃ e, Pools w w' e ∧ ∀ a, e = .drop a → ¬ l.call.DropsLiveShares w → Insurance.sharesOf w a = 0 := by
  obtain ⟨hadm, hexec⟩ := h
  obtain ⟨⟨msg, tx⟩, settled⟩ := l
  have hsender : ∀ c, msg.sender ≠ D.address c := fun c hc => hadm.1 ⟨c, hc.symm⟩
  by_cases htx : tx.stakes = true
  · cases tx with
    | stake amount =>
      obtain ⟨x, hp⟩ := stake_pools (hsender .vault) hr (unsettled_ok.1 hexec).1
      exact Or.inr ⟨_, hp, fun a ha => absurd ha (by simp)⟩
    | requestUnstake shares => exact Or.inl (requestUnstake_requests hr (unsettled_ok.1 hexec).1)
    | withdrawUnstaked =>
      rcases withdrawUnstaked_pools hr (unsettled_ok.1 hexec).1 with ⟨-, x, hp⟩ | ⟨hstale, hp⟩
      · exact Or.inr ⟨_, hp, fun a ha => absurd ha (by simp)⟩
      · refine Or.inr ⟨_, hp, fun a ha hd => ?_⟩
        obtain rfl := Epochs.Event.drop.inj ha
        by_contra hlive
        exact hd ⟨hstale, hlive⟩
    | sweepToOperating amount =>
      rcases sweepToOperating_pools hr (unsettled_ok.1 hexec).1 with hp | hsame
      · exact Or.inr ⟨_, hp, fun a ha => absurd ha (by simp)⟩
      · exact Or.inl hsame
    | _ => exact absurd htx (by simp [Tx.stakes])
  · have hsame := (effect_sameStake (by simpa using htx) (exec_effect hadm hexec)).toSamePool
    exact Or.inl ⟨hsame.ledger, hsame.requests hr⟩

theorem step_requests (hr : RequestsLive w.insurance) (h : (machine D env).step w l w') :
    RequestsLive w'.insurance := by
  rcases step_pools hr h with ⟨-, hr'⟩ | ⟨e, hp, -⟩
  · exact hr'
  · exact hp.requests

/-- **Every step that drops no live share conserves the shares.** -/
theorem step_conserves (hr : RequestsLive w.insurance) (hc : Epochs.Conserved (shareLedger w.insurance))
    (hd : ¬ l.call.DropsLiveShares w) (h : (machine D env).step w l w') :
    Epochs.Conserved (shareLedger w'.insurance) := by
  rcases step_pools hr h with ⟨hsame, -⟩ | ⟨e, hp, hdrop⟩
  · rw [hsame]
    exact hc
  · exact Epochs.step_conserved hc (fun a ha => hdrop a ha hd) hp.step

/-- **A step that drops live shares leaves the total above their sum.** -/
theorem step_drops (hr : RequestsLive w.insurance)
    (hc : ∑ a, Insurance.sharesOf w a = w.insurance.totalShares) (hd : l.call.DropsLiveShares w)
    (h : (machine D env).step w l w') :
    ∑ a, Insurance.sharesOf w' a ≠ w'.insurance.totalShares := by
  obtain ⟨hadm, hexec⟩ := h
  obtain ⟨⟨msg, tx⟩, settled⟩ := l
  cases tx with
  | withdrawUnstaked =>
    rcases withdrawUnstaked_pools hr (unsettled_ok.1 hexec).1 with ⟨hlive, -⟩ | ⟨-, hp⟩
    · exact absurd hlive hd.1
    · have hexcess : w'.insurance.totalShares = ∑ a, Insurance.sharesOf w' a + Insurance.sharesOf w msg.sender :=
        Epochs.drop_excess hc.symm hp.step
      have hlive : Insurance.sharesOf w msg.sender ≠ 0 := hd.2
      omega
  | _ => exact absurd hd id

/-! ## Runs -/

theorem genesis_requests (h : Genesis D w) : RequestsLive w.insurance := by
  rw [h.insurance]
  exact ⟨fun _ _ => le_refl 0, fun _ _ _ => rfl⟩

theorem genesis_conserved (h : Genesis D w) : Epochs.Conserved (shareLedger w.insurance) := by
  rw [h.insurance]
  exact ⟨(Finset.sum_eq_zero fun _ _ => rfl).symm, fun _ => le_refl 0⟩

/-- **Every reachable request is live or outlived its epoch.** -/
theorem reachable_requests (h : Reachable (machine D env) w) : RequestsLive w.insurance :=
  h.invariant (fun w => RequestsLive w.insurance) (fun _ => genesis_requests) fun _ _ _ _ => step_requests

/-- **Share conservation.** On a run that redeems no outlived request against shares staked since, the shares sum to the
total in every world reached; and the next step keeps it so exactly when it is no such redemption either. -/
theorem shares_conserved {w₀ : World} {ls : List Label} (h₀ : Genesis D w₀)
    (h : Run ((machine D env).restrict fun w l => ¬ l.call.DropsLiveShares w) w₀ ls w) :
    ∑ a, Insurance.sharesOf w a = w.insurance.totalShares ∧
      ∀ l w', (machine D env).step w l w' →
        (∑ a, Insurance.sharesOf w' a = w'.insurance.totalShares ↔ ¬ l.call.DropsLiveShares w) := by
  obtain ⟨hr, hc⟩ : RequestsLive w.insurance ∧ Epochs.Conserved (shareLedger w.insurance) := by
    refine h.preserves (fun w => RequestsLive w.insurance ∧ Epochs.Conserved (shareLedger w.insurance)) ?_
      ⟨genesis_requests h₀, genesis_conserved h₀⟩
    rintro s l t ⟨hr, hc⟩ ⟨hd, hstep⟩
    exact ⟨step_requests hr hstep, step_conserves hr hc hd hstep⟩
  have htotal : ∑ a, Insurance.sharesOf w a = w.insurance.totalShares := hc.total.symm
  refine ⟨htotal, fun l w' hstep => ⟨fun heq hd => ?_, fun hd => ?_⟩⟩
  · exact step_drops hr htotal hd hstep heq
  · exact (step_conserves hr hc hd hstep).total.symm

/-- Alice's stake is the only holding, and the next redemption would keep the total: she has requested nothing. -/
theorem shares_conserved_stake :
    ∑ a, Insurance.sharesOf (Sample.outcome [Sample.call Sample.alice (.stake (100 * 10 ^ 6))]) a = 100 * 10 ^ 18 := by
  obtain ⟨settled, hstep⟩ := Sample.outcome_step [] (Sample.call Sample.alice (.stake (100 * 10 ^ 6)))
    (by decide +kernel)
  have hrun := Run.single (M := (machine Sample.deployment Sample.env).restrict
    fun w l => ¬ l.call.DropsLiveShares w) ⟨id, hstep⟩
  have htotal : (Sample.outcome [Sample.call Sample.alice (.stake (100 * 10 ^ 6))]).insurance.totalShares =
      100 * 10 ^ 18 := by decide +kernel
  rw [← htotal]
  exact (shares_conserved Sample.genesis_ok hrun).1

/-- Alice stakes, requests, loses the stake to a sweep, and stakes again in the next epoch; her first request matures. -/
def Sample.outlived : List Call := [
  call alice (.stake (100 * 10 ^ 6)),
  call alice (.requestUnstake (50 * 10 ^ 18)),
  call admin (.sweepToOperating (100 * 10 ^ 18)),
  call alice (.stake (100 * 10 ^ 6)),
  call admin (.wait (7 * 86400))]

/-- Redeeming the outlived request deletes Alice's second stake: no sum of shares stands behind the total any more. -/
theorem shares_not_conserved_outlived :
    ¬ ∀ w, Reachable (machine Sample.deployment Sample.env) w →
      ∑ a, Insurance.sharesOf w a = w.insurance.totalShares := by
  intro hall
  obtain ⟨settled, hstep⟩ := Sample.outcome_step Sample.outlived (Sample.call Sample.alice .withdrawUnstaked)
    (by decide +kernel)
  have hbefore := Sample.outcome_reachable Sample.outlived
  have hd : Call.DropsLiveShares (Sample.outcome Sample.outlived) (Sample.call Sample.alice .withdrawUnstaked) :=
    ⟨by decide +kernel, by decide +kernel⟩
  exact step_drops (reachable_requests hbefore) (hall _ hbefore) hd hstep (hall _ (hbefore.step hstep))

end Kryon
