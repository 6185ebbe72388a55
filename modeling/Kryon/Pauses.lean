import Kryon.Effects
import Kryon.Sample
import Kryon.Lib.Latch
/-!
# Pauses — what the guardian's pause can stop, and for how long

Without a governance pause a contract is paused exactly while the clock is before the guardian's expiry, and the expiry is
a latch (`Latch`): `pause` arms it, `unpause` releases it, and no other call touches it.
-/
namespace Kryon

open Program Transition Latch
open KryonUpgradeable (GUARDIAN_PAUSE_DURATION GUARDIAN_PAUSE_COOLDOWN)

variable {D : Deployment} {env : Env} {w w' : World} {l : Label} {c : Contract}

/-- Whether `paused` reads true at a time, when the contract's storage is left as it is. -/
def World.PausedAt (w : World) (c : Contract) (time : Nat) : Prop := { w with timestamp := time }.paused c = true

theorem pausedAt_iff (h : (w.pauses c).indefinite = false) (time : Nat) :
    w.PausedAt c time ↔ time < (w.pauses c).guardianPauseExpiry := by
  simp only [World.PausedAt, World.paused, h, Bool.false_or, decide_eq_true_eq]

theorem paused_iff (h : (w.pauses c).indefinite = false) :
    w.paused c = true ↔ w.timestamp < (w.pauses c).guardianPauseExpiry := pausedAt_iff h w.timestamp

/-- The guardian's latch on a contract. -/
def guardian (c : Contract) (w : World) : Reading := ⟨w.timestamp, (w.pauses c).guardianPauseExpiry⟩

/-! ## What a step does to a pause -/

/-- The calls that write a contract's pauses. -/
def Config.pauses : Config → Option Contract
  | .pause c | .pauseIndefinitely c | .unpause c => some c
  | _ => none

theorem execConfig_pauses {msg : Msg} (cfg : Config) (h : cfg.pauses ≠ some c) :
    Returns (fun w' => w'.pauses c = w.pauses c) (execConfig D w msg cfg) := by
  have hother : ∀ (d : Contract) (p : PauseStorage), d ≠ c →
      (KryonUpgradeable.setPause w d p).pauses c = w.pauses c := fun d p hd => Function.update_of_ne hd.symm _ _
  cases cfg with
  | pause d =>
    have hd : d ≠ c := fun hd => h (congrArg some hd)
    exact Returns.bind fun _ => Returns.bind fun _ => Returns.bind fun _ => Returns.pure (hother d _ hd)
  | pauseIndefinitely d =>
    have hd : d ≠ c := fun hd => h (congrArg some hd)
    exact Returns.bind fun _ => Returns.bind fun _ => Returns.pure (hother d _ hd)
  | unpause d =>
    have hd : d ≠ c := fun hd => h (congrArg some hd)
    exact Returns.bind fun _ => Returns.bind fun _ => Returns.pure (hother d _ hd)
  | _ =>
    simp only [execConfig, KryonUpgradeable.changeRole, KryonUpgradeable.renounceRole, Vault.setDepositCaps,
      Vault.setCapExempt, Vault.setCollateral, RiskParams.setMarket, RiskParams.setMarketActive,
      RiskParams.setFundingConfig, RiskParams.setOiPolicy, RiskParams.setMaxTotalOiPolicyBps,
      OracleAdapter.setPublishers, OracleAdapter.setFeed, OracleAdapter.setReferenceFeed, OracleAdapter.pushPrices, FeeRouter.setMarketFees, FeeRouter.defineTier,
      FeeRouter.setAccountTier, FeeRouter.setMinNetRate, FeeRouter.setRebatesEnabled, FeeRouter.setReferralsEnabled,
      FeeRouter.setReferrerApproved, FeeRouter.setSplit, FeeRouter.setLiquidationSplit, FeeRouter.setTreasury,
      Insurance.setUnwindLimits, Liquidation.setParams]
    repeat' first
      | exact Returns.pure rfl
      | refine Returns.bind fun _ => ?_

theorem setPause_guardian (p : PauseStorage) :
    guardian c (KryonUpgradeable.setPause w c p) = ⟨w.timestamp, p.guardianPauseExpiry⟩ := by
  simp only [guardian, KryonUpgradeable.setPause, Function.update_self]

/-- Whether a transaction begins a guardian pause of a contract. -/
def Tx.pauses (c : Contract) : Tx → Bool
  | .config (.pause d) => decide (d = c)
  | _ => false

theorem pauses_iff {tx : Tx} : tx.pauses c = true ↔ tx = .config (.pause c) := by
  constructor
  · unfold Tx.pauses
    split
    · intro h
      rw [of_decide_eq_true h]
    · intro h
      exact absurd h (by decide)
  · rintro rfl
    exact decide_eq_true rfl

theorem pauses_eq_false {tx : Tx} : tx.pauses c = false ↔ tx ≠ .config (.pause c) := by
  rw [← Bool.not_eq_true, not_iff_not, pauses_iff]

/-- **A contract's guardian pause is a latch**: a guardian arms it, governance releases it, and nothing else touches it. -/
theorem guardian_latched (D : Deployment) (env : Env) (c : Contract) :
    Latched (machine D env) GUARDIAN_PAUSE_DURATION GUARDIAN_PAUSE_COOLDOWN (guardian c)
      (fun l => l.call.tx.pauses c) := by
  intro w l w' h
  show Turn _ _ (guardian c w) (l.call.tx.pauses c) (guardian c w')
  rcases step_operates h with ⟨cfg, htx, hcfg⟩ | ⟨hne, hop⟩
  · rw [htx]
    by_cases hp : cfg.pauses = some c
    · cases cfg with
      | pause e =>
        obtain rfl : e = c := Option.some.inj hp
        simp only [execConfig, KryonUpgradeable.pause, bind_ok_iff, World.onlyRole_ok, revertIf_ok, exists_const,
          pure_ok, not_and, not_lt] at hcfg
        obtain ⟨-, -, hcool, rfl⟩ := hcfg
        rw [setPause_guardian, pauses_iff.2 rfl]
        refine Turn.arm (r := guardian e w) ?_
        by_cases hzero : (w.pauses e).guardianPauseExpiry = 0
        · exact Or.inl hzero
        · exact Or.inr (hcool hzero)
      | pauseIndefinitely e =>
        obtain rfl : e = c := Option.some.inj hp
        simp only [execConfig, KryonUpgradeable.pauseIndefinitely, bind_ok_iff, World.onlyRole_ok, revertIf_ok,
          exists_const, pure_ok] at hcfg
        obtain ⟨-, -, rfl⟩ := hcfg
        rw [setPause_guardian]
        exact Turn.idle (r := guardian e w) (le_refl _)
      | unpause e =>
        obtain rfl : e = c := Option.some.inj hp
        simp only [execConfig, KryonUpgradeable.unpause, bind_ok_iff, World.onlyRole_ok, revertIf_ok, exists_const,
          pure_ok] at hcfg
        obtain ⟨-, -, rfl⟩ := hcfg
        rw [setPause_guardian]
        by_cases hheld : (w.pauses e).guardianPauseExpiry > w.timestamp
        · rw [if_pos hheld]
          exact Turn.release (r := guardian e w) hheld
        · rw [if_neg hheld]
          exact Turn.idle (r := guardian e w) (le_refl _)
      | _ => exact absurd hp (by simp [Config.pauses])
    · have hsame := execConfig_pauses cfg hp _ hcfg
      have hnow := (execConfig_configures cfg _ hcfg).timestamp
      have harms : Tx.pauses c (.config cfg) = false := by
        rw [pauses_eq_false]
        rintro ⟨⟩
        exact hp rfl
      rw [harms]
      exact Turn.idle_of_eq (le_of_eq hnow.symm) (congrArg PauseStorage.guardianPauseExpiry hsame)
  · rw [pauses_eq_false.2 (hne _)]
    exact Turn.idle_of_eq hop.timestamp (congrArg (fun p => (p c).guardianPauseExpiry) hop.pauses)

theorem reachable_timestamp_pos (h : Reachable (machine D env) w) : 0 < w.timestamp := by
  refine h.invariant (fun w => 0 < w.timestamp) (fun _ (hw : Genesis D _) => hw.timestamp) ?_
  intro w l w' _ hpos hstep
  exact lt_of_lt_of_le hpos (guardian_latched D env .vault w l w' hstep).now_le

/-! ## The bound -/

/-- The protocol while governance pauses nothing on a contract. -/
abbrev ungoverned (D : Deployment) (env : Env) (c : Contract) : Machine World Label :=
  (machine D env).restrict fun w _ => (w.pauses c).indefinite = false

/-- A run with the times at which it passed through a paused contract. -/
abbrev PausedDuring (D : Deployment) (env : Env) (c : Contract) (w : World) (ls : List Label) (w' : World)
    (H : Set Nat) : Prop :=
  Watched (ungoverned D env c) World.timestamp (fun w time => w.PausedAt c time) w ls w' H

theorem ungoverned_pausedAt (s : World) (l : Label) (t : World) (time : Nat) (h : (ungoverned D env c).step s l t) :
    s.PausedAt c time ↔ time < (guardian c s).till := pausedAt_iff h.1 time

theorem pause_turn (h : (machine D env).step w l w') (htx : l.call.tx = .config (.pause c)) :
    Turn GUARDIAN_PAUSE_DURATION GUARDIAN_PAUSE_COOLDOWN (guardian c w) true (guardian c w') := by
  rw [← pauses_iff.2 htx]
  exact guardian_latched D env c w l w' h

/-- **A guardian can stop a contract for at most 72 hours at a time, rests 24 hours before the next stop, and so stops it
for at most 72 hours in any 96.** -/
theorem guardianPause_bounded {w₀ : World} {ls : List Label} {H : Set Nat} (h₀ : Reachable (machine D env) w₀)
    (h : PausedDuring D env c w₀ ls w H) :
    (∀ v l, (machine D env).step v l w₀ → l.call.tx = .config (.pause c) →
      (∀ l ∈ ls, l.call.tx ≠ .config (.pause c)) →
        (∀ time ∈ H, time < v.timestamp + 72 * 3600) ∧
        ((w.pauses c).indefinite = false → w.paused c = true → w.timestamp < v.timestamp + 72 * 3600)) ∧
    (∀ start length, (∀ time, start ≤ time → time < start + length → time ∈ H) → length ≤ 72 * 3600) ∧
    (∀ l w', (machine D env).step w l w' → l.call.tx = .config (.pause c) →
      (∀ time ∈ H, time + 24 * 3600 < w.timestamp) ∧
      ((w₀.pauses c).indefinite = false → w₀.paused c = true → w₀.timestamp + 24 * 3600 ≤ w.timestamp)) ∧
    ∀ start, (H ∩ Set.Ico start (start + 96 * 3600)).ncard ≤ 72 * 3600 := by
  have hlatched := (guardian_latched D env c).restrict (fun w _ => (w.pauses c).indefinite = false)
  have hle := (guardian_latched D env c).till_le
    (fun w (hw : Genesis D w) => congrArg PauseStorage.guardianPauseExpiry (hw.pauses c)) h₀
  have hkept := hlatched.kept h ungoverned_pausedAt hle
  refine ⟨?_, ?_, ?_, ?_⟩
  · intro v l hpause htx hls
    obtain ⟨hle, hH⟩ := hlatched.lasts (pause_turn hpause htx) h ungoverned_pausedAt
      fun l hl => pauses_eq_false.2 (hls l hl)
    exact ⟨hH, fun hindef hpaused => lt_of_lt_of_le ((paused_iff hindef).1 hpaused) hle⟩
  · intro start length hstretch
    exact hkept.spaced.stretch_le (by decide) (by decide) hstretch
  · intro l w' hpause htx
    have hturn := pause_turn hpause htx
    refine ⟨hkept.rested hturn.cooled, fun hindef hpaused => ?_⟩
    exact hlatched.rests h.run ((paused_iff hindef).1 hpaused) (reachable_timestamp_pos h₀) hturn
  · intro start
    exact hkept.spaced.ncard_le (by decide) start

/-- The guardian stops the vault for an hour; a day after governance restarted it, it may be stopped again. -/
def Sample.pausing : List Call := [
  call admin (.config (.pause .vault)),
  call admin (.wait 3600),
  call admin (.config (.unpause .vault)),
  call admin (.wait (24 * 3600))]

theorem guardianPause_bounded_pausing :
    ∃ H, PausedDuring Sample.deployment Sample.env .vault Sample.genesis
        (trace Sample.deployment Sample.env Sample.genesis Sample.pausing) (Sample.outcome Sample.pausing) H ∧
      (∀ time ∈ H, time + 24 * 3600 < 1000 + 25 * 3600) ∧
      ∀ start, (H ∩ Set.Ico start (start + 96 * 3600)).ncard ≤ 72 * 3600 := by
  have hrun := Sample.outcome_run_restrict (fun w _ => (w.pauses .vault).indefinite = false) Sample.pausing
    (by decide +kernel) (by decide +kernel)
  obtain ⟨H, hwatched⟩ := Watched.exists_of_run World.timestamp (fun w time => w.PausedAt .vault time) hrun
  obtain ⟨settled, hpause⟩ := Sample.outcome_step Sample.pausing (Sample.call Sample.admin (.config (.pause .vault)))
    (by decide +kernel)
  have hnow : (Sample.outcome Sample.pausing).timestamp = 1000 + 25 * 3600 := by decide +kernel
  have hbounded := guardianPause_bounded (Sample.outcome_reachable []) hwatched
  refine ⟨H, hwatched, fun time htime => ?_, hbounded.2.2.2⟩
  rw [← hnow]
  exact (hbounded.2.2.1 _ _ hpause rfl).1 time htime

end Kryon
