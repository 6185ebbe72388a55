import Kryon.Staking
/-!
# Cooldowns — no share leaves the pool before its request is seven days old

A request is written by its staker alone, with the time it matures at, and stands until the staker redeems it or, in a
later epoch, makes another.  So a redemption always has a request behind it, made by the same account at least the cooldown
before, and redeems no more than was asked for.
-/
namespace Kryon

open Program Transition

variable {D : Deployment} {env : Env} {w w' w₀ : World} {msg : Msg} {l : Label} {ls : List Label} {a : Address}

/-- The calls by which an account writes its own request. -/
def Call.Unstakes (a : Address) (call : Call) : Prop :=
  call.msg.sender = a ∧ ((∃ shares, call.tx = .requestUnstake shares) ∨ call.tx = .withdrawUnstaked)

/-- What a step does to an account's request. -/
inductive Requests (w : World) (l : Label) (a : Address) (w' : World) : Prop where
  | kept (hl : ¬ l.call.Unstakes a) (h : w'.insurance.pending a = w.insurance.pending a)
  | made {shares : Int} (htx : l.call.tx = .requestUnstake shares) (hsender : l.call.msg.sender = a) (hpos : 0 < shares)
      (hheld : shares ≤ Insurance.sharesOf w a)
      (hfree : 0 < (w.insurance.pending a).shares → (w.insurance.pending a).epoch ≠ w.insurance.epoch)
      (h : w'.insurance.pending a = ⟨shares, w.timestamp + Insurance.UNSTAKE_COOLDOWN, w.insurance.epoch⟩)
  | cleared (htx : l.call.tx = .withdrawUnstaked) (hsender : l.call.msg.sender = a)
      (h : w'.insurance.pending a = ⟨0, 0, 0⟩)

theorem requestUnstake_free {shares : Int} (h : Insurance.requestUnstake w msg shares = .ok w') :
    0 < (w.insurance.pending msg.sender).shares → (w.insurance.pending msg.sender).epoch ≠ w.insurance.epoch := by
  simp only [Insurance.requestUnstake, bind_ok_iff, revertIf_ok, exists_const, not_and, gt_iff_lt] at h
  obtain ⟨_, -, -, -, hfree, -⟩ := h
  exact hfree

theorem step_request (a : Address) (h : (machine D env).step w l w') : Requests w l a w' := by
  obtain ⟨hadm, hexec⟩ := h
  obtain ⟨⟨msg, tx⟩, settled⟩ := l
  have hsender : ∀ c, msg.sender ≠ D.address c := fun c hc => hadm.1 ⟨c, hc.symm⟩
  cases htx : tx.stakes with
  | false =>
    refine .kept ?_ (by rw [(effect_sameStake htx (exec_effect hadm hexec)).pending])
    rintro ⟨-, ⟨shares, rfl⟩ | rfl⟩ <;> exact absurd htx (by simp [Tx.stakes])
  | true =>
    cases tx with
    | stake amount =>
      obtain ⟨w₁, minted, hpull, -, -, rfl⟩ := stake_ok (unsettled_ok.1 hexec).1
      have hsame : SamePool w.insurance w₁.insurance := (pullIntoVault_clears (hsender .vault) hpull).1.toFrames.samePool
      refine .kept (by rintro ⟨-, ⟨shares, h⟩ | h⟩ <;> simp at h) ?_
      rw [withInsurance_insurance, stakedPool, hsame.pending]
    | sweepToOperating amount =>
      refine .kept (by rintro ⟨-, ⟨shares, h⟩ | h⟩ <;> simp at h) ?_
      obtain ⟨swept, -, -, rfl | rfl⟩ := sweepToOperating_ok (unsettled_ok.1 hexec).1
      · rfl
      · rw [withInsurance_insurance, sweptPool]
        split <;> rfl
    | requestUnstake shares =>
      have hrun := (unsettled_ok.1 hexec).1
      obtain ⟨hpos, hheld, rfl⟩ := requestUnstake_ok hrun
      by_cases hc : msg.sender = a
      · subst hc
        exact .made rfl rfl hpos hheld (requestUnstake_free hrun) (Function.update_self ..)
      · exact .kept (fun hu => hc hu.1) (Function.update_of_ne (Ne.symm hc) ..)
    | withdrawUnstaked =>
      have hcases := (withdrawUnstaked_ok (unsettled_ok.1 hexec).1).2.2
      have hpending : w'.insurance.pending = Function.update w.insurance.pending msg.sender ⟨0, 0, 0⟩ := by
        rcases hcases with ⟨-, rfl⟩ | ⟨-, w₁, amount, rfl, h | rfl⟩
        · rfl
        · rw [(withdrawTo_clears h).1.toFrames.samePool.pending]
          rfl
        · rfl
      by_cases hc : msg.sender = a
      · subst hc
        exact .cleared rfl rfl (by rw [hpending, Function.update_self])
      · exact .kept (fun hu => hc hu.1) (by rw [hpending, Function.update_of_ne (Ne.symm hc)])
    | _ => exact absurd htx (by simp [Tx.stakes])

/-- **Every standing request was made by its staker**, who has neither redeemed it nor made another since. -/
theorem request_made (h₀ : Genesis D w₀) (h : Run (machine D env) w₀ ls w) (hpos : 0 < (w.insurance.pending a).shares) :
    ∃ before u r v after, ls = before ++ r :: after ∧ Run (machine D env) w₀ before u ∧ (machine D env).step u r v ∧
      Run (machine D env) v after w ∧ r.call.tx = .requestUnstake (w.insurance.pending a).shares ∧
      r.call.msg.sender = a ∧ (w.insurance.pending a).shares ≤ Insurance.sharesOf u a ∧
      (w.insurance.pending a).unlockTime = u.timestamp + Insurance.UNSTAKE_COOLDOWN ∧
      (w.insurance.pending a).epoch = u.insurance.epoch ∧ ∀ l ∈ after, ¬ l.call.Unstakes a := by
  have hinit : ¬ w₀.insurance.pending a = w.insurance.pending a := by
    intro he
    rw [← he, h₀.insurance] at hpos
    exact absurd hpos (by simp)
  obtain ⟨before, u, r, v, after, rfl, hbefore, hstep, hnot, hv, hafter, hkept⟩ :=
    h.establishes (fun s => s.insurance.pending a = w.insurance.pending a) hinit rfl
  have hrest : ∀ l ∈ after, ¬ l.call.Unstakes a := by
    intro l hl
    obtain ⟨x, y, hx, hy, hxy⟩ := hkept l hl
    rcases step_request a hxy with ⟨hn, -⟩ | ⟨-, -, -, -, hfree, hmade⟩ | ⟨-, -, hcleared⟩
    · exact hn
    · -- A second request would be of a later epoch than the one that stands.
      have hepoch : (x.insurance.pending a).epoch = x.insurance.epoch := by rw [hx, ← hy, hmade]
      exact absurd hepoch (hfree (by rw [hx]; exact hpos))
    · rw [← hy, hcleared] at hpos
      exact absurd hpos (by simp)
  refine ⟨before, u, r, v, after, rfl, hbefore, hstep, hafter, ?_⟩
  rcases step_request a hstep with ⟨-, hsame⟩ | ⟨htx, hsender, -, hheld, -, hmade⟩ | ⟨-, -, hcleared⟩
  · exact absurd (hsame.symm.trans hv) hnot
  · rw [← hv, hmade]
    exact ⟨htx, hsender, hheld, rfl, rfl, hrest⟩
  · rw [← hv, hcleared] at hpos
    exact absurd hpos (by simp)

/-- **A holding shrinks only when its epoch is retired, or its staker redeems a matured request.** -/
theorem step_fewer (h : (machine D env).step w l w') (hfewer : Insurance.sharesOf w' a < Insurance.sharesOf w a) :
    w'.insurance.epoch ≠ w.insurance.epoch ∨ (l.call.tx = .withdrawUnstaked ∧ l.call.msg.sender = a ∧
      0 < (w.insurance.pending a).shares ∧ (w.insurance.pending a).unlockTime ≤ w.timestamp ∧
      ((w.insurance.pending a).epoch = w.insurance.epoch →
        Insurance.sharesOf w a - Insurance.sharesOf w' a ≤ (w.insurance.pending a).shares)) := by
  obtain ⟨hadm, hexec⟩ := h
  obtain ⟨⟨msg, tx⟩, settled⟩ := l
  have hsender : ∀ c, msg.sender ≠ D.address c := fun c hc => hadm.1 ⟨c, hc.symm⟩
  have hsame : ∀ {u v : World}, SamePool u.insurance v.insurance → Insurance.sharesOf v a = Insurance.sharesOf u a := by
    intro u v hp
    simp only [Insurance.sharesOf, hp.shares, hp.epoch]
  cases htx : tx.stakes with
  | false =>
    have hkept := hsame (effect_sameStake htx (exec_effect hadm hexec)).toSamePool
    omega
  | true =>
    cases tx with
    | stake amount =>
      obtain ⟨w₁, minted, hpull, hminted, -, rfl⟩ := stake_ok (unsettled_ok.1 hexec).1
      have hpulled := hsame (pullIntoVault_clears (hsender .vault) hpull).1.toFrames.samePool
      refine absurd hfewer (not_lt.2 ?_)
      rw [← hpulled]
      unfold stakedPool
      by_cases hc : a = msg.sender
      · subst hc
        generalize hheld : Insurance.sharesOf w₁ msg.sender = held
        simp only [Insurance.sharesOf, withInsurance_insurance, Function.update_self, if_true]
        omega
      · simp only [Insurance.sharesOf, withInsurance_insurance, Function.update_of_ne hc, le_refl]
    | requestUnstake shares =>
      obtain ⟨-, -, rfl⟩ := requestUnstake_ok (unsettled_ok.1 hexec).1
      exact absurd hfewer (lt_irrefl _)
    | sweepToOperating amount =>
      refine Or.inl fun he => ?_
      obtain ⟨swept, -, -, rfl | rfl⟩ := sweepToOperating_ok (unsettled_ok.1 hexec).1
      · exact absurd hfewer (lt_irrefl _)
      · rw [withInsurance_insurance, sweptPool] at he
        split at he
        · simp at he
        · rename_i hne
          simp only [Insurance.sharesOf, withInsurance_insurance, sweptPool, if_neg hne] at hfewer
          exact absurd hfewer (lt_irrefl _)
    | withdrawUnstaked =>
      obtain ⟨hpos, htime, hcases⟩ := withdrawUnstaked_ok (unsettled_ok.1 hexec).1
      have hother : a ≠ msg.sender → Insurance.sharesOf w' a = Insurance.sharesOf w a := by
        intro hc
        rcases hcases with ⟨-, rfl⟩ | ⟨-, w₁, amount, rfl, h | rfl⟩
        · simp only [Insurance.sharesOf, withInsurance_insurance, clearedPool, requestedPool, Function.update_of_ne hc]
        · rw [hsame (withdrawTo_clears h).1.toFrames.samePool]
          simp only [Insurance.sharesOf, withInsurance_insurance, redeemedPool, requestedPool, Function.update_of_ne hc]
        · simp only [Insurance.sharesOf, withInsurance_insurance, redeemedPool, requestedPool, Function.update_of_ne hc]
      have hc : a = msg.sender := by
        by_contra hc
        exact absurd hfewer (by rw [hother hc]; exact lt_irrefl _)
      subst hc
      refine Or.inr ⟨rfl, rfl, hpos, htime, fun hlive => ?_⟩
      have hredeemed : ∀ amount : Nat, Insurance.sharesOf w msg.sender - Insurance.sharesOf (withInsurance w
          (redeemedPool w.insurance msg.sender (redeemedShares w.insurance msg.sender) (amount * Decimals.SCALE)))
            msg.sender ≤ (w.insurance.pending msg.sender).shares := by
        intro amount
        simp only [Insurance.sharesOf, withInsurance_insurance, redeemedPool, requestedPool, Function.update_self]
        have hle : redeemedShares w.insurance msg.sender ≤ (w.insurance.pending msg.sender).shares := min_le_left _ _
        have hasked : 0 < (w.insurance.pending msg.sender).shares := hpos
        split <;> omega
      rcases hcases with ⟨hstale, -⟩ | ⟨-, w₁, amount, rfl, h | rfl⟩
      · exact absurd hlive hstale
      · rw [hsame (withdrawTo_clears h).1.toFrames.samePool]
        exact hredeemed amount
      · exact hredeemed amount
    | _ => exact absurd htx (by simp [Tx.stakes])

/-- **No share leaves the pool before its request is seven days old.**  Whenever a step of a run leaves an account fewer
shares, the epoch was retired by a sweep, or the account itself redeemed a request that it had made earlier in the run, at
least the cooldown before, for shares it then held, with no other request and no redemption of its own in between; and
unless the request had outlived its epoch, no more shares went than it asked for. -/
theorem unstake_cooled (h₀ : Genesis D w₀) (h : Run (machine D env) w₀ ls w) (hstep : (machine D env).step w l w')
    (hfewer : Insurance.sharesOf w' a < Insurance.sharesOf w a) :
    w'.insurance.epoch ≠ w.insurance.epoch ∨
      (l.call.tx = .withdrawUnstaked ∧ l.call.msg.sender = a ∧ ∃ before u r v after shares,
        ls = before ++ r :: after ∧ Run (machine D env) w₀ before u ∧ (machine D env).step u r v ∧
          Run (machine D env) v after w ∧ r.call.tx = .requestUnstake shares ∧ r.call.msg.sender = a ∧
          shares ≤ Insurance.sharesOf u a ∧ u.timestamp + Insurance.UNSTAKE_COOLDOWN ≤ w.timestamp ∧
          (∀ l' ∈ after, ¬ l'.call.Unstakes a) ∧
          (u.insurance.epoch = w.insurance.epoch → Insurance.sharesOf w a - Insurance.sharesOf w' a ≤ shares)) := by
  rcases step_fewer hstep hfewer with hretired | ⟨htx, hsender, hpos, htime, hle⟩
  · exact Or.inl hretired
  · obtain ⟨before, u, r, v, after, hls, hbefore, hmade, hafter, hrtx, hrsender, hheld, hunlock, hepoch, hrest⟩ :=
      request_made h₀ h hpos
    refine Or.inr ⟨htx, hsender, before, u, r, v, after, _, hls, hbefore, hmade, hafter, hrtx, hrsender, hheld, ?_, hrest,
      fun he => hle (hepoch.trans he)⟩
    rw [← hunlock]
    exact htime

theorem unstake_cooled_maturing : ∃ settled w',
    (machine Sample.deployment Sample.env).step (Sample.outcome Sample.maturing)
      ⟨Sample.call Sample.alice .withdrawUnstaked, settled⟩ w' ∧
    (w'.insurance.epoch ≠ (Sample.outcome Sample.maturing).insurance.epoch ∨
      ∃ before u r v after shares,
        trace Sample.deployment Sample.env Sample.genesis Sample.maturing = before ++ r :: after ∧
          (machine Sample.deployment Sample.env).step u r v ∧ r.call.tx = .requestUnstake shares ∧
          u.timestamp + Insurance.UNSTAKE_COOLDOWN ≤ (Sample.outcome Sample.maturing).timestamp) := by
  obtain ⟨settled, hstep⟩ := Sample.outcome_step Sample.maturing (Sample.call Sample.alice .withdrawUnstaked)
    (by decide +kernel)
  refine ⟨settled, _, hstep, ?_⟩
  rcases unstake_cooled (a := Sample.alice) Sample.genesis_ok (Sample.outcome_run Sample.maturing (by decide +kernel))
    hstep (by decide +kernel) with hretired | ⟨-, -, before, u, r, v, after, shares, hls, -, hmade, -, htx, -, -, htime, -⟩
  · exact Or.inl hretired
  · exact Or.inr ⟨before, u, r, v, after, shares, hls, hmade, htx, htime⟩

end Kryon
