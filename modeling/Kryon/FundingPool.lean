import Kryon.Solvency
/-!
# FundingPool — the funding counter-account never goes insolvent

The engine's own ledger account pays and receives every position's funding.  Nobody signs for it, so it never trades and
is never debited otherwise; every settlement rounds in its favour, and in a matched market a move of the indexes changes
nothing it is owed.  Its balance and the funding still owed to it are therefore never negative together.
-/
namespace Kryon

open Program Transition
open Clearing (Balanced Event State)

variable {D : Deployment} {env : Env} {w w' : World} {l : Label}

/-! ## Accounts nobody signs for -/

theorem clears_flat {es : List (Event Address MarketId)} {a : Address} (h : Clears D w es w')
    (hes : ∀ e ∈ es, ¬ e.TradesOn a) (hf : Flat w a) : Flat w' a := by
  refine h.preserves_on (fun s : State Address MarketId => ∀ m, s.size (a, m) = 0) (fun e => ¬ e.TradesOn a) ?_ hes hf
  intro s e t he hs hstep m
  rw [Clearing.step_size he hstep]
  exact hs m

/-- **A protocol contract nobody signs for never holds a position.** -/
theorem reachable_flat {c : Contract} (hc : c ≠ .insurance) (hk : Keyless env (D.address c))
    (h : Reachable (machine D env) w) : Flat w (D.address c) := by
  refine h.invariant (fun w => Flat w (D.address c)) ?_ ?_
  · intro s hs m
    rw [hs.engine]
    rfl
  · intro s l t _ hs hstep
    obtain ⟨es, hrun, hes⟩ := step_books hstep
    exact clears_flat hrun (fun e he => (hes e he).1.trades c hc hk hs) hs

/-! ## The pool -/

/-- The pool's balance and what it is still owed, in units of the index. -/
def poolEquity (D : Deployment) (w : World) : Int := (books D w).poolEquity D.engine PRECISION

theorem step_poolEquity (hk : Keyless env D.engine) (hr : Reachable (machine D env) w)
    (h : (machine D env).step w l w') : poolEquity D w ≤ poolEquity D w' := by
  obtain ⟨es, hrun, hes⟩ := step_books h
  have hflat : Flat w D.engine := reachable_flat (by decide) hk hr
  have hgrows := hrun.preserves_on
    (fun s => Balanced s ∧ poolEquity D w ≤ s.poolEquity D.engine PRECISION) (Event.Spares D.engine) ?_
    (fun e he => (hes e he).1.spares hk hflat) ⟨reachable_balanced hr, le_refl _⟩
  · exact hgrows.2
  · rintro s e t he ⟨hb, hle⟩ hstep
    exact ⟨Clearing.step_balanced hb hstep, hle.trans (Clearing.step_pool hb he (by decide) hstep)⟩

theorem reachable_poolEquity (hk : Keyless env D.engine) (h : Reachable (machine D env) w) : 0 ≤ poolEquity D w := by
  refine h.invariant (fun w => 0 ≤ poolEquity D w) ?_ ?_
  · intro s hs
    rw [poolEquity, genesis_books hs, Clearing.poolEquity_empty]
  · intro s l t hr hs hstep
    exact hs.trans (step_poolEquity hk hr hstep)

/-- The funding of a market's longs and shorts that is still owed to the pool. -/
def unsettledFunding (w : World) (m : MarketId) : Int :=
  (∑ a with 0 < (w.engine.positions (a, m)).size,
      (w.engine.positions (a, m)).size *
        ((w.engine.funding m).longIndex - (w.engine.positions (a, m)).lastFundingIndex)) +
    ∑ a with (w.engine.positions (a, m)).size < 0,
      |(w.engine.positions (a, m)).size| *
        ((w.engine.funding m).shortIndex - (w.engine.positions (a, m)).lastFundingIndex)

theorem unsettledFunding_eq (D : Deployment) (w : World) (m : MarketId) :
    unsettledFunding w m = ∑ a, (books D w).owed (a, m) := by
  rw [unsettledFunding, Finset.sum_filter, Finset.sum_filter, ← Finset.sum_add_distrib]
  refine Finset.sum_congr rfl fun a _ => ?_
  simp only [State.owed, State.sideIndex, books]
  rcases lt_trichotomy (w.engine.positions (a, m)).size 0 with hneg | hzero | hpos
  · simp only [hneg, if_true, not_lt.2 hneg.le, if_false, zero_add]
  · simp only [hzero, lt_irrefl, if_false, abs_zero, zero_mul, add_zero]
  · simp only [hpos, if_true, not_lt.2 hpos.le, if_false, add_zero, abs_of_pos hpos]

theorem poolEquity_eq (D : Deployment) (w : World) :
    poolEquity D w = w.vault.balances D.engine * PRECISION + ∑ m, unsettledFunding w m := by
  rw [poolEquity, State.poolEquity, Fintype.sum_prod_type_right]
  simp only [unsettledFunding_eq D]
  rfl

theorem unsettledFunding_flat (hf : ∀ k, (w.engine.positions k).size = 0) (m : MarketId) : unsettledFunding w m = 0 := by
  simp [unsettledFunding, hf]

/-- **The funding pool is never insolvent.** In every reachable world a market's two indexes cancel, the pool's balance and
the funding still owed to it are together nonnegative, and once every position is flat so is its balance. -/
theorem fundingPool_solvent (hk : Keyless env D.engine) (h : Reachable (machine D env) w) :
    (∀ m, (w.engine.funding m).longIndex + (w.engine.funding m).shortIndex = 0) ∧
      0 ≤ w.vault.balances D.engine * PRECISION + ∑ m, unsettledFunding w m ∧
      ((∀ k, (w.engine.positions k).size = 0) → 0 ≤ w.vault.balances D.engine) := by
  have hpool := reachable_poolEquity hk h
  rw [poolEquity_eq] at hpool
  refine ⟨fun m => (reachable_balanced h).index m, hpool, fun hf => ?_⟩
  rw [Finset.sum_eq_zero fun m _ => unsettledFunding_flat hf m, add_zero] at hpool
  exact nonneg_of_mul_nonneg_left hpool (by decide)

/-- Bob has collected his funding before Alice paid hers: the sample pool's balance is negative, what it is owed is not. -/
theorem fundingPool_solvent_funding :
    (Sample.outcome Sample.funding).vault.balances Sample.deployment.engine < 0 ∧
      0 ≤ (Sample.outcome Sample.funding).vault.balances Sample.deployment.engine * PRECISION +
        ∑ m, unsettledFunding (Sample.outcome Sample.funding) m :=
  ⟨by decide +kernel, (fundingPool_solvent (Sample.keyless .engine) (Sample.outcome_reachable Sample.funding)).2.1⟩

end Kryon
