import Kryon.FundingPool
/-!
# Deficits — what settling bad debt covers, against what an account is worth

A bad-debt settlement pays and records an account's negative ledger balance once it holds no position.  For every account
but one that balance is all the account is worth.  The funding pool's is not: it is still owed what positions have not
settled, and with that it is never negative (`pool_worth_nonneg`).
-/
namespace Kryon

open Program Transition

variable {D : Deployment} {env : Env} {w w' : World}

/-! ## Worth -/

/-- A position's value at a price, net of its cost basis, in units of the index. -/
def positionValue (w : World) (price : MarketId → Int) (a : Address) (m : MarketId) : Int :=
  (w.engine.positions (a, m)).size * price m - (w.engine.positions (a, m)).openNotional * PRECISION

/-- The funding accrued to an account and not settled: what its own positions owe counts against it, and what every
position owes counts for the pool. -/
def accruedFunding (D : Deployment) (w : World) (a : Address) : Int :=
  (if a = D.engine then ∑ m, unsettledFunding w m else 0) -
    ∑ m, Engine.fundingOwed (w.engine.funding m) (w.engine.positions (a, m))

/-- Ledger balance, positions and accrued funding together. -/
def worth (D : Deployment) (w : World) (price : MarketId → Int) (a : Address) : Int :=
  w.vault.balances a * PRECISION + ∑ m, positionValue w price a m + accruedFunding D w a

def economicDeficit (D : Deployment) (w : World) (price : MarketId → Int) (a : Address) : Int :=
  max 0 (-worth D w price a)

theorem worth_flat (hl : Engine.Listed w.engine) (price : MarketId → Int) {a : Address} (hf : Flat w a) :
    worth D w price a =
      w.vault.balances a * PRECISION + if a = D.engine then ∑ m, unsettledFunding w m else 0 := by
  have hempty : ∀ m, w.engine.positions (a, m) = Position.empty := fun m => hl.flat (a, m) (hf m)
  have hvalue : ∀ m, positionValue w price a m = 0 := by
    intro m
    simp [positionValue, hempty m, Position.empty]
  have howed : ∀ m, Engine.fundingOwed (w.engine.funding m) (w.engine.positions (a, m)) = 0 := by
    intro m
    simp [Engine.fundingOwed, hempty m, Position.empty]
  rw [worth, accruedFunding, Finset.sum_eq_zero fun m _ => hvalue m, Finset.sum_eq_zero fun m _ => howed m, add_zero,
    sub_zero]

theorem worth_flat_of_ne (hl : Engine.Listed w.engine) (price : MarketId → Int) {a : Address} (hf : Flat w a)
    (ha : a ≠ D.engine) : worth D w price a = w.vault.balances a * PRECISION := by
  rw [worth_flat hl price hf, if_neg ha, add_zero]

/-- **The funding pool is never worth less than nothing.** -/
theorem pool_worth_nonneg (hk : Keyless env D.engine) (h : Reachable (machine D env) w) (price : MarketId → Int) :
    0 ≤ worth D w price D.engine := by
  have hf : Flat w D.engine := reachable_flat (by decide) hk h
  have hpool := reachable_poolEquity hk h
  rw [poolEquity_eq] at hpool
  rw [worth_flat (reachable_listed h) price hf, if_pos rfl]
  exact hpool

/-! ## Bad debt -/

/-- What a bad-debt settlement took from Insurance and the debt it left on record. -/
def settledDeficit (D : Deployment) (w w' : World) (trader : Address) : Int :=
  (w.vault.balances D.insurance - w'.vault.balances D.insurance) + w'.insurance.recordedDebt trader

theorem coveredWorld_recorded (trader : Address) :
    (coveredWorld D w trader).insurance.recordedDebt trader = uncoveredAfter D w trader := by
  unfold coveredWorld
  simp only
  split
  · exact Function.update_self _ _ _
  · rename_i h
    exact (not_not.1 h).symm

theorem coveredWorld_paid {trader : Address} (ht : trader ≠ D.insurance) :
    (coveredWorld D w trader).vault.balances D.insurance =
      w.vault.balances D.insurance - coverFor D w trader := by
  have hbal : (coveredWorld D w trader).vault.balances =
      Book.transfer w.vault.balances D.insurance trader (coverFor D w trader) := by
    unfold coveredWorld
    simp only
    split <;> rfl
  rw [hbal, Book.transfer_apply, if_pos rfl, if_neg ht.symm, add_zero, sub_eq_add_neg]

/-- **A settlement pays and records exactly the negative balance.** -/
theorem settledDeficit_eq {trader : Address} {covered : Int}
    (h : Insurance.settleBadDebt D w trader = .ok (w', covered)) :
    settledDeficit D w w' trader = max (-w.vault.balances trader) 0 := by
  obtain ⟨-, ht, -, -, rfl⟩ := settleBadDebt_ok h
  rw [settledDeficit, coveredWorld_paid ht, coveredWorld_recorded, uncoveredAfter]
  omega

theorem settleBadDebt_flat (hl : Engine.Listed w.engine) {trader : Address} {covered : Int}
    (h : Insurance.settleBadDebt D w trader = .ok (w', covered)) : Flat w trader := by
  obtain ⟨-, -, hcount, -, -⟩ := settleBadDebt_ok h
  exact hl.count_eq_zero hcount

/-- **Insurance covers real deficits only, except the pool's.** A bad-debt settlement pays and records at most what the
account's economic deficit is, at any prices, exactly if the account is not the funding pool or the pool's balance is not
negative. -/
theorem badDebt_real (hk : Keyless env D.engine) (hr : Reachable (machine D env) w) (price : MarketId → Int)
    {trader : Address} {covered : Int} (h : Insurance.settleBadDebt D w trader = .ok (w', covered)) :
    settledDeficit D w w' trader * PRECISION ≤ economicDeficit D w price trader ↔
      (trader = D.engine → 0 ≤ w.vault.balances D.engine) := by
  have hl := reachable_listed hr
  have hf : Flat w trader := settleBadDebt_flat hl h
  rw [settledDeficit_eq h, economicDeficit]
  by_cases ht : trader = D.engine
  · subst ht
    have hpool := pool_worth_nonneg hk hr price
    have hdeficit : max 0 (-worth D w price D.engine) = 0 := max_eq_left (by omega)
    rw [hdeficit]
    constructor
    · intro hle _
      have hzero : max (-w.vault.balances D.engine) 0 ≤ 0 := nonpos_of_mul_nonpos_left hle (by decide)
      omega
    · intro hbal
      have hzero : max (-w.vault.balances D.engine) 0 = 0 := max_eq_right (by have := hbal rfl; omega)
      rw [hzero, zero_mul]
  · refine iff_of_true ?_ (fun he => absurd he ht)
    rw [worth_flat_of_ne hl price hf ht]
    simp only [PRECISION]
    omega

/-- Alice is bankrupt: Insurance pays its 10 USDC and records the rest. -/
theorem badDebt_real_bankrupt :
    ∃ w' covered,
      Insurance.settleBadDebt Sample.deployment (Sample.outcome Sample.bankrupt) Sample.alice = .ok (w', covered) ∧
      covered = 10 * 10 ^ 18 ∧
      ∀ price, settledDeficit Sample.deployment (Sample.outcome Sample.bankrupt) w' Sample.alice * PRECISION ≤
        economicDeficit Sample.deployment (Sample.outcome Sample.bankrupt) price Sample.alice := by
  have hok : (Insurance.settleBadDebt Sample.deployment (Sample.outcome Sample.bankrupt) Sample.alice).isOk = true := by
    decide +kernel
  obtain ⟨⟨w', covered⟩, h⟩ := ok_of_isOk hok
  refine ⟨w', covered, h, ?_, fun price => ?_⟩
  · obtain ⟨-, -, -, rfl, -⟩ := settleBadDebt_ok h
    decide +kernel
  · exact (badDebt_real (Sample.keyless .engine) (Sample.outcome_reachable Sample.bankrupt) price h).2
      fun he => absurd he (by decide)

/-- Insurance holds 10 USDC of operating capital and the pool's balance is only transiently negative: settling its bad
debt takes from Insurance what the pool is owed by Alice. -/
theorem badDebt_not_real_pool :
    ∃ w' covered,
      Reachable (machine Sample.deployment Sample.env) (Sample.outcome Sample.donated) ∧
      Insurance.settleBadDebt Sample.deployment (Sample.outcome Sample.donated) Sample.deployment.engine =
        .ok (w', covered) ∧
      0 < (Sample.outcome Sample.donated).vault.balances Sample.deployment.insurance -
        w'.vault.balances Sample.deployment.insurance ∧
      ∀ price, ¬ settledDeficit Sample.deployment (Sample.outcome Sample.donated) w' Sample.deployment.engine * PRECISION ≤
        economicDeficit Sample.deployment (Sample.outcome Sample.donated) price Sample.deployment.engine := by
  have hr := Sample.outcome_reachable Sample.donated
  have hok : (Insurance.settleBadDebt Sample.deployment (Sample.outcome Sample.donated)
      Sample.deployment.engine).isOk = true := by decide +kernel
  obtain ⟨⟨w', covered⟩, h⟩ := ok_of_isOk hok
  have hcover : 0 < coverFor Sample.deployment (Sample.outcome Sample.donated) Sample.deployment.engine := by
    decide +kernel
  have hbal : (Sample.outcome Sample.donated).vault.balances Sample.deployment.engine < 0 := by decide +kernel
  refine ⟨w', covered, hr, h, ?_, fun price hle => ?_⟩
  · obtain ⟨-, ht, -, -, rfl⟩ := settleBadDebt_ok h
    rw [coveredWorld_paid ht]
    omega
  · have hpool := pool_worth_nonneg (Sample.keyless .engine) hr price
    rw [settledDeficit_eq h, economicDeficit, max_eq_left (by omega)] at hle
    simp only [PRECISION] at hle
    omega

end Kryon
