import Kryon.System
import Kryon.Holdings
/-!
# Books — the vault and the engine as a clearing house

`books` reads the clearing house off a world: the vault's USDC is its cash, the ledger its balances, the engine's
positions its positions, and the engine's own ledger account is the funding pool.  Every function that moves money or
positions `Clears` a list of clearing events, and `Moves` nothing else.
-/
namespace Kryon

open Program
open Function (update)
open Clearing (Event Leg Step)
open Transition

def books (D : Deployment) (w : World) : Clearing.State Address MarketId where
  cash := (w.usdc D.vault : Int) * Decimals.SCALE
  bal := w.vault.balances
  total := w.vault.totalLedger
  size := fun k => (w.engine.positions k).size
  basis := fun k => (w.engine.positions k).openNotional
  last := fun k => (w.engine.positions k).lastFundingIndex
  long := fun m => (w.engine.openInterest m).long
  short := fun m => (w.engine.openInterest m).short
  netBasis := w.engine.netCostBasis
  longIndex := fun m => (w.engine.funding m).longIndex
  shortIndex := fun m => (w.engine.funding m).shortIndex

/-- The two worlds' books are joined by a run of clearing events. -/
abbrev Clears (D : Deployment) (w : World) (es : List (Event Address MarketId)) (w' : World) : Prop :=
  Run (Clearing.machine D.engine PRECISION) (books D w) es (books D w')

/-- What moving money and positions leaves alone: every configuration, the orders and the shares.  Bitmaps list the open
positions as before. -/
structure Frames (w w' : World) : Prop where
  timestamp : w'.timestamp = w.timestamp
  roles : w'.roles = w.roles
  pauses : w'.pauses = w.pauses
  risk : w'.risk = w.risk
  oracle : w'.oracle = w.oracle
  liquidation : w'.liquidation = w.liquidation
  gateway : w'.gateway = w.gateway
  insurance : w'.insurance = { w.insurance with
    recordedDebt := w'.insurance.recordedDebt
    badDebt := w'.insurance.badDebt }
  listed : Engine.Listed w.engine → Engine.Listed w'.engine

/-- Money and positions move, and no fee is charged. -/
structure Moves (w w' : World) : Prop extends Frames w w' where
  feeRouter : w'.feeRouter = w.feeRouter

/-- Money and positions move, and fees accrue. -/
structure Charges (w w' : World) : Prop extends Frames w w' where
  feeRouter : w'.feeRouter = { w.feeRouter with
    treasuryAccrued := w'.feeRouter.treasuryAccrued
    referralAccrued := w'.feeRouter.referralAccrued
    totalReferralAccrued := w'.feeRouter.totalReferralAccrued }

theorem Frames.refl (w : World) : Frames w w := ⟨rfl, rfl, rfl, rfl, rfl, rfl, rfl, rfl, id⟩

theorem Frames.trans {w₁ w₂ w₃ : World} (h : Frames w₁ w₂) (h' : Frames w₂ w₃) : Frames w₁ w₃ where
  timestamp := h'.timestamp.trans h.timestamp
  roles := h'.roles.trans h.roles
  pauses := h'.pauses.trans h.pauses
  risk := h'.risk.trans h.risk
  oracle := h'.oracle.trans h.oracle
  liquidation := h'.liquidation.trans h.liquidation
  gateway := h'.gateway.trans h.gateway
  insurance := by rw [h'.insurance, h.insurance]
  listed := fun hl => h'.listed (h.listed hl)

theorem Moves.refl (w : World) : Moves w w := ⟨Frames.refl w, rfl⟩

theorem Moves.trans {w₁ w₂ w₃ : World} (h : Moves w₁ w₂) (h' : Moves w₂ w₃) : Moves w₁ w₃ :=
  ⟨h.toFrames.trans h'.toFrames, h'.feeRouter.trans h.feeRouter⟩

theorem Moves.charges {w w' : World} (h : Moves w w') : Charges w w' := ⟨h.toFrames, by rw [h.feeRouter]⟩

theorem Charges.trans {w₁ w₂ w₃ : World} (h : Charges w₁ w₂) (h' : Charges w₂ w₃) : Charges w₁ w₃ :=
  ⟨h.toFrames.trans h'.toFrames, by rw [h'.feeRouter, h.feeRouter]⟩

variable {D : Deployment} {w w' : World}

/-! ## Ledger moves -/

theorem moves_withBalances (b : Address → Int) : Moves w (w.withBalances b) :=
  ⟨Frames.mk rfl rfl rfl rfl rfl rfl rfl rfl id, rfl⟩

theorem clears_transfer (i j : Address) {x : Int} (hx : 0 ≤ x) :
    Clears D w [.transfer i j x] (w.withBalances (Book.transfer w.vault.balances i j x)) :=
  Run.single (Step.transfer (s := books D w) i j hx)

theorem clears_transfer_zero (i j : Address) : Clears D w [.transfer i j 0] w := by
  have h := clears_transfer (D := D) (w := w) i j (le_refl 0)
  rwa [Book.transfer_zero] at h

theorem clears_nil (h : books D w' = books D w) : Clears D w [] w' := by
  rw [Clears, h]
  exact Run.nil

/-- A transfer made only when its amount is positive moves the positive part of it. -/
theorem transferIf_ok {caller src dst : Address} {x : Int}
    (h : (if x > 0 then Vault.transferInternal w caller src dst x else pure w) = .ok w') :
    w' = w.withBalances (Book.transfer w.vault.balances src dst (max x 0)) := by
  split at h
  · rename_i hx
    rw [max_eq_left hx.le]
    exact (Vault.transferInternal_ok h).2
  · rename_i hx
    rw [pure_ok] at h
    rw [max_eq_right (not_lt.1 hx), Book.transfer_zero, ← h]
    rfl

theorem transferIf_clears {caller src dst : Address} {x : Int}
    (h : (if x > 0 then Vault.transferInternal w caller src dst x else pure w) = .ok w') :
    Moves w w' ∧ Clears D w [.transfer src dst (max x 0)] w' := by
  rw [transferIf_ok h]
  exact ⟨moves_withBalances _, clears_transfer src dst (le_max_right _ _)⟩

/-! ## Trades -/

theorem books_booked (trader : Address) (marketId : MarketId) (delta v : Int) (x : Clearing.Terms)
    (hx : Engine.Admits w trader marketId delta x) :
    books D (Engine.booked D w trader marketId delta v x) =
      (books D w).leg D.engine trader marketId delta v x := by
  have hpos : Engine.nextPosition (w.engine.positions (trader, marketId)) delta x =
      ⟨(w.engine.positions (trader, marketId)).size + delta,
        (w.engine.positions (trader, marketId)).openNotional + x.basisChange, x.last⟩ := by
    unfold Engine.nextPosition
    split
    · rename_i h0
      rw [h0, (hx.flat h0).1, (hx.flat h0).2]
      rfl
    · rfl
  simp only [books, Clearing.State.leg, Engine.booked, hpos, Book.map_update, Engine.nextOpenInterest]

theorem booked_leg {trader : Address} {marketId : MarketId} {delta v : Int} {x : Clearing.Terms}
    (hx : Engine.Admits w trader marketId delta x) :
    Leg D.engine PRECISION (books D w) trader marketId delta v (books D (Engine.booked D w trader marketId delta v x)) := by
  rw [books_booked trader marketId delta v x hx]
  exact Leg.mk x hx.payment hx.last

theorem moves_booked {trader : Address} {marketId : MarketId} {delta : Int} (v : Int) {x : Clearing.Terms}
    (hx : Engine.Admits w trader marketId delta x) : Moves w (Engine.booked D w trader marketId delta v x) :=
  ⟨Frames.mk rfl rfl rfl rfl rfl rfl rfl rfl fun hl => Engine.booked_listed hl hx, rfl⟩

theorem books_marked (marketId : MarketId) (t : Nat) (st : MarkState) :
    books D (Engine.marked w marketId t st) = books D w := by
  have hlong := Book.map_update FundingState.longIndex w.engine.funding marketId
    { w.engine.funding marketId with lastUpdate := t }
  have hshort := Book.map_update FundingState.shortIndex w.engine.funding marketId
    { w.engine.funding marketId with lastUpdate := t }
  simp only [Function.update_eq_self] at hlong hshort
  simp only [books, Engine.marked, hlong, hshort]

theorem moves_marked (marketId : MarketId) (t : Nat) (st : MarkState) : Moves w (Engine.marked w marketId t st) :=
  ⟨Frames.mk rfl rfl rfl rfl rfl rfl rfl rfl fun hl => hl.of_eq rfl rfl, rfl⟩

theorem applyFill_leg {caller trader : Address} {marketId : MarketId} {isBuy : Bool} {size price notional : Int}
    {reduceOnly increased : Bool}
    (h : Engine.applyFill D w caller trader marketId isBuy size price notional reduceOnly = .ok (w', increased)) :
    Moves w w' ∧ Leg D.engine PRECISION (books D w) trader marketId (Engine.fillDelta isBuy size)
      (Engine.signedValue (Engine.fillDelta isBuy size) notional) (books D w') := by
  obtain ⟨-, -, t, st, x, hx, rfl, -⟩ := Engine.applyFill_ok h
  refine ⟨(moves_marked marketId t st).trans (moves_booked _ hx), ?_⟩
  rw [← books_marked marketId t st]
  exact booked_leg hx

theorem liquidationTransfer_clears {caller trader receiver : Address} {marketId : MarketId} {size price realized : Int}
    (h : Engine.liquidationTransfer D w caller trader receiver marketId size price = .ok (w', realized)) :
    (w.engine.positions (trader, marketId)).size ≠ 0 ∧ Moves w w' ∧
      ∃ d v, Clears D w [.trade trader receiver marketId d v] w' := by
  obtain ⟨d, v, w₁, x, y, hs, -, -, hx, rfl, hy, rfl, -⟩ := Engine.liquidationTransfer_ok h
  exact ⟨hs, (moves_booked _ hx).trans (moves_booked _ hy), d, v,
    Run.single (Step.trade (booked_leg hx) (booked_leg hy))⟩

theorem adlTransfer_clears {caller backstop counterparty : Address} {marketId : MarketId} {size price realized : Int}
    (h : Engine.adlTransfer D w caller backstop counterparty marketId size price = .ok (w', realized)) :
    (w.engine.positions (counterparty, marketId)).size ≠ 0 ∧ Moves w w' ∧
      ∃ d v, Clears D w [.trade counterparty backstop marketId d v] w' := by
  obtain ⟨d, v, w₁, x, y, hs, -, hx, rfl, -, hy, rfl, -⟩ := Engine.adlTransfer_ok h
  exact ⟨hs, (moves_booked _ hx).trans (moves_booked _ hy), d, v,
    Run.single (Step.trade (booked_leg hx) (booked_leg hy))⟩

/-! ## Fees -/

theorem accrue_frame {s s' : FeeRouterStorage} {payer referrer : Address} {amount toInsurance : Int}
    (h : FeeRouter.accrue s payer amount referrer = .ok (s', toInsurance)) :
    s' = { s with
      treasuryAccrued := s'.treasuryAccrued
      referralAccrued := s'.referralAccrued
      totalReferralAccrued := s'.totalReferralAccrued } := by
  unfold FeeRouter.accrue at h
  split at h
  · simp only [pure_ok, Prod.mk.injEq] at h
    rw [← h.1]
  · simp only [bind_ok_iff] at h
    obtain ⟨a, -, b, -, h⟩ := h
    split at h <;>
    · simp only [pure_ok, Prod.mk.injEq] at h
      rw [← h.1]

/-- The balances after a fill's fees `q`, `toInsurance` of them passed on. -/
def chargedBalances (D : Deployment) (b : Address → Int) (maker taker : Address) (q : FeeRouter.Quote)
    (toInsurance : Int) : Address → Int :=
  Book.transfer (Book.transfer (Book.transfer (Book.transfer b taker D.feeRouter (max q.takerFee 0))
    maker D.feeRouter (max q.makerFee 0)) D.feeRouter maker (max (-q.makerFee) 0)) D.feeRouter D.insurance
    (max toInsurance 0)

/-- How a fill's fees accrue: each side's own when the maker pays, the taker's net of the rebate when it does not. -/
def Accrues (s : FeeRouterStorage) (maker taker : Address) (q : FeeRouter.Quote) (makerReferrer takerReferrer : Address)
    (s' : FeeRouterStorage) (toInsurance : Int) : Prop :=
  if q.makerFee > 0 then
    ∃ s₁ fromMaker fromTaker, FeeRouter.accrue s maker q.makerFee makerReferrer = .ok (s₁, fromMaker) ∧
      FeeRouter.accrue s₁ taker q.takerFee takerReferrer = .ok (s', fromTaker) ∧ toInsurance = fromMaker + fromTaker
  else FeeRouter.accrue s taker (q.takerFee + q.makerFee) takerReferrer = .ok (s', toInsurance)

theorem chargeFill_ok {caller maker taker makerReferrer takerReferrer : Address} {marketId : MarketId} {notional : Int}
    {q : FeeRouter.Quote}
    (h : FeeRouter.chargeFill D w caller marketId maker taker notional makerReferrer takerReferrer = .ok (w', q)) :
    FeeRouter.quote w.feeRouter marketId maker taker notional = .ok q ∧
      ∃ toInsurance, Accrues w.feeRouter maker taker q makerReferrer takerReferrer w'.feeRouter toInsurance ∧
        w' = { w.withBalances (chargedBalances D w.vault.balances maker taker q toInsurance) with
          feeRouter := w'.feeRouter } := by
  simp only [FeeRouter.chargeFill, bind_ok_iff, World.onlyRole_ok, pure_ok, Prod.mk.injEq, exists_const] at h
  obtain ⟨-, q', hq, w₁, htaker, ⟨w₂, toInsurance⟩, hmaker, w₃, hins, rfl, rfl⟩ := h
  rw [transferIf_ok htaker] at hmaker
  refine ⟨hq, toInsurance, ?_⟩
  rw [transferIf_ok hins]
  split at hmaker
  · rename_i hpos
    simp only [bind_ok_iff, pure_ok, Prod.mk.injEq] at hmaker
    obtain ⟨w₄, htransfer, ⟨s₁, fromMaker⟩, hm, ⟨s₂, fromTaker⟩, ht, rfl, rfl⟩ := hmaker
    obtain ⟨-, rfl⟩ := Vault.transferInternal_ok htransfer
    refine ⟨?_, ?_⟩
    · rw [Accrues, if_pos hpos]
      exact ⟨s₁, fromMaker, fromTaker, hm, ht, rfl⟩
    · simp only [chargedBalances, max_eq_left hpos.le, max_eq_right (show -q'.makerFee ≤ 0 by omega),
        Book.transfer_zero, World.withBalances]
  · rename_i hneg
    simp only [bind_ok_iff, pure_ok, Prod.mk.injEq] at hmaker
    obtain ⟨w₄, hrebate, ⟨s₁, fromTaker⟩, ht, rfl, rfl⟩ := hmaker
    have hif : (if -q'.makerFee > 0 then
        Vault.transferInternal (w.withBalances (Book.transfer w.vault.balances taker D.feeRouter (max q'.takerFee 0)))
          D.feeRouter D.feeRouter maker (-q'.makerFee)
        else pure (w.withBalances (Book.transfer w.vault.balances taker D.feeRouter (max q'.takerFee 0)))) = .ok w₄ := by
      by_cases hlt : q'.makerFee < 0
      · rw [if_pos (by omega)]
        rwa [if_pos hlt] at hrebate
      · rw [if_neg (by omega)]
        rwa [if_neg hlt] at hrebate
    obtain rfl := transferIf_ok hif
    refine ⟨?_, ?_⟩
    · rw [Accrues, if_neg hneg]
      exact ht
    · simp only [chargedBalances, max_eq_right (not_lt.1 hneg), Book.transfer_zero, World.withBalances]

theorem accrues_frame {s s' : FeeRouterStorage} {maker taker makerReferrer takerReferrer : Address}
    {q : FeeRouter.Quote} {toInsurance : Int}
    (h : Accrues s maker taker q makerReferrer takerReferrer s' toInsurance) :
    s' = { s with
      treasuryAccrued := s'.treasuryAccrued
      referralAccrued := s'.referralAccrued
      totalReferralAccrued := s'.totalReferralAccrued } := by
  unfold Accrues at h
  split at h
  · obtain ⟨s₁, _, _, hm, ht, -⟩ := h
    rw [accrue_frame ht, accrue_frame hm]
  · exact accrue_frame h

/-- The ledger moves of a fill's fees. -/
def feeEvents (D : Deployment) (maker taker : Address) (q : FeeRouter.Quote) (toInsurance : Int) :
    List (Event Address MarketId) :=
  [.transfer taker D.feeRouter (max q.takerFee 0), .transfer maker D.feeRouter (max q.makerFee 0),
    .transfer D.feeRouter maker (max (-q.makerFee) 0), .transfer D.feeRouter D.insurance (max toInsurance 0)]

theorem chargeFill_clears {caller maker taker makerReferrer takerReferrer : Address} {marketId : MarketId}
    {notional : Int} {q : FeeRouter.Quote}
    (h : FeeRouter.chargeFill D w caller marketId maker taker notional makerReferrer takerReferrer = .ok (w', q)) :
    Charges w w' ∧ w'.engine = w.engine ∧ ∃ toInsurance, Clears D w (feeEvents D maker taker q toInsurance) w' := by
  obtain ⟨-, toInsurance, hacc, hw⟩ := chargeFill_ok h
  have hframes : Frames w w' := by
    rw [hw]
    exact ⟨rfl, rfl, rfl, rfl, rfl, rfl, rfl, rfl, id⟩
  have hmoves : Charges w w' := ⟨hframes, accrues_frame hacc⟩
  refine ⟨hmoves, by rw [hw]; rfl, toInsurance, ?_⟩
  have hrun := (((clears_transfer (D := D) (w := w) taker D.feeRouter (le_max_right q.takerFee 0)).append
    (clears_transfer maker D.feeRouter (le_max_right q.makerFee 0))).append
    (clears_transfer D.feeRouter maker (le_max_right (-q.makerFee) 0))).append
    (clears_transfer D.feeRouter D.insurance (le_max_right toInsurance 0))
  rw [Clears, hw]
  exact hrun

theorem accrueLiquidationFee_ok {caller : Address} {amount : Int}
    (h : FeeRouter.accrueLiquidationFee D w caller amount = .ok w') :
    0 ≤ amount ∧ ∃ toInsurance, 0 ≤ toInsurance ∧
      (toInsurance = (amount * w.feeRouter.liquidationInsuranceBps).tdiv 10000) ∧
      w' = { w.withBalances (Book.transfer w.vault.balances D.feeRouter D.insurance toInsurance) with
        feeRouter := { w.feeRouter with
          treasuryAccrued := w.feeRouter.treasuryAccrued + (amount - toInsurance) } } := by
  simp only [FeeRouter.accrueLiquidationFee, bind_ok_iff, World.onlyRole_ok, revertIf_ok, not_lt, exists_const] at h
  obtain ⟨-, h0, h⟩ := h
  refine ⟨h0, ?_⟩
  split at h
  · rename_i hz
    rw [pure_ok] at h
    refine ⟨0, le_refl 0, by simp [hz], ?_⟩
    rw [Book.transfer_zero, hz, ← h]
    simp [World.withBalances]
  · simp only [M.mulDiv_ok, bind_ok_iff] at h
    obtain ⟨toInsurance, ⟨-, rfl⟩, h⟩ := h
    have hnn : 0 ≤ (amount * (w.feeRouter.liquidationInsuranceBps : Int)).tdiv 10000 :=
      Int.tdiv_nonneg (mul_nonneg h0 (Int.natCast_nonneg _)) (by decide)
    refine ⟨_, hnn, rfl, ?_⟩
    rw [transferIf_ok h, max_eq_left hnn]
    rfl

theorem accrueLiquidationFee_clears {caller : Address} {amount : Int}
    (h : FeeRouter.accrueLiquidationFee D w caller amount = .ok w') :
    Charges w w' ∧ w'.engine = w.engine ∧
      ∃ x, 0 ≤ x ∧ Clears D w [.transfer D.feeRouter D.insurance x] w' := by
  obtain ⟨-, x, hx, -, rfl⟩ := accrueLiquidationFee_ok h
  exact ⟨⟨Frames.mk rfl rfl rfl rfl rfl rfl rfl rfl id, rfl⟩, rfl, x, hx, clears_transfer _ _ hx⟩

/-! ## Insurance cover -/

/-- What a bad-debt settlement pays. -/
def coverFor (D : Deployment) (w : World) (trader : Address) : Int :=
  Min.min (max (-w.vault.balances trader) 0) (max (Insurance.operatingBalance D w) 0)

/-- What a bad-debt settlement leaves uncovered. -/
def uncoveredAfter (D : Deployment) (w : World) (trader : Address) : Int :=
  max (-w.vault.balances trader) 0 - coverFor D w trader

/-- The world after a bad-debt settlement. -/
def coveredWorld (D : Deployment) (w : World) (trader : Address) : World :=
  let w₁ := w.withBalances (Book.transfer w.vault.balances D.insurance trader (coverFor D w trader))
  if uncoveredAfter D w trader ≠ w.insurance.recordedDebt trader then
    Insurance.recordDebt w₁ trader (uncoveredAfter D w trader) else w₁

theorem coverFor_nonneg (trader : Address) : 0 ≤ coverFor D w trader := le_min (le_max_right _ _) (le_max_right _ _)

theorem settleBadDebt_ok {trader : Address} {covered : Int}
    (h : Insurance.settleBadDebt D w trader = .ok (w', covered)) :
    w.paused .insurance = false ∧ trader ≠ D.insurance ∧ Engine.positionCount w trader = 0 ∧
      covered = coverFor D w trader ∧ w' = coveredWorld D w trader := by
  simp only [Insurance.settleBadDebt, bind_ok_iff, World.whenNotPaused_ok, revertIf_ok, not_not, pure_ok,
    Prod.mk.injEq, exists_const] at h
  obtain ⟨hp, ht, hc, w₁, htransfer, hw, hcov⟩ := h
  have hdef : (if w.vault.balances trader < 0 then -w.vault.balances trader else 0) =
      max (-w.vault.balances trader) 0 := by
    split <;> omega
  have hcover : M.min (if w.vault.balances trader < 0 then -w.vault.balances trader else 0)
      (M.max (Insurance.operatingBalance D w) 0) = coverFor D w trader := by
    rw [hdef, M.min_eq, M.max_eq, coverFor]
  rw [hcover] at htransfer hcov hw
  rw [hdef] at hw
  have hw₁ := transferIf_ok htransfer
  rw [max_eq_left (coverFor_nonneg trader)] at hw₁
  refine ⟨hp, ht, hc, hcov.symm, ?_⟩
  rw [← hw, hw₁]
  rfl

theorem coveredWorld_clears (trader : Address) :
    Moves w (coveredWorld D w trader) ∧ (coveredWorld D w trader).engine = w.engine ∧
      Clears D w [.transfer D.insurance trader (coverFor D w trader)] (coveredWorld D w trader) := by
  have hrun := clears_transfer (D := D) (w := w) D.insurance trader (coverFor_nonneg (D := D) (w := w) trader)
  unfold coveredWorld
  simp only
  split
  · exact ⟨⟨Frames.mk rfl rfl rfl rfl rfl rfl rfl rfl id, rfl⟩, rfl, hrun⟩
  · exact ⟨moves_withBalances _, rfl, hrun⟩

/-! ## Deposits and withdrawals -/

/-- The USDC balances once `amount` went from `a` to `b`. -/
def paidUsdc (usdc : Address → Nat) (a b : Address) (amount : Nat) : Address → Nat :=
  update (update usdc a (usdc a - amount)) b (update usdc a (usdc a - amount) b + amount)

theorem usdcTransfer_ok {msg : Msg} {a b : Address} {amount : Nat} (h : w.usdcTransfer msg a b amount = .ok w') :
    amount ≤ w.usdc a ∧ w' = { w with usdc := paidUsdc w.usdc a b amount } := by
  simp only [World.usdcTransfer, bind_ok_iff, revertIf_ok, pure_ok, exists_const, not_or, not_lt] at h
  exact ⟨h.1.1, h.2.symm⟩

theorem refreshDebt_ok {caller trader : Address} (h : Insurance.refreshDebt D w caller trader = .ok w') :
    ∃ d b, w' = { w with insurance := { w.insurance with recordedDebt := d, badDebt := b } } := by
  simp only [Insurance.refreshDebt, bind_ok_iff, revertIf_ok, exists_const] at h
  obtain ⟨-, h⟩ := h
  generalize (if w.vault.balances trader < 0 then -w.vault.balances trader else 0) = owed at h
  split at h
  · rw [pure_ok] at h
    exact ⟨_, _, h.symm⟩
  · split at h
    · rw [pure_ok] at h
      exact ⟨_, _, h.symm⟩
    · rw [pure_ok] at h
      exact ⟨_, _, h.symm⟩

theorem credit_ok {account : Address} {amount : Nat} (h : Vault.credit D w account amount = .ok w') :
    ∃ d b, w' = { Vault.posted (Vault.countDeposit w account amount) account (amount * Decimals.SCALE) with
      insurance := { w.insurance with recordedDebt := d, badDebt := b } } := by
  simp only [Vault.credit, bind_ok_iff, Decimals.toInternal_ok] at h
  obtain ⟨_, ⟨-, rfl⟩, w₁, hmove, h⟩ := h
  have hw₁ := Vault.move_ok hmove
  have hins : w₁.insurance = w.insurance := by
    rw [hw₁]
    unfold Vault.countDeposit
    split <;> rfl
  split at h
  · obtain ⟨d, b, rfl⟩ := refreshDebt_ok h
    exact ⟨d, b, by rw [hins, hw₁]⟩
  · rw [pure_ok] at h
    refine ⟨w₁.insurance.recordedDebt, w₁.insurance.badDebt, ?_⟩
    rw [← h, hins, ← hw₁, ← hins]

theorem credit_books {account : Address} {amount : Nat} (h : Vault.credit D w account amount = .ok w') :
    Moves w w' ∧ w'.engine = w.engine ∧ w'.usdc = w.usdc ∧ books D w' = { books D w with
      bal := Book.post (books D w).bal account (amount * Decimals.SCALE)
      total := (books D w).total + amount * Decimals.SCALE } := by
  obtain ⟨d, b, rfl⟩ := credit_ok h
  unfold Vault.countDeposit
  split <;> exact ⟨⟨Frames.mk rfl rfl rfl rfl rfl rfl rfl rfl id, rfl⟩, rfl, rfl, rfl⟩

theorem paidUsdc_receiver {usdc : Address → Nat} {a b : Address} {amount : Nat} (hne : a ≠ b) :
    paidUsdc usdc a b amount b = usdc b + amount := by
  simp [paidUsdc, Function.update_of_ne (Ne.symm hne)]

theorem paidUsdc_payer {usdc : Address → Nat} {a b : Address} {amount : Nat} (hne : a ≠ b) :
    paidUsdc usdc a b amount a = usdc a - amount := by
  simp [paidUsdc, Function.update_of_ne hne]

theorem paidUsdc_self {usdc : Address → Nat} {a : Address} {amount : Nat} (hle : amount ≤ usdc a) :
    paidUsdc usdc a a amount a = usdc a := by
  simp [paidUsdc, Nat.sub_add_cancel hle]

theorem paidUsdc_of_ne {usdc : Address → Nat} {a b c : Address} {amount : Nat} (ha : c ≠ a) (hb : c ≠ b) :
    paidUsdc usdc a b amount c = usdc c := by
  simp [paidUsdc, Function.update_of_ne ha, Function.update_of_ne hb]

/-- **A deposit credits the ledger with what the vault receives.** -/
theorem pullAndCredit_clears {msg : Msg} {payer account : Address} {amount : Nat} (hp : payer ≠ D.vault)
    (h : Vault.pullAndCredit D w msg payer account amount = .ok w') :
    Moves w w' ∧ w'.engine = w.engine ∧ w'.usdc = paidUsdc w.usdc payer D.vault amount ∧
      Clears D w [.credit account (amount * Decimals.SCALE)] w' := by
  simp only [Vault.pullAndCredit, bind_ok_iff] at h
  obtain ⟨_, -, w₁, hpull, hcredit⟩ := h
  obtain ⟨-, rfl⟩ := usdcTransfer_ok hpull
  obtain ⟨hmoves, hengine, husdc, hbooks⟩ := credit_books hcredit
  have hpaid : Moves w { w with usdc := paidUsdc w.usdc payer D.vault amount } :=
    ⟨Frames.mk rfl rfl rfl rfl rfl rfl rfl rfl id, rfl⟩
  refine ⟨hpaid.trans hmoves, hengine, husdc, ?_⟩
  rw [Clears, hbooks]
  have hcash : books D { w with usdc := paidUsdc w.usdc payer D.vault amount } =
      { books D w with cash := (books D w).cash + amount * Decimals.SCALE } := by
    simp only [books, paidUsdc_receiver hp, Nat.cast_add, add_mul]
  rw [hcash]
  exact Run.single (Step.credit account _)

/-- What a payment to `recipient` gives back to the vault: it is a donation when the recipient is the vault. -/
def returned (D : Deployment) (recipient : Address) (amount : Nat) : Int :=
  if recipient = D.vault then amount * Decimals.SCALE else 0

theorem returned_nonneg (recipient : Address) (amount : Nat) : 0 ≤ returned D recipient amount := by
  unfold returned
  split
  · exact mul_nonneg (Int.natCast_nonneg _) (Int.natCast_nonneg _)
  · exact le_refl 0

/-- **A withdrawal debits the ledger by what the vault pays out**, and what it pays itself is a donation. -/
theorem withdrawTo_clears {msg : Msg} {account recipient : Address} {amount : Nat}
    (h : Vault.withdrawTo D w msg account recipient amount = .ok w') :
    Moves w w' ∧ w'.engine = w.engine ∧ amount * Decimals.SCALE ≤ w.vault.balances account ∧
      Clears D w [.credit account (-(amount * Decimals.SCALE)), .donate (returned D recipient amount)] w' := by
  simp only [Vault.withdrawTo, bind_ok_iff, World.whenNotPaused_ok, revertIf_ok, Decimals.toInternal_ok,
    exists_const] at h
  obtain ⟨-, -, -, _, ⟨-, rfl⟩, hbal, _, -, w₁, hmove, hpay⟩ := h
  obtain ⟨hle, rfl⟩ := usdcTransfer_ok hpay
  obtain rfl := Vault.move_ok hmove
  have hframe : Moves w (Vault.countWithdrawal (Vault.posted w account (-(amount * Decimals.SCALE))) account amount) ∧
      (Vault.countWithdrawal (Vault.posted w account (-(amount * Decimals.SCALE))) account amount).engine = w.engine ∧
      (Vault.countWithdrawal (Vault.posted w account (-(amount * Decimals.SCALE))) account amount).usdc = w.usdc ∧
      books D (Vault.countWithdrawal (Vault.posted w account (-(amount * Decimals.SCALE))) account amount) =
        { books D w with
          bal := Book.post (books D w).bal account (-(amount * Decimals.SCALE))
          total := (books D w).total + -(amount * Decimals.SCALE) } := by
    unfold Vault.countWithdrawal
    split <;> exact ⟨⟨Frames.mk rfl rfl rfl rfl rfl rfl rfl rfl id, rfl⟩, rfl, rfl, rfl⟩
  obtain ⟨hmoves, hengine, husdc, hbooks⟩ := hframe
  generalize Vault.countWithdrawal (Vault.posted w account (-(amount * Decimals.SCALE))) account amount = w₂ at *
  have hpaid : Moves w₂ { w₂ with usdc := paidUsdc w₂.usdc D.vault recipient amount } :=
    ⟨Frames.mk rfl rfl rfl rfl rfl rfl rfl rfl id, rfl⟩
  refine ⟨hmoves.trans hpaid, hengine, not_lt.1 hbal, ?_⟩
  rw [husdc] at hle
  have hcash : (paidUsdc w.usdc D.vault recipient amount D.vault : Int) * Decimals.SCALE =
      (books D w).cash + -(amount * Decimals.SCALE) + returned D recipient amount := by
    unfold returned
    by_cases hr : recipient = D.vault
    · rw [if_pos hr, hr, paidUsdc_self hle]
      exact (neg_add_cancel_right _ _).symm
    · rw [if_neg hr, paidUsdc_payer (Ne.symm hr), Nat.cast_sub hle, sub_mul, add_zero, ← sub_eq_add_neg]
      rfl
  have hlast : books D { w₂ with usdc := paidUsdc w₂.usdc D.vault recipient amount } =
      { books D w₂ with cash := (books D w).cash + -(amount * Decimals.SCALE) + returned D recipient amount } := by
    rw [← hcash, husdc]
    rfl
  rw [Clears, hlast, hbooks]
  have hdebit := Run.single (M := Clearing.machine D.engine PRECISION)
    (Step.credit (s := books D w) account (-(amount * Decimals.SCALE)))
  exact hdebit.snoc (Step.donate (returned_nonneg recipient amount))

/-- The caller's tokens reach the vault through Insurance and are credited to Insurance. -/
theorem pullIntoVault_clears {msg : Msg} {amount : Nat} (hs : msg.sender ≠ D.vault)
    (h : Insurance.pullIntoVault D w msg amount = .ok w') :
    Moves w w' ∧ w'.engine = w.engine ∧ Clears D w [.credit D.insurance (amount * Decimals.SCALE)] w' := by
  simp only [Insurance.pullIntoVault, bind_ok_iff] at h
  obtain ⟨w₁, hpull, h⟩ := h
  obtain ⟨-, rfl⟩ := usdcTransfer_ok hpull
  simp only [Vault.depositFor, bind_ok_iff, World.whenNotPaused_ok, exists_const] at h
  have hne : D.vault ≠ D.insurance := D.address_ne (by decide)
  obtain ⟨hmoves, hengine, -, hrun⟩ := pullAndCredit_clears hne.symm h.2
  have hbooks : books D { w with usdc := paidUsdc w.usdc msg.sender D.insurance amount } = books D w := by
    simp only [books, paidUsdc_of_ne hs.symm hne]
  rw [Clears, hbooks] at hrun
  have hpaid : Moves w { w with usdc := paidUsdc w.usdc msg.sender D.insurance amount } :=
    ⟨Frames.mk rfl rfl rfl rfl rfl rfl rfl rfl id, rfl⟩
  exact ⟨hpaid.trans hmoves, hengine, hrun⟩

/-! ## Liquidation and ADL -/

theorem payPenalty_clears {msg : Msg} {trader : Address} {marketId : MarketId} {closeSize price : Int}
    (h : Liquidation.payPenalty D w msg trader marketId closeSize price = .ok w') :
    Charges w w' ∧ w'.engine = w.engine ∧ ∃ reward rest share, 0 ≤ reward ∧ 0 ≤ rest ∧ 0 ≤ share ∧
      Clears D w [.transfer trader msg.sender reward, .transfer trader D.feeRouter rest,
        .transfer D.feeRouter D.insurance share] w' := by
  simp only [Liquidation.payPenalty, bind_ok_iff] at h
  obtain ⟨m, -, n, -, penalty, -, cap, -, w₁, hreward, h⟩ := h
  obtain ⟨h0, rfl⟩ := Vault.transferInternal_ok hreward
  have hfirst := clears_transfer (D := D) (w := w) trader msg.sender h0
  split at h
  · simp only [bind_ok_iff] at h
    obtain ⟨w₂, hrest, haccrue⟩ := h
    obtain ⟨h1, rfl⟩ := Vault.transferInternal_ok hrest
    obtain ⟨hm, he, share, h2, hrun⟩ := accrueLiquidationFee_clears haccrue
    exact ⟨((moves_withBalances _).trans (moves_withBalances _)).charges.trans hm, he, _, _, share, h0, h1, h2,
      (hfirst.append (clears_transfer trader D.feeRouter h1)).append hrun⟩
  · rw [pure_ok] at h
    subst h
    exact ⟨(moves_withBalances _).charges, rfl, _, 0, 0, h0, le_refl 0, le_refl 0,
      (hfirst.append (clears_transfer_zero trader D.feeRouter)).append (clears_transfer_zero D.feeRouter D.insurance)⟩

/-- The steps of a liquidation that returns. -/
theorem liquidate_ok {msg : Msg} {trader : Address} {marketId : MarketId} {maxSize : Nat}
    (h : Liquidation.liquidate D w msg trader marketId maxSize = .ok w') :
    trader ≠ msg.sender ∧ trader ≠ D.insurance ∧ ∃ closeSize before price w₁ realized w₂ after,
      Liquidation.closeSizeFor w trader marketId maxSize = .ok (closeSize, before) ∧
      Engine.indexPrice w marketId = .ok price ∧
      Engine.liquidationTransfer D w D.liquidation trader D.insurance marketId closeSize price = .ok (w₁, realized) ∧
      Liquidation.payPenalty D w₁ msg trader marketId closeSize price = .ok w₂ ∧
      Engine.accountHealth w₂ trader = .ok after ∧ Liquidation.improved before after = true ∧
      ((w' = coveredWorld D w₂ trader ∧ Engine.positionCount w₂ trader = 0 ∧ w₂.vault.balances trader < 0) ∨
        w' = w₂) := by
  simp only [Liquidation.liquidate, bind_ok_iff, World.whenNotPaused_ok, revertIf_ok, exists_const,
    Bool.not_eq_false] at h
  obtain ⟨-, hsender, hins, -, ⟨closeSize, before⟩, hclose, price, hprice, ⟨w₁, realized⟩, htransfer, w₂, hpay, after,
    hafter, himproved, h⟩ := h
  refine ⟨hsender, hins, closeSize, before, price, w₁, realized, w₂, after, hclose, hprice, htransfer, hpay, hafter,
    himproved, ?_⟩
  split at h
  · rename_i hc
    simp only [bind_ok_iff, pure_ok] at h
    obtain ⟨⟨w₃, covered⟩, hcover, rfl⟩ := h
    exact Or.inl ⟨(settleBadDebt_ok hcover).2.2.2.2, hc⟩
  · rw [pure_ok] at h
    exact Or.inr h.symm

/-- **A liquidation is one trade with the backstop, the penalty's transfers and Insurance's cover.** -/
theorem liquidate_clears {msg : Msg} {trader : Address} {marketId : MarketId} {maxSize : Nat}
    (h : Liquidation.liquidate D w msg trader marketId maxSize = .ok w') :
    (w.engine.positions (trader, marketId)).size ≠ 0 ∧ trader ≠ D.insurance ∧ Charges w w' ∧
      ∃ d v reward rest share cover, 0 ≤ reward ∧ 0 ≤ rest ∧ 0 ≤ share ∧ 0 ≤ cover ∧
        Clears D w [.trade trader D.insurance marketId d v, .transfer trader msg.sender reward,
          .transfer trader D.feeRouter rest, .transfer D.feeRouter D.insurance share,
          .transfer D.insurance trader cover] w' := by
  obtain ⟨-, hins, closeSize, before, price, w₁, realized, w₂, after, -, -, htransfer, hpay, -, -, hw⟩ := liquidate_ok h
  obtain ⟨hs, hm₁, d, v, hrun₁⟩ := liquidationTransfer_clears htransfer
  obtain ⟨hm₂, -, reward, rest, share, h1, h2, h3, hrun₂⟩ := payPenalty_clears hpay
  rcases hw with ⟨rfl, -⟩ | rfl
  · obtain ⟨hm₃, -, hrun₃⟩ := coveredWorld_clears (D := D) (w := w₂) trader
    exact ⟨hs, hins, (hm₁.charges.trans hm₂).trans hm₃.charges, d, v, reward, rest, share, _, h1, h2, h3,
      coverFor_nonneg trader,
      (hrun₁.append hrun₂).append hrun₃⟩
  · exact ⟨hs, hins, hm₁.charges.trans hm₂, d, v, reward, rest, share, 0, h1, h2, h3, le_refl 0,
      (hrun₁.append hrun₂).append (clears_transfer_zero D.insurance trader)⟩

/-- **ADL is one trade with the backstop and the haircut.** -/
theorem adl_clears {counterparty : Address} {marketId : MarketId} {maxSize : Nat}
    (h : Liquidation.adl D w counterparty marketId maxSize = .ok w') :
    (w.engine.positions (counterparty, marketId)).size ≠ 0 ∧ counterparty ≠ D.insurance ∧ Moves w w' ∧
      ∃ d v haircut, 0 ≤ haircut ∧
        Clears D w [.trade counterparty D.insurance marketId d v, .transfer counterparty D.insurance haircut] w' := by
  simp only [Liquidation.adl, bind_ok_iff, World.whenNotPaused_ok, revertIf_ok, exists_const] at h
  obtain ⟨-, hins, -, shortfall, -, -, -, -, price, -, n, -, -, paying, -, -, ⟨w₁, realized⟩, htransfer, h⟩ := h
  obtain ⟨hs, hm₁, d, v, hrun₁⟩ := adlTransfer_clears htransfer
  obtain ⟨hm₂, hrun₂⟩ := transferIf_clears h
  exact ⟨hs, hins, hm₁.trans hm₂, d, v, _, le_max_right _ _, hrun₁.append hrun₂⟩

/-! ## Funding -/

theorem updateFromPremium_ok {cfg : FundingConfig} {state next : FundingState} {premium : Int} {now : Nat}
    (h : FundingLib.updateFromPremium cfg state premium now = .ok next) :
    ∃ δ, next.longIndex = state.longIndex + δ ∧ next.shortIndex = state.shortIndex - δ := by
  simp only [FundingLib.updateFromPremium, bind_ok_iff, revertIf_ok, exists_const] at h
  obtain ⟨-, h⟩ := h
  split at h
  · rw [pure_ok] at h
    exact ⟨0, by rw [h]; simp, by rw [h]; simp⟩
  · simp only [bind_ok_iff, pure_ok, M.add_ok, M.sub_ok] at h
    obtain ⟨_, -, δ, -, _, ⟨-, rfl⟩, _, ⟨-, rfl⟩, rfl⟩ := h
    exact ⟨δ, rfl, rfl⟩

theorem consumeTwap_ok {marketId : MarketId} {twap : Int} (h : Engine.consumeTwap w marketId = .ok (w', twap)) :
    ∃ marks, w' = { w with engine := { w.engine with marks := marks } } := by
  unfold Engine.consumeTwap at h
  simp only at h
  split at h
  · simp only [pure_ok, Prod.mk.injEq] at h
    exact ⟨_, h.1.symm⟩
  · simp only [bind_ok_iff, pure_ok, Prod.mk.injEq] at h
    obtain ⟨_, -, _, -, h, -⟩ := h
    exact ⟨_, h.symm⟩

/-- **A funding update moves a market's two indexes by opposite amounts.** -/
theorem updateFunding_clears {msg : Msg} {marketId : MarketId} (h : Engine.updateFunding w msg marketId = .ok w') :
    Moves w w' ∧ ∃ δ, Clears D w [.reindex marketId δ] w' := by
  simp only [Engine.updateFunding, bind_ok_iff, World.onlyRole_ok, World.whenNotPaused_ok, M.bound128_ok, pure_ok,
    exists_const] at h
  obtain ⟨-, -, m, -, ⟨w₁, mark⟩, htwap, premium, -, next, hnext, _, ⟨-, rfl⟩, _, ⟨-, rfl⟩, _, ⟨-, rfl⟩, rfl⟩ := h
  obtain ⟨marks, rfl⟩ := consumeTwap_ok htwap
  obtain ⟨δ, hlong, hshort⟩ := updateFromPremium_ok hnext
  refine ⟨⟨Frames.mk rfl rfl rfl rfl rfl rfl rfl rfl fun hl => hl.of_eq rfl rfl, rfl⟩, δ, ?_⟩
  have hcur : (if (w.engine.funding marketId).lastUpdate = 0 then
        { w.engine.funding marketId with lastUpdate := w.timestamp } else w.engine.funding marketId).longIndex =
      (w.engine.funding marketId).longIndex ∧
      (if (w.engine.funding marketId).lastUpdate = 0 then
        { w.engine.funding marketId with lastUpdate := w.timestamp } else w.engine.funding marketId).shortIndex =
      (w.engine.funding marketId).shortIndex := by
    split <;> exact ⟨rfl, rfl⟩
  rw [hcur.1] at hlong
  rw [hcur.2] at hshort
  have hstep : (Clearing.machine D.engine PRECISION).step (books D w) (.reindex marketId δ) _ := Step.reindex marketId δ
  have hbooks : books D { w with engine := { w.engine with
      marks := marks
      funding := update w.engine.funding marketId ⟨next.longIndex, next.shortIndex, next.ratePerHour, next.lastUpdate⟩ } } =
      { books D w with
        longIndex := update (books D w).longIndex marketId ((books D w).longIndex marketId + δ)
        shortIndex := update (books D w).shortIndex marketId ((books D w).shortIndex marketId - δ) } := by
    simp only [books, Book.map_update, hlong, hshort]
  rw [Clears]
  exact hbooks ▸ Run.single hstep

end Kryon
