import Kryon.Deleveraging
import Kryon.FundingPool
import Kryon.Sample
/-!
# Closeouts — health equity is what closing realizes

The risk library marks a position at its price against a rounded entry and adds its pending funding; the engine realizes
the notional against the exact basis and settles the funding first.  Both are the size at the price less the basis, so
closing every position at its index price leaves the balance that the health reported as equity, up to a unit for each
unit held and a few for the roundings.
-/
namespace Kryon

open Program Transition
open Function (update)

namespace Engine

/-! ## Closing -/

/-- Closes a whole position at its index price, as a liquidation trades it, and charges nothing. -/
def closeAt (D : Deployment) (w : World) (trader : Address) (marketId : MarketId) : Except Error World := do
  let s := (w.engine.positions (trader, marketId)).size
  let m ← RiskParams.market w marketId
  let price ← indexOf w m
  let n ← M.mulPrecision (M.abs s) price
  let (w, _, _) ← trade D w trader marketId m (-s) price n true false
  pure w

/-- Closes the positions of a list of markets, one after another. -/
def closeAll (D : Deployment) (w : World) (trader : Address) (marketIds : List MarketId) : Except Error World :=
  marketIds.foldlM (fun w marketId => closeAt D w trader marketId) w

/-- What a position of this size may be off by: a unit for each unit held, rounded up, and four. -/
def closeTolerance (size : Int) : Int := (|size| + (PRECISION - 1)) / PRECISION + 4

/-! ## One position -/

theorem realizedOf_close {p : Position} (hopen : p.size ≠ 0) (price notional : Int) :
    realizedOf p (-p.size) price notional = signedValue p.size notional - p.openNotional := by
  have hside : ¬ (p.size = 0 ∨ decide (p.size > 0) = decide (-p.size > 0)) := by
    rw [not_or, decide_eq_decide]
    omega
  rw [realizedOf, if_neg hside, closedNotional, abs_neg, if_pos (le_refl _), min_self, removedBasis, if_pos rfl]

/-- **A position is marked at what closing it books**: its PnL and its funding are what the close realizes less what it
pays, up to the tolerance. -/
theorem close_near {p : Position} (hs : Sided p) (hopen : p.size ≠ 0) (f : FundingState) {x n : Int}
    (hn : n = (|p.size| * x).tdiv PRECISION) :
    |tradePnlOf p x + fundingPnlOf f p - (realizedOf p (-p.size) x n - paymentOf f p)| ≤ closeTolerance p.size := by
  have hmark := tradePnlOf_near hs x
  have hvalue := signedValue_near hn
  have hlow := le_paymentOf f p
  have hhigh := paymentOf_le f p
  rw [realizedOf_close hopen, closeTolerance]
  have hmul : (signedValue p.size n - p.openNotional) * PRECISION =
      signedValue p.size n * PRECISION - p.openNotional * PRECISION := sub_mul _ _ _
  rw [abs_lt] at hmark hvalue
  rw [abs_le]
  simp only [PRECISION] at *
  constructor <;> omega

/-! ## One close -/

variable {D : Deployment} {env : Env} {w w' : World} {trader : Address} {marketId : MarketId}

/-- What a close that returns has done to its account. -/
structure Closes (D : Deployment) (w : World) (trader : Address) (marketId : MarketId) (w' : World) : Prop where
  opened : (w.engine.positions (trader, marketId)).size ≠ 0
  risk : w'.risk = w.risk
  oracle : w'.oracle = w.oracle
  funding : w'.engine.funding = w.engine.funding
  closed : w'.engine.positions (trader, marketId) = Position.empty
  others : ∀ m, m ≠ marketId → w'.engine.positions (trader, m) = w.engine.positions (trader, m)
  balance : w'.vault.balances trader = w.vault.balances trader -
    paymentOf (w.engine.funding marketId) (w.engine.positions (trader, marketId)) +
    realizedOf (w.engine.positions (trader, marketId)) (-(w.engine.positions (trader, marketId)).size)
      (indexAt w marketId) ((|(w.engine.positions (trader, marketId)).size| * indexAt w marketId).tdiv PRECISION)

theorem closeAt_ok (ht : trader ≠ D.engine) (h : closeAt D w trader marketId = .ok w') : Closes D w trader marketId w' := by
  simp only [closeAt, bind_ok_iff, M.abs_eq, pure_ok] at h
  obtain ⟨m, hm, price, hprice, n, hn, ⟨w₁, inc, realized⟩, htrade, rfl⟩ := h
  have hindex : indexPrice w marketId = .ok price := by
    rw [indexPrice, hm]
    exact hprice
  obtain rfl := (indexPrice_ok hindex).2
  obtain rfl := ((M.mulPrecision_ok _ _ _).1 hn).2
  have hopen : (w.engine.positions (trader, marketId)).size ≠ 0 := by
    intro h0
    simp only [trade, bind_ok_iff] at htrade
    obtain ⟨⟨w₂, p₂⟩, hfund, leg, hleg, -⟩ := htrade
    obtain ⟨-, -, rfl, -⟩ := settleFunding_ok hfund
    rw [if_pos (Or.inl ((settledPosition_size _ _).trans h0))] at hleg
    simp [increase] at hleg
  have hd := neg_ne_zero.2 hopen
  have hbal := trade_balances hd htrade
  have hreal := trade_realized htrade
  obtain ⟨x, -, rfl, -, -⟩ := trade_ok hd htrade
  refine ⟨hopen, rfl, rfl, rfl, ?_, fun m' hm' => Function.update_of_ne (fun he => hm' (Prod.ext_iff.1 he).2) _ _, ?_⟩
  · show update w.engine.positions (trader, marketId) _ (trader, marketId) = _
    rw [Function.update_self, nextPosition, if_pos (add_neg_cancel _)]
  · rw [hbal, Book.post_apply, Book.transfer_apply, if_pos rfl, if_pos rfl, if_neg ht, hreal]
    ring

/-- **One close keeps its account's equity**, up to the tolerance of the position it closes. -/
theorem Closes.equity_near (h : Closes D w trader marketId w') (hs : Sided (w.engine.positions (trader, marketId))) :
    |equityOf w' trader - equityOf w trader| ≤ closeTolerance (w.engine.positions (trader, marketId)).size := by
  have hnear := close_near hs h.opened (w.engine.funding marketId) (x := indexAt w marketId) rfl
  have hflat : markedPnl w' trader marketId = 0 := markedPnl_flat (by rw [h.closed]; rfl)
  rw [equityOf_update h.risk h.oracle h.funding h.others, hflat, h.balance, abs_sub_comm, markedPnl]
  convert hnear using 2
  ring

/-! ## Every close -/

/-- **Closing a list of markets** closes those and no others, and keeps the account's equity up to their tolerances. -/
theorem closeAll_near (ht : trader ≠ D.engine) : ∀ (ids : List MarketId) (w w' : World), ids.Nodup →
    (∀ m, Sided (w.engine.positions (trader, m))) → closeAll D w trader ids = .ok w' →
    |equityOf w' trader - equityOf w trader| ≤
        (ids.map fun m => closeTolerance (w.engine.positions (trader, m)).size).sum ∧
      ∀ m, w'.engine.positions (trader, m) = if m ∈ ids then Position.empty else w.engine.positions (trader, m)
  | [], w, w', _, _, h => by
    simp only [closeAll, List.foldlM_nil, pure_ok] at h
    subst h
    simp
  | m :: ids, w, w', hn, hs, h => by
    simp only [closeAll, List.foldlM_cons, bind_ok_iff] at h
    obtain ⟨w₁, hm, h⟩ := h
    have hclose := closeAt_ok ht hm
    obtain ⟨hfresh, hn⟩ := List.nodup_cons.1 hn
    have hs₁ : ∀ n, Sided (w₁.engine.positions (trader, n)) := fun n => by
      by_cases hnm : n = m
      · rw [hnm, hclose.closed]
        exact sided_empty
      · rw [hclose.others n hnm]
        exact hs n
    obtain ⟨hrest, hpos⟩ := closeAll_near ht ids w₁ w' hn hs₁ h
    have hsame : (ids.map fun n => closeTolerance (w₁.engine.positions (trader, n)).size) =
        ids.map fun n => closeTolerance (w.engine.positions (trader, n)).size :=
      List.map_congr_left fun n hmem => by rw [hclose.others n (ne_of_mem_of_not_mem hmem hfresh)]
    have hfirst := hclose.equity_near (hs m)
    rw [hsame] at hrest
    refine ⟨?_, fun n => ?_⟩
    · rw [List.map_cons, List.sum_cons]
      have htriangle := abs_sub_le (equityOf w' trader) (equityOf w₁ trader) (equityOf w trader)
      linarith
    · rw [hpos n]
      by_cases hnm : n = m
      · rw [hnm, hclose.closed, if_pos List.mem_cons_self, ite_self]
      · simp only [List.mem_cons, hnm, false_or, hclose.others n hnm]

end Engine

/-- **Health equity is what closing realizes.** In a reachable world the equity `accountHealth` reports and the balance
left once every open position is closed at its index price, in any order, differ by at most a unit for each unit held,
rounded up, and four for each position. -/
theorem equity_realizable (hk : Keyless env D.engine) (hr : Reachable (machine D env) w) {h : AccountHealth}
    (hh : Engine.accountHealth w trader = .ok h) {marketIds : List MarketId} (hn : marketIds.Nodup)
    (hopen : ∀ m, m ∈ marketIds ↔ (w.engine.positions (trader, m)).size ≠ 0)
    (hclose : Engine.closeAll D w trader marketIds = .ok w') :
    |h.equity - w'.vault.balances trader| ≤
      (marketIds.map fun m => (|(w.engine.positions (trader, m)).size| + (10 ^ 18 - 1)) / 10 ^ 18 + 4).sum := by
  have hhealth := Engine.accountHealth_ok (reachable_listed hr) hh
  have hflat : Flat w D.engine := reachable_flat (by decide) hk hr
  have hclosed : |Engine.equityOf w' trader - Engine.equityOf w trader| ≤
      (marketIds.map fun m => Engine.closeTolerance (w.engine.positions (trader, m)).size).sum ∧
      ∀ m, w'.engine.positions (trader, m) =
        if m ∈ marketIds then Position.empty else w.engine.positions (trader, m) := by
    by_cases ht : trader = D.engine
    · -- The engine's own account holds no position, so nothing is closed.
      have hnil : marketIds = [] :=
        List.eq_nil_iff_forall_not_mem.2 fun m hm => (hopen m).1 hm (by rw [ht]; exact hflat m)
      subst hnil
      simp only [Engine.closeAll, List.foldlM_nil, pure_ok] at hclose
      subst hclose
      simp
    · exact Engine.closeAll_near ht marketIds w w' hn (fun m => reachable_sided hr _) hclose
  obtain ⟨hnear, hpos⟩ := hclosed
  have hmarks : ∀ m, Engine.markedPnl w' trader m = 0 := fun m => Engine.markedPnl_flat (by
    rw [hpos m]
    split
    · rfl
    · rename_i hm
      exact not_not.1 fun h0 => hm ((hopen m).2 h0))
  have hfinal : Engine.equityOf w' trader = w'.vault.balances trader := by
    rw [Engine.equityOf, Finset.sum_eq_zero fun m _ => hmarks m, add_zero]
  rw [hhealth.equity, abs_sub_comm, ← hfinal]
  exact hnear

/-- Alice's long pays its funding and is sold a unit below what she bought it at. -/
theorem equity_realizable_funding : ∃ h w',
    Engine.accountHealth (Sample.outcome Sample.funding) Sample.alice = .ok h ∧
    Engine.closeAll Sample.deployment (Sample.outcome Sample.funding) Sample.alice
      (Bitmap.marketIds ((Sample.outcome Sample.funding).engine.marketBitmap Sample.alice)) = .ok w' ∧
    |h.equity - w'.vault.balances Sample.alice| ≤ 14 := by
  have hr := Sample.outcome_reachable Sample.funding
  have hl := reachable_listed hr
  obtain ⟨h, hh⟩ := ok_of_isOk
    (x := Engine.accountHealth (Sample.outcome Sample.funding) Sample.alice) (by decide +kernel)
  obtain ⟨w', hw'⟩ := ok_of_isOk (x := Engine.closeAll Sample.deployment (Sample.outcome Sample.funding) Sample.alice
    (Bitmap.marketIds ((Sample.outcome Sample.funding).engine.marketBitmap Sample.alice))) (by decide +kernel)
  have hnear := equity_realizable (Sample.keyless .engine) hr hh (Bitmap.marketIds_nodup (hl.word _)) (fun m => hl.mem) hw'
  have htolerance : ((Bitmap.marketIds ((Sample.outcome Sample.funding).engine.marketBitmap Sample.alice)).map fun m =>
      (|((Sample.outcome Sample.funding).engine.positions (Sample.alice, m)).size| + (10 ^ 18 - 1)) / 10 ^ 18 + 4).sum =
      14 := by decide +kernel
  rw [htolerance] at hnear
  exact ⟨h, w', hh, hw', hnear⟩

end Kryon
