import Kryon.Margins
import Kryon.Deficits
/-!
# Dust — when an insolvent account can be liquidated

An account below zero is liquidatable exactly if one of its open positions has a maintenance margin of a wei or more.  A
position too small for that keeps the account open, and an account that is open cannot be settled.
-/
namespace Kryon

open Program Transition

variable {D : Deployment} {env : Env} {w w' : World} {trader : Address}

namespace Engine

/-- The product a maintenance margin is a ten-thousandth of. -/
def maintenanceBase (w : World) (a : Address) (m : MarketId) : Int :=
  (|(w.engine.positions (a, m)).size| * indexAt w m).tdiv PRECISION * (w.risk.markets m).maintenanceMarginBps

theorem maintenanceOf_eq (w : World) (a : Address) (m : MarketId) :
    maintenanceOf w a m = (maintenanceBase w a m).tdiv 10000 := rfl

theorem maintenanceBase_nonneg (hp : Priced w trader) (m : MarketId) : 0 ≤ maintenanceBase w trader m := by
  unfold maintenanceBase
  by_cases h0 : (w.engine.positions (trader, m)).size = 0
  · simp [h0]
  · have hprice := (hp m h0).2
    exact mul_nonneg (Int.tdiv_nonneg (mul_nonneg (abs_nonneg _) hprice.le) (by decide)) (Int.natCast_nonneg _)

theorem maintenanceOf_nonneg (hp : Priced w trader) (m : MarketId) : 0 ≤ maintenanceOf w trader m :=
  Int.tdiv_nonneg (maintenanceBase_nonneg hp m) (by decide)

theorem maintenanceOf_pos (hp : Priced w trader) (m : MarketId) :
    0 < maintenanceOf w trader m ↔ 10000 ≤ maintenanceBase w trader m := by
  have hbase := maintenanceBase_nonneg hp m
  rw [maintenanceOf_eq, Int.tdiv_eq_ediv_of_nonneg hbase]
  omega

/-- **Below zero, an account is liquidatable exactly if a position has a maintenance margin.** -/
theorem IsHealth.liquidatable_iff {h : AccountHealth} (hh : IsHealth w trader h) (hneg : h.equity < 0) :
    h.liquidatable = true ↔ ∃ m, 10000 ≤ maintenanceBase w trader m := by
  have hpos : 0 < h.maintenanceMarginRequired ↔ ∃ m, 0 < maintenanceOf w trader m := by
    rw [hh.maintenance, Finset.sum_pos_iff_of_nonneg fun m _ => maintenanceOf_nonneg hh.priced m]
    simp only [Finset.mem_univ, true_and]
  rw [hh.liquidatable]
  simp only [maintenanceOf_pos hh.priced] at hpos
  rw [← hpos]
  constructor
  · exact fun hl => hl.1
  · exact fun hl => ⟨hl, by omega⟩

theorem planLiquidationSize_ok {marketId : MarketId} {bps : Nat} {size : Int} {h : AccountHealth}
    (hplan : planLiquidationSize w trader marketId bps = .ok (size, h)) :
    accountHealth w trader = .ok h ∧ h.liquidatable = true := by
  simp only [planLiquidationSize, LiquidationLib.planLiquidation, bind_ok_iff, revertIf_ok, pure_ok, Prod.mk.injEq,
    exists_const, Bool.not_eq_false] at hplan
  obtain ⟨⟨c, p, mk⟩, hinputs, _, ⟨h', hh, hl, -, _, -, _, -, _, -, _, -, _, -, _, -, _, -, _, -, rfl⟩, rfl, rfl⟩ := hplan
  refine ⟨?_, hl⟩
  simp only [accountHealth, hinputs, ok_bind]
  exact hh

end Engine

theorem liquidate_liquidatable {msg : Msg} {marketId : MarketId} {maxSize : Nat}
    (h : Liquidation.liquidate D w msg trader marketId maxSize = .ok w') :
    ∃ before, Engine.accountHealth w trader = .ok before ∧ before.liquidatable = true := by
  obtain ⟨-, -, _, before, _, _, _, _, _, hclose, -⟩ := liquidate_ok h
  simp only [Liquidation.closeSizeFor, bind_ok_iff, revertIf_ok, pure_ok, Prod.mk.injEq, exists_const] at hclose
  obtain ⟨-, ⟨planned, h'⟩, hplan, -, -, rfl⟩ := hclose
  exact ⟨_, Engine.planLiquidationSize_ok hplan⟩

theorem dust_health : ∃ h, Engine.accountHealth (Sample.outcome Sample.dust) Sample.alice = .ok h ∧ h.equity < 0 ∧
    h.liquidatable = false ∧ ((Sample.outcome Sample.dust).engine.positions (Sample.alice, 1)).size ≠ 0 := by
  obtain ⟨h, hh, hdust⟩ := ok_of_returnsWith (x := Engine.accountHealth (Sample.outcome Sample.dust) Sample.alice)
    (P := fun h : AccountHealth => decide (h.equity < 0 ∧ h.liquidatable = false)) (by decide +kernel)
  obtain ⟨hneg, hnot⟩ := of_decide_eq_true hdust
  exact ⟨h, hh, hneg, hnot, by decide +kernel⟩

end Kryon
