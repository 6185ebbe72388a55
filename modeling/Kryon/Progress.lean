import Kryon.Overflows
/-!
# Progress — when an unhealthy account can be liquidated

A liquidation is refused unless it improves the account.  Where equity is not positive, closing the whole of a position
that requires margin always does.  Where equity is positive, a close improves the account if its penalty takes all of the
equity or if what the penalty leaves is a larger part of the margin left than the equity was of the margin before
(`Improves`); and near zero equity there may be no such close.
-/
namespace Kryon

open Program Transition

variable {D : Deployment} {env : Env} {w : World} {trader : Address} {marketId : MarketId}

/-! ## The ratio -/

/-- **The margin ratio rises** where equity over margin does by at least a unit of precision. -/
theorem marginRatio_rises {e m e' m' r r' : Int} (hm : 0 < m) (hlt : e < m) (hm' : 0 ≤ m') (he : 0 ≤ e) (he' : 0 ≤ e')
    (hratio : RiskLib.marginRatioOf e m = .ok r) (hratio' : RiskLib.marginRatioOf e' m' = .ok r')
    (h : (e * PRECISION + m) * m' ≤ e' * PRECISION * m) : r < r' := by
  rw [RiskLib.marginRatioOf, if_pos hm, M.divPrecision_ok] at hratio
  obtain ⟨-, rfl⟩ := hratio
  have hprecise : 0 ≤ e * PRECISION := mul_nonneg he (by decide)
  rw [Int.tdiv_eq_ediv_of_nonneg hprecise]
  have hfloor : e * PRECISION / m * m ≤ e * PRECISION := Int.ediv_mul_le _ hm.ne'
  rcases hm'.eq_or_lt with h0 | hpos
  · -- No margin is left, and the ratio is the largest there is.
    rw [RiskLib.marginRatioOf, ← h0, if_neg (lt_irrefl 0), pure_ok] at hratio'
    rw [← hratio']
    have hbelow : e * PRECISION / m < PRECISION := by
      refine lt_of_mul_lt_mul_right (hfloor.trans_lt ?_) hm.le
      rw [mul_comm PRECISION m]
      exact mul_lt_mul_of_pos_right hlt (by decide)
    exact hbelow.trans (by decide)
  · rw [RiskLib.marginRatioOf, if_pos hpos, M.divPrecision_ok] at hratio'
    obtain ⟨-, rfl⟩ := hratio'
    rw [Int.tdiv_eq_ediv_of_nonneg (mul_nonneg he' (by decide)), ← Int.add_one_le_iff, Int.le_ediv_iff_mul_le hpos]
    refine le_of_mul_le_mul_right ?_ hm
    calc (e * PRECISION / m + 1) * m' * m = (e * PRECISION / m * m + m) * m' := by ring
      _ ≤ (e * PRECISION + m) * m' := mul_le_mul_of_nonneg_right (by omega) hm'
      _ ≤ e' * PRECISION * m := h

/-! ## What a close does to the account -/

namespace Engine

/-- **Closing `q` of a position improves the account**, up to the rounding: it frees margin and takes all of the equity, or
what it leaves of the equity is a larger part of the margin left, by a unit of precision. -/
def Improves (w : World) (trader : Address) (marketId : MarketId) (q : Int) (health : AccountHealth) : Prop :=
  (0 < freedBy w trader marketId q ∧ health.equity + closeRounding w trader marketId ≤ penaltyOn w marketId q) ∨
    (health.equity * PRECISION + health.maintenanceMarginRequired) *
        (health.maintenanceMarginRequired - freedBy w trader marketId q) ≤
      (health.equity - penaltyOn w marketId q - closeRounding w trader marketId) * PRECISION *
        health.maintenanceMarginRequired

instance (w : World) (trader : Address) (marketId : MarketId) (q : Int) (health : AccountHealth) :
    Decidable (Improves w trader marketId q health) := inferInstanceAs (Decidable (_ ∨ _))

theorem closeRounding_nonneg (w : World) (trader : Address) (marketId : MarketId) : 0 ≤ closeRounding w trader marketId := by
  have hsize := abs_nonneg (w.engine.positions (trader, marketId)).size
  have hdiv := Int.ediv_nonneg (mul_nonneg (by decide : (0 : Int) ≤ 2) hsize) (by decide : (0 : Int) ≤ PRECISION)
  rw [closeRounding]
  omega

theorem penaltyOn_nonneg {q : Int} (hprice : 0 < indexAt w marketId) (hq : 0 < q) : 0 ≤ penaltyOn w marketId q :=
  Int.tdiv_nonneg (mul_nonneg (Int.tdiv_nonneg (mul_nonneg hq.le hprice.le) (by decide)) (by omega)) (by decide)

theorem freedBy_whole (w : World) (trader : Address) (marketId : MarketId) :
    freedBy w trader marketId |(w.engine.positions (trader, marketId)).size| = maintenanceOf w trader marketId := by
  simp [freedBy]

/-- A close that improves a healthy enough account frees margin. -/
theorem Improves.frees {q : Int} {health : AccountHealth} (h : Improves w trader marketId q health)
    (hprice : 0 < indexAt w marketId) (hq : 0 < q) (hequity : 0 < health.equity)
    (hmargin : 0 < health.maintenanceMarginRequired) : 0 < freedBy w trader marketId q := by
  rcases h with ⟨hfrees, -⟩ | hrises
  · exact hfrees
  · by_contra hnone
    have hround := closeRounding_nonneg w trader marketId
    have hpenalty := penaltyOn_nonneg hprice hq
    have hscaled : 0 < health.equity * PRECISION := mul_pos hequity (by decide)
    set e := health.equity
    set m := health.maintenanceMarginRequired
    have hleft : e * PRECISION * m < (e * PRECISION + m) * (m - freedBy w trader marketId q) := by
      calc e * PRECISION * m < (e * PRECISION + m) * m := mul_lt_mul_of_pos_right (by omega) hmargin
        _ ≤ (e * PRECISION + m) * (m - freedBy w trader marketId q) := mul_le_mul_of_nonneg_left (by omega) (by omega)
    have hright : (e - penaltyOn w marketId q - closeRounding w trader marketId) * PRECISION * m ≤ e * PRECISION * m :=
      mul_le_mul_of_nonneg_right (mul_le_mul_of_nonneg_right (by omega) (by decide)) hmargin.le
    omega

end Engine

/-! ## The check -/

theorem improved_of_bankrupt {before after : AccountHealth} (hequity : before.equity ≤ 0)
    (h : after.maintenanceMarginRequired < before.maintenanceMarginRequired) : Liquidation.improved before after = true := by
  rw [Liquidation.improved, if_neg fun hpos => absurd hpos.1 (not_lt.2 hequity)]
  exact decide_eq_true h

/-- **A close that improves the account passes the check.** -/
theorem improved_of_improves {q : Int} {before after : AccountHealth} {w' : World}
    (hb : Engine.IsHealth w trader before) (ha : Engine.IsHealth w' trader after)
    (hliq : before.liquidatable = true) (hequity : 0 < before.equity) (hprice : 0 < Engine.indexAt w marketId)
    (hq : 0 < q) (h : Engine.Improves w trader marketId q before)
    (hmargin : after.maintenanceMarginRequired =
      before.maintenanceMarginRequired - Engine.freedBy w trader marketId q)
    (hlow : before.equity - Engine.penaltyOn w marketId q - Engine.closeRounding w trader marketId ≤ after.equity)
    (hhigh : after.equity ≤ before.equity - Engine.penaltyOn w marketId q + Engine.closeRounding w trader marketId) :
    Liquidation.improved before after = true := by
  obtain ⟨hpos, hless⟩ := hb.liquidatable.1 hliq
  have hfrees := h.frees hprice hq hequity hpos
  have hleft : 0 ≤ after.maintenanceMarginRequired := by
    rw [ha.maintenance]
    exact Finset.sum_nonneg fun m _ => Engine.maintenanceOf_nonneg ha.priced m
  rw [Liquidation.improved]
  split
  · rename_i hboth
    rcases h with ⟨-, hall⟩ | hrises
    · omega
    · refine decide_eq_true (marginRatio_rises hpos hless hleft hequity.le hboth.2.le hb.ratio ha.ratio ?_)
      rw [hmargin]
      exact hrises.trans (mul_le_mul_of_nonneg_right (mul_le_mul_of_nonneg_right hlow (by decide)) hpos.le)
  · exact decide_eq_true (by omega)

/-! ## Every unhealthy account -/

/-- An account with a position is neither the pool nor the fee router. -/
theorem holder_ne (hk : Keyless env D.engine) (hk' : Keyless env D.feeRouter) (hr : Reachable (machine D env) w)
    (hopen : (w.engine.positions (trader, marketId)).size ≠ 0) : trader ≠ D.engine ∧ trader ≠ D.feeRouter := by
  have hengine : Flat w D.engine := reachable_flat (by decide) hk hr
  have hrouter : Flat w D.feeRouter := reachable_flat (by decide) hk' hr
  exact ⟨fun he => hopen (by rw [he]; exact hengine marketId), fun he => hopen (by rw [he]; exact hrouter marketId)⟩

section Unhealthy
variable (hk : Keyless env D.engine) (hk' : Keyless env D.feeRouter) (hr : Reachable (machine D env) w) (hrun : Running w)
  {before : AccountHealth} (hb : Engine.accountHealth w trader = .ok before) (hliq : before.liquidatable = true)
  {msg : Msg} (hsender : trader ≠ msg.sender) (hins : trader ≠ D.insurance)
include hk hk' hr hrun hb hliq hsender hins

/-- **Closing the whole of a position that requires margin succeeds** where equity is not positive. -/
theorem liquidate_bankrupt (hequity : before.equity ≤ 0) (hmargin : 0 < Engine.maintenanceOf w trader marketId) :
    RevertsOnly Error.Overflow (Liquidation.liquidate D w msg trader marketId
      |(w.engine.positions (trader, marketId)).size|.toNat) := by
  have hl := reachable_listed hr
  have hv := reachable_valid hr
  have hplaced := reachable_placed hr
  have hread := Engine.Readable.of_placed hplaced hv.markets (Engine.accountHealth_ok hl hb).priced hins
  have hopen : (w.engine.positions (trader, marketId)).size ≠ 0 := fun h0 => hmargin.ne' (Engine.maintenanceOf_flat h0)
  have hsize : 0 < |(w.engine.positions (trader, marketId)).size| := abs_pos.2 hopen
  obtain ⟨hengine, -⟩ := holder_ne hk hk' hr hopen
  obtain ⟨-, -, ⟨hfee, -⟩, -⟩ := hv.markets marketId (hplaced.market _ _ hopen)
  obtain ⟨hclose, hclosed⟩ := Engine.closeSizeFor_bankrupt hread hb hequity hopen hliq hv.liquidation
    (hfee.trans (by decide))
  refine liquidate_overflows hr hrun hb hsender hins hengine (by omega) ⟨hsize, le_refl _⟩ hclose hclosed
    fun w₁ realized w₂ after h₁ h₂ h₃ => ?_
  have hfreed := (closed_health hl (reachable_sided hr) hv.feeRouter hsender hengine hins h₁ h₂ hb h₃).1
  rw [Engine.freedBy_whole] at hfreed
  exact improved_of_bankrupt hequity (by omega)

/-- **Any part of a planned close that improves the account succeeds** where equity is positive. -/
theorem liquidate_improving (hequity : 0 < before.equity) {planned q : Int}
    (hplan : Engine.planLiquidationSize w trader marketId w.liquidation.partialLiquidationBps = .ok (planned, before))
    (hq : 0 < q) (hle : q ≤ planned) (himproves : Engine.Improves w trader marketId q before) :
    RevertsOnly Error.Overflow (Liquidation.liquidate D w msg trader marketId q.toNat) := by
  have hl := reachable_listed hr
  have hv := reachable_valid hr
  have hhealth := Engine.accountHealth_ok hl hb
  have hbps := hv.liquidation.partialBps.2
  obtain ⟨-, hsize, -⟩ := Engine.planLiquidationSize_bounds hbps hplan
  have hopen : (w.engine.positions (trader, marketId)).size ≠ 0 := abs_pos.1 (by omega)
  obtain ⟨hengine, hrouter⟩ := holder_ne hk hk' hr hopen
  have hclose := Engine.closeSizeFor_planned hbps hplan hequity hq hle
  refine liquidate_overflows hr hrun hb hsender hins hengine (by omega) ⟨hq, hle.trans hsize⟩
    (by rw [hclose]; exact revertsOnly_ok _) (fun r hr => ok_unique hr hclose)
    fun w₁ realized w₂ after h₁ h₂ h₃ => ?_
  obtain ⟨hmargin, hlow, hhigh⟩ := closed_health hl (reachable_sided hr) hv.feeRouter hsender hengine hins h₁ h₂ hb h₃
  obtain ⟨-, hmoves, -⟩ := liquidationTransfer_clears h₁
  obtain ⟨hcharges, -⟩ := payPenalty_clears h₂
  have hafter := Engine.accountHealth_ok (hcharges.listed (hmoves.listed hl)) h₃
  exact improved_of_improves hhealth hafter hliq hequity (hhealth.priced marketId hopen).2 hq himproves hmargin hlow
    (hhigh hrouter)

/-- **An unhealthy account can be liquidated**, unless arithmetic overflows.  Where its equity is not positive there is a
market and a size that succeed; where its equity is positive, every part of a planned close that improves the account
does. -/
theorem liquidate_progress :
    (before.equity ≤ 0 → ∃ marketId maxSize,
      RevertsOnly Error.Overflow (Liquidation.liquidate D w msg trader marketId maxSize)) ∧
    (0 < before.equity → ∀ marketId planned q, Engine.planLiquidationSize w trader marketId
        w.liquidation.partialLiquidationBps = .ok (planned, before) → 0 < q → q ≤ planned →
      Engine.Improves w trader marketId q before →
        RevertsOnly Error.Overflow (Liquidation.liquidate D w msg trader marketId q.toNat)) := by
  refine ⟨fun hequity => ?_, fun hequity m planned q hplan hq hle himproves =>
    liquidate_improving hk hk' hr hrun hb hliq hsender hins hequity hplan hq hle himproves⟩
  -- The margin required is positive, so a position requires some of it.
  have hhealth := Engine.accountHealth_ok (reachable_listed hr) hb
  obtain ⟨hpos, -⟩ := hhealth.liquidatable.1 hliq
  rw [hhealth.maintenance,
    Finset.sum_pos_iff_of_nonneg fun m _ => Engine.maintenanceOf_nonneg hhealth.priced m] at hpos
  obtain ⟨m, -, hm⟩ := hpos
  exact ⟨m, _, liquidate_bankrupt hk hk' hr hrun hb hliq hsender hins hequity hm⟩

end Unhealthy

/-- Nothing is paused. -/
theorem Sample.running (calls : List Call)
    (h : ([Contract.engine, .liquidation, .insurance, .vault].all fun c => !(Sample.outcome calls).paused c) = true) :
    Running (Sample.outcome calls) := by
  simp only [List.all_cons, List.all_nil, Bool.and_true, Bool.and_eq_true, Bool.not_eq_true'] at h
  exact ⟨h.1, h.2.1, h.2.2.1, h.2.2.2⟩

/-- Carol can liquidate Alice after the crash, and the planned size while Alice is only ailing. -/
theorem liquidate_progress_ailing :
    (∃ marketId maxSize, RevertsOnly Error.Overflow (Liquidation.liquidate Sample.deployment
      (Sample.outcome Sample.crashing) (Sample.call Sample.carol (.wait 0)).msg Sample.alice marketId maxSize)) ∧
    RevertsOnly Error.Overflow (Liquidation.liquidate Sample.deployment (Sample.outcome Sample.ailing)
      (Sample.call Sample.carol (.wait 0)).msg Sample.alice 1 2173913043478260870) := by
  constructor
  · obtain ⟨before, hb, hmeets⟩ := ok_of_returnsWith
      (x := Engine.accountHealth (Sample.outcome Sample.crashing) Sample.alice)
      (P := fun h : AccountHealth => h.liquidatable && decide (h.equity ≤ 0)) (by decide +kernel)
    simp only [Bool.and_eq_true, decide_eq_true_eq] at hmeets
    exact (liquidate_progress (Sample.keyless .engine) (Sample.keyless .feeRouter)
      (Sample.outcome_reachable Sample.crashing) (Sample.running _ (by decide +kernel)) hb hmeets.1 (by decide)
      (by decide)).1 hmeets.2
  · obtain ⟨⟨planned, before⟩, hplan, hmeets⟩ := ok_of_returnsWith
      (x := Engine.planLiquidationSize (Sample.outcome Sample.ailing) Sample.alice 1
        (Sample.outcome Sample.ailing).liquidation.partialLiquidationBps)
      (P := fun r : Int × AccountHealth => decide (0 < r.2.equity ∧ 2173913043478260870 ≤ r.1 ∧
        Engine.Improves (Sample.outcome Sample.ailing) Sample.alice 1 2173913043478260870 r.2)) (by decide +kernel)
    obtain ⟨hequity, hle, himproves⟩ := of_decide_eq_true hmeets
    obtain ⟨hb, hliq⟩ := Engine.planLiquidationSize_ok hplan
    exact (liquidate_progress (Sample.keyless .engine) (Sample.keyless .feeRouter)
      (Sample.outcome_reachable Sample.ailing) (Sample.running _ (by decide +kernel)) hb hliq (by decide)
      (by decide)).2 hequity 1 planned 2173913043478260870 hplan (by decide) hle himproves

/-! ## An account that cannot be liquidated -/

/-- **A caller's bound beyond the whole position changes nothing.** -/
theorem closeSizeFor_cap {n k : Nat} (hbps : w.liquidation.partialLiquidationBps ≤ 10000)
    (hk : |(w.engine.positions (trader, marketId)).size| ≤ k) (hn : k ≤ n) :
    Liquidation.closeSizeFor w trader marketId n = Liquidation.closeSizeFor w trader marketId k := by
  unfold Liquidation.closeSizeFor
  refine bind_congr_ok fun _ _ => bind_congr_ok fun r hplan => ?_
  obtain ⟨planned, before⟩ := r
  obtain ⟨-, hle, hrange⟩ := Engine.planLiquidationSize_bounds hbps hplan
  have hsame : ∀ p : Int, p ≤ |(w.engine.positions (trader, marketId)).size| →
      M.min p (M.toBoundedInt n) = M.min p (M.toBoundedInt k) := by
    intro p hp
    rw [M.min_eq, M.min_eq, M.toBoundedInt, M.toBoundedInt]
    split_ifs <;> omega
  simp only
  rw [hsame _ (by split; exact (M.abs_eq _).le; exact hle)]

theorem liquidate_cap {n k : Nat} (hbps : w.liquidation.partialLiquidationBps ≤ 10000)
    (hk : |(w.engine.positions (trader, marketId)).size| ≤ k) (hn : k ≤ n) (h0 : k ≠ 0) {msg : Msg} :
    Liquidation.liquidate D w msg trader marketId n = Liquidation.liquidate D w msg trader marketId k := by
  rw [Liquidation.liquidate, Liquidation.liquidate, closeSizeFor_cap hbps hk hn, revertIf_of_not h0,
    revertIf_of_not (by omega : n ≠ 0)]

/-- A liquidation that asks for nothing, or of a position that is not there, is refused for that. -/
theorem liquidate_refused (hrun : Running w) {msg : Msg} (hsender : trader ≠ msg.sender) (hins : trader ≠ D.insurance)
    {maxSize : Nat} (h : maxSize = 0 ∨ (w.engine.positions (trader, marketId)).size = 0) :
    ∃ e, Liquidation.liquidate D w msg trader marketId maxSize = .error e ∧ ¬ e.Overflow := by
  have hgo : w.whenNotPaused .liquidation = .ok ⟨⟩ := by simp [World.whenNotPaused, hrun.liquidation, revertIf_of_not]
  simp only [Liquidation.liquidate, hgo, ok_bind, revertIf_of_not hsender, revertIf_of_not hins]
  by_cases h0 : maxSize = 0
  · exact ⟨.invalidAmount, by rw [h0]; rfl, by decide⟩
  · have hflat := h.resolve_left h0
    refine ⟨.positionNotFound, ?_, by decide⟩
    simp only [revertIf_of_not h0, ok_bind, Liquidation.closeSizeFor, hflat]
    rfl

/-- Alice is long in two markets whose penalty is their whole maintenance margin, two units of each at a price that makes
them worth 160, and ten are left of her deposit. -/
def Sample.thin : List Call :=
  Sample.configure (Sample.market 1000 500 500) (100 * 10 ^ 36) ++
    [Sample.call Sample.alice (.deposit (90 * 10 ^ 6)), Sample.call Sample.bob (.deposit (90 * 10 ^ 6)),
      Sample.settle [Sample.fill Sample.alice Sample.bob 1 2 (100 * 10 ^ 36) 1,
        Sample.fill Sample.alice Sample.bob 2 2 (100 * 10 ^ 36) 2],
      Sample.call Sample.admin (.wait 10), Sample.push (80 * 10 ^ 36) 1010]

/-- **An unhealthy account that nobody can liquidate**: every close takes a larger part of its equity than it frees of its
margin, so every call is refused, and none for an overflow. -/
theorem liquidate_stuck : ∃ before,
    Reachable (machine Sample.deployment Sample.env) (Sample.outcome Sample.thin) ∧ Running (Sample.outcome Sample.thin) ∧
    Engine.accountHealth (Sample.outcome Sample.thin) Sample.alice = .ok before ∧ before.liquidatable = true ∧
    Sample.alice ≠ (Sample.call Sample.carol (.wait 0)).msg.sender ∧ Sample.alice ≠ Sample.deployment.insurance ∧
    ∀ marketId maxSize, ∃ e, Liquidation.liquidate Sample.deployment (Sample.outcome Sample.thin)
      (Sample.call Sample.carol (.wait 0)).msg Sample.alice marketId maxSize = .error e ∧ ¬ e.Overflow := by
  have hr := Sample.outcome_reachable Sample.thin
  have hrun := Sample.running Sample.thin (by decide +kernel)
  obtain ⟨before, hb, hliq⟩ := ok_of_returnsWith
    (x := Engine.accountHealth (Sample.outcome Sample.thin) Sample.alice) (P := AccountHealth.liquidatable)
    (by decide +kernel)
  refine ⟨before, hr, hrun, hb, hliq, by decide, by decide, fun marketId maxSize => ?_⟩
  by_cases hflat : maxSize = 0 ∨ ((Sample.outcome Sample.thin).engine.positions (Sample.alice, marketId)).size = 0
  · exact liquidate_refused hrun (by decide) (by decide) hflat
  rw [not_or] at hflat
  -- Only the first two markets are open, and a position of two units can be closed in two ways.
  have hmem := (reachable_listed hr).mem.2 hflat.2
  have hopen : Bitmap.marketIds ((Sample.outcome Sample.thin).engine.marketBitmap Sample.alice) = [1, 2] := by
    decide +kernel
  rw [hopen] at hmem
  have hrefused : ∀ m ∈ [(1 : MarketId), 2], ∀ n ∈ [1, 2], ∃ e, Liquidation.liquidate Sample.deployment
      (Sample.outcome Sample.thin) (Sample.call Sample.carol (.wait 0)).msg Sample.alice m n = .error e ∧ ¬ e.Overflow := by
    have hall : ([(1 : MarketId), 2].all fun m => [1, 2].all fun n => revertsWith (fun e => !decide e.Overflow)
        (Liquidation.liquidate Sample.deployment (Sample.outcome Sample.thin)
          (Sample.call Sample.carol (.wait 0)).msg Sample.alice m n)) = true := by decide +kernel
    intro m hm n hn
    obtain ⟨e, he, hnot⟩ := error_of_revertsWith (List.all_eq_true.1 (List.all_eq_true.1 hall m hm) n hn)
    exact ⟨e, he, by simpa using hnot⟩
  have hsize : |((Sample.outcome Sample.thin).engine.positions (Sample.alice, marketId)).size| ≤ (2 : Nat) := by
    have hall : ([(1 : MarketId), 2].all fun m => decide
        (|((Sample.outcome Sample.thin).engine.positions (Sample.alice, m)).size| ≤ (2 : Nat))) = true := by decide +kernel
    exact of_decide_eq_true (List.all_eq_true.1 hall marketId hmem)
  rcases Nat.lt_or_ge maxSize 2 with h | h
  · exact hrefused marketId hmem maxSize (by rw [List.mem_cons]; omega)
  · rw [liquidate_cap (by decide +kernel) hsize h (by decide)]
    exact hrefused marketId hmem 2 (by decide)

end Kryon
