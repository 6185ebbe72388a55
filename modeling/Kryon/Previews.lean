import Kryon.Basis
import Kryon.FeeLedger
import Kryon.Sample
/-!
# Previews — the client's position and fee arithmetic

`lib/math.ts` repeats the contracts' arithmetic over unbounded integers, whose division truncates as Solidity's does.  A
fill's preview is the position a trade stores, what it realizes and whether it grew exposure; a fee's preview is what the
fee router quotes.
-/
namespace Kryon.Preview

open Program Transition

def E18 : Int := 10 ^ 18
def RATE_DENOMINATOR : Int := 1000000

def abs (x : Int) : Int := if x < 0 then -x else x

def mulDiv (a b d : Int) : Int := (a * b).tdiv d

/-- The fill notional the gateway computes. -/
def notional (size price : Int) : Int := mulDiv (abs size) price E18

/-- The fee on a notional at a rate in millionths: a positive rate rounds up, a rebate toward zero. -/
def feeFor (fillNotional rateMillionths : Int) : Int :=
  if fillNotional ≤ 0 ∨ rateMillionths = 0 then 0
  else if rateMillionths < 0 then -mulDiv fillNotional (-rateMillionths) RATE_DENOMINATOR
  else (fillNotional * rateMillionths - 1).tdiv RATE_DENOMINATOR + 1

structure PositionState where
  size : Int
  openNotional : Int
  deriving DecidableEq

structure FillResult extends PositionState where
  realized : Int
  increased : Bool
  deriving DecidableEq

/-- The position after a fill of signed `delta` at `price`. -/
def applyFill (p : PositionState) (delta price : Int) : FillResult :=
  if delta = 0 then { p with realized := 0, increased := false }
  else
    let fill := notional delta price
    let s := p.size
    if s = 0 ∨ decide (s > 0) = decide (delta > 0) then
      { size := s + delta
        openNotional := p.openNotional + (if delta > 0 then fill else -fill)
        realized := 0
        increased := true }
    else
      let absS := abs s
      let absD := abs delta
      let closeQty := if absD < absS then absD else absS
      let residual := absD - closeQty
      let closeNotional := if residual = 0 then fill else notional closeQty price
      let removedBasis := if closeQty = absS then p.openNotional else mulDiv p.openNotional closeQty absS
      let realized := (if s > 0 then closeNotional else -closeNotional) - removedBasis
      let size := if s > 0 then s - closeQty else s + closeQty
      let openNotional := p.openNotional - removedBasis
      if residual > 0 then
        let rest := fill - closeNotional
        { size := size + (if delta > 0 then residual else -residual)
          openNotional := openNotional + (if delta > 0 then rest else -rest)
          realized := realized
          increased := true }
      else { size := size, openNotional := openNotional, realized := realized, increased := false }

theorem abs_eq (x : Int) : abs x = |x| := M.abs_eq x

theorem notional_eq (size price : Int) : notional size price = (|size| * price).tdiv PRECISION := by
  rw [notional, abs_eq]
  rfl

/-! ## Fills -/

/-- Whether a trade grows exposure: it opens, adds, or closes and flips. -/
def grows (p : PositionState) (delta : Int) : Bool :=
  decide (p.size = 0 ∨ decide (p.size > 0) = decide (delta > 0) ∨ |p.size| < |delta|)

/-- **A preview in closed form**: the size moves by the trade, and the basis by its value and what it realizes. -/
theorem applyFill_eq (p : Position) {delta price : Int} (hd : delta ≠ 0) :
    applyFill ⟨p.size, p.openNotional⟩ delta price =
      { size := p.size + delta
        openNotional := p.openNotional + (Engine.realizedOf p delta price (notional delta price) +
          Engine.signedValue delta (notional delta price))
        realized := Engine.realizedOf p delta price (notional delta price)
        increased := grows ⟨p.size, p.openNotional⟩ delta } := by
  unfold applyFill
  rw [if_neg hd]
  simp only [abs_eq, grows]
  by_cases hside : p.size = 0 ∨ decide (p.size > 0) = decide (delta > 0)
  · -- The fill opens the position or grows it.
    have hgrows : p.size = 0 ∨ decide (p.size > 0) = decide (delta > 0) ∨ |p.size| < |delta| :=
      hside.imp_right Or.inl
    rw [if_pos hside, Engine.realizedOf, if_pos hside, zero_add, decide_eq_true hgrows]
    rfl
  · rw [if_neg hside, Engine.realizedOf, if_neg hside, Engine.closedNotional, Engine.removedBasis]
    rw [not_or, decide_eq_decide] at hside
    have hopp : (0 < p.size ∧ delta < 0) ∨ (p.size < 0 ∧ 0 < delta) := by omega
    have hgrows : (p.size = 0 ∨ decide (p.size > 0) = decide (delta > 0) ∨ |p.size| < |delta|) ↔ |p.size| < |delta| := by
      rw [decide_eq_decide]
      exact ⟨fun h => h.resolve_left hside.1 |>.resolve_left hside.2, fun h => Or.inr (Or.inr h)⟩
    have hmin : (if |delta| < |p.size| then |delta| else |p.size|) = min |p.size| |delta| := by
      split
      · rename_i hlt
        exact (min_eq_right hlt.le).symm
      · rename_i hle
        exact (min_eq_left (not_lt.1 hle)).symm
    simp only [hmin, hgrows]
    by_cases hle : |delta| ≤ |p.size|
    · -- It reduces the position or closes it.
      simp only [min_eq_right hle, sub_self, if_true, if_pos hle, if_neg (lt_irrefl (0 : Int)), gt_iff_lt,
        not_lt.2 hle, decide_false, mulDiv, Engine.signedValue]
      generalize (if |delta| = |p.size| then p.openNotional else (p.openNotional * |delta|).tdiv |p.size|) = removed
      rcases hopp with ⟨hp, hneg⟩ | ⟨hp, hpos⟩
      · rw [if_pos hp, if_pos hp, if_neg hneg.not_gt, abs_of_neg hneg]
        simp only [FillResult.mk.injEq, PositionState.mk.injEq, and_true]
        constructor <;> ring
      · rw [if_neg hp.not_gt, if_neg hp.not_gt, if_pos hpos, abs_of_pos hpos]
        simp only [FillResult.mk.injEq, PositionState.mk.injEq, and_true, true_and]
        ring
    · -- It closes the position and opens the residual on the other side.
      have hlt := not_le.1 hle
      have hresidual : |delta| - |p.size| ≠ 0 := by omega
      simp only [min_eq_left hlt.le, if_true, if_neg hle, if_neg hresidual, gt_iff_lt, sub_pos, hlt, decide_true,
        notional_eq, abs_abs, Engine.signedValue]
      rcases hopp with ⟨hp, hneg⟩ | ⟨hp, hpos⟩
      · rw [if_pos hp, if_pos hp, if_neg hneg.not_gt, if_neg hneg.not_gt, if_neg hneg.not_gt, abs_of_neg hneg,
          abs_of_pos hp]
        simp only [FillResult.mk.injEq, PositionState.mk.injEq, and_true]
        constructor <;> ring
      · rw [if_neg hp.not_gt, if_neg hp.not_gt, if_pos hpos, if_pos hpos, if_pos hpos, abs_of_pos hpos, abs_of_neg hp]
        simp only [FillResult.mk.injEq, PositionState.mk.injEq, and_true]
        constructor <;> ring

variable {D : Deployment} {env : Env} {w w' : World} {trader : Address} {marketId : MarketId}

/-- **What a trade reports of exposure**: it grew unless the trade only reduced. -/
theorem trade_increased {m : MarketParams} {delta price fillNotional realized : Int}
    {reduceOnly enforceLimits increased : Bool} (hd : delta ≠ 0)
    (h : Engine.trade D w trader marketId m delta price fillNotional reduceOnly enforceLimits =
      .ok (w', increased, realized)) :
    increased = grows ⟨(w.engine.positions (trader, marketId)).size,
      (w.engine.positions (trader, marketId)).openNotional⟩ delta := by
  simp only [Engine.trade, bind_ok_iff, pure_ok, Prod.mk.injEq] at h
  obtain ⟨⟨w₁, p₁⟩, hfund, leg, hleg, basis, -, w₂, -, w₃, -, _, -, -, rfl, -⟩ := h
  obtain ⟨payment, rfl, rfl, -⟩ := Engine.settleFunding_ok hfund
  simp only [Engine.settledPosition_size, grows] at hleg ⊢
  split at hleg
  · rename_i hside
    have hgrows : (w.engine.positions (trader, marketId)).size = 0 ∨
        decide ((w.engine.positions (trader, marketId)).size > 0) = decide (delta > 0) ∨
        |(w.engine.positions (trader, marketId)).size| < |delta| := hside.imp_right Or.inl
    rw [decide_eq_true hgrows]
    simp only [Engine.increase, bind_ok_iff, pure_ok] at hleg
    obtain ⟨_, -, _, -, ⟨_, _, _⟩, -, rfl⟩ := hleg
    rfl
  · rename_i hside
    rw [not_or] at hside
    have hsize := Engine.settledPosition_size (w.engine.funding marketId) (w.engine.positions (trader, marketId))
    have hlast := Engine.settledPosition_last (w.engine.funding marketId) hside.1
    rw [← hsize] at hside hlast
    obtain ⟨-, -, hflips⟩ : Engine.LegBooked _ trader marketId _ delta fillNotional leg ∧ _ ∧ leg.increased = _ :=
      Engine.reduce_ok hd hside.1 hside.2 (by exact hlast) hleg
    rw [hsize] at hside hflips
    rw [hflips, decide_eq_decide]
    exact ⟨fun hlt => Or.inr (Or.inr hlt), fun hgrows => (hgrows.resolve_left hside.1).resolve_left hside.2⟩

/-- **A trade stores what its preview shows**, realizes it and reports it. -/
theorem trade_previewed {m : MarketParams} {delta price fillNotional realized : Int}
    {reduceOnly enforceLimits increased : Bool} (hd : delta ≠ 0)
    (hn : M.mulPrecision (M.abs delta) price = .ok fillNotional)
    (h : Engine.trade D w trader marketId m delta price fillNotional reduceOnly enforceLimits =
      .ok (w', increased, realized)) :
    applyFill ⟨(w.engine.positions (trader, marketId)).size, (w.engine.positions (trader, marketId)).openNotional⟩
        delta price =
      { size := (w'.engine.positions (trader, marketId)).size
        openNotional := (w'.engine.positions (trader, marketId)).openNotional
        realized := realized
        increased := increased } := by
  have hnotional : notional delta price = fillNotional := by
    rw [notional_eq, ← M.abs_eq]
    exact ((M.mulPrecision_ok _ _ _).1 hn).2
  have hrealized := Engine.trade_realized h
  have hincreased := trade_increased hd h
  obtain ⟨x, hx, hw', hreal, -⟩ := Engine.trade_ok hd h
  have hstored : w'.engine.positions (trader, marketId) =
      Engine.nextPosition (w.engine.positions (trader, marketId)) delta x := by
    rw [hw']
    exact Function.update_self _ _ _
  rw [applyFill_eq _ hd, hnotional, ← hrealized, ← hincreased, hstored, Engine.nextPosition_size]
  have hbasis : (Engine.nextPosition (w.engine.positions (trader, marketId)) delta x).openNotional =
      (w.engine.positions (trader, marketId)).openNotional + x.basisChange := by
    unfold Engine.nextPosition
    split
    · rename_i h0
      exact (hx.flat h0).1.symm
    · rfl
  rw [hbasis, hreal, sub_add_cancel]

/-! ## Fees -/

theorem feeFor_zero (n : Int) : feeFor n 0 = 0 := by
  rw [feeFor, if_pos (Or.inr rfl)]

theorem feeFor_debit {n rate fee : Int} (hn : 0 < n) (hrate : 0 ≤ rate) (h : FeeRouter.ceilMul n rate = .ok fee) :
    fee = feeFor n rate := by
  unfold FeeRouter.ceilMul at h
  split at h
  · rename_i h0
    rw [pure_ok] at h
    rw [h0, feeFor_zero, h]
  · rename_i h0
    simp only [bind_ok_iff, M.bound128_ok] at h
    obtain ⟨_, ⟨-, rfl⟩, -, rfl⟩ := h
    rw [feeFor, if_neg (by omega), if_neg (not_lt.2 hrate)]
    rfl

theorem feeFor_rebate {n rate rebate : Int} (hn : 0 < n) (hrate : rate < 0)
    (h : M.mulDiv n (-rate) FeeRouter.RATE_DENOMINATOR = .ok rebate) : -rebate = feeFor n rate := by
  rw [feeFor, if_neg (by omega), if_pos hrate, ← ((M.mulDiv_ok _ _ _ _).1 h).2]
  rfl

theorem feeFor_rounding {n rate fee : Int} (hn : 0 < n)
    (h : (if rate ≥ 0 then FeeRouter.ceilMul n rate
      else do
        let rebate ← M.mulDiv n (-rate) FeeRouter.RATE_DENOMINATOR
        pure (-rebate)) = .ok fee) : fee = feeFor n rate := by
  split at h
  · rename_i hrate
    exact feeFor_debit hn hrate h
  · rename_i hrate
    simp only [bind_ok_iff, pure_ok] at h
    obtain ⟨rebate, hrebate, rfl⟩ := h
    exact feeFor_rebate hn (not_le.1 hrate) hrebate

/-- **A quote's fees are the previews of its rates.** -/
theorem quote_previewed {s : FeeRouterStorage} (hv : FeeRouter.Valid s) {maker taker : Address} {n : Int}
    {q : FeeRouter.Quote} (h : FeeRouter.quote s marketId maker taker n = .ok q) :
    0 < n ∧ ∃ makerRate takerRate, FeeRouter.rateFor s marketId maker true = .ok (makerRate, q.makerTier) ∧
      FeeRouter.rateFor s marketId taker false = .ok (takerRate, q.takerTier) ∧ q.takerFee = feeFor n takerRate ∧
      q.makerFee = feeFor n (FeeRouter.effectiveMakerRate s makerRate takerRate) := by
  simp only [FeeRouter.quote, bind_ok_iff, revertIf_ok, not_le, exists_const] at h
  obtain ⟨hn, ⟨makerRate, makerTier⟩, hmaker, ⟨takerRate, takerTier⟩, htaker, takerFee, htakerFee, makerFee, hmakerFee,
    h⟩ := h
  rw [pure_ok] at h
  subst h
  obtain ⟨r, hr, hrate⟩ := FeeRouter.rateFor_taker hv htaker
  have htaker0 : 0 ≤ takerRate := by
    rw [hrate]
    exact hr.taker.1
  exact ⟨hn, makerRate, takerRate, hmaker, htaker, feeFor_debit hn htaker0 htakerFee, feeFor_rounding hn hmakerFee⟩

/-- **The client's arithmetic is the contracts'.** A trade at the index value of its size stores the position its preview
shows, realizes what it shows and reports what it shows; a positive notional at any signed rate is charged its preview; and
in a reachable world a quote's fees, whatever the notional it was asked for, are the previews of the rates it applied. -/
theorem arithmetic_previewed :
    (∀ (D : Deployment) (w w' : World) (trader : Address) (marketId : MarketId) (m : MarketParams)
      (delta price fillNotional realized : Int) (reduceOnly enforceLimits increased : Bool), delta ≠ 0 →
      M.mulPrecision (M.abs delta) price = .ok fillNotional →
      Engine.trade D w trader marketId m delta price fillNotional reduceOnly enforceLimits =
        .ok (w', increased, realized) →
      applyFill ⟨(w.engine.positions (trader, marketId)).size, (w.engine.positions (trader, marketId)).openNotional⟩
          delta price =
        { size := (w'.engine.positions (trader, marketId)).size
          openNotional := (w'.engine.positions (trader, marketId)).openNotional
          realized := realized
          increased := increased }) ∧
    (∀ n rate fee : Int, 0 < n →
      (if rate ≥ 0 then FeeRouter.ceilMul n rate
        else do
          let rebate ← M.mulDiv n (-rate) FeeRouter.RATE_DENOMINATOR
          pure (-rebate)) = .ok fee → feeFor n rate = fee) ∧
    (∀ (D : Deployment) (env : Env) (w : World), Reachable (machine D env) w → ∀ (marketId : MarketId)
      (maker taker : Address) (n : Int) (q : FeeRouter.Quote),
      FeeRouter.quote w.feeRouter marketId maker taker n = .ok q → ∃ makerRate takerRate,
        FeeRouter.rateFor w.feeRouter marketId maker true = .ok (makerRate, q.makerTier) ∧
        FeeRouter.rateFor w.feeRouter marketId taker false = .ok (takerRate, q.takerTier) ∧
        feeFor n takerRate = q.takerFee ∧
        feeFor n (FeeRouter.effectiveMakerRate w.feeRouter makerRate takerRate) = q.makerFee) := by
  refine ⟨fun D w w' trader marketId m delta price fillNotional realized reduceOnly enforceLimits increased hd hn h =>
    trade_previewed hd hn h, fun n rate fee hn h => (feeFor_rounding hn h).symm, ?_⟩
  intro D env w hr marketId maker taker n q h
  obtain ⟨-, makerRate, takerRate, hmaker, htaker, htakerFee, hmakerFee⟩ :=
    quote_previewed (reachable_valid hr).feeRouter h
  exact ⟨makerRate, takerRate, hmaker, htaker, htakerFee.symm, hmakerFee.symm⟩

/-- Bob's short of ten flips long by six at a price no unit divides, a rebate of 0.01% of 333, and the fees quoted for a
fill of Alice and Bob. -/
theorem arithmetic_previewed_funding :
    (∃ w' realized increased,
      Engine.trade Sample.deployment (Sample.outcome Sample.trading) Sample.bob 1 (Sample.market 1000 500 100)
        (16 * 10 ^ 18) (99 * 10 ^ 18 + 1) (1584 * 10 ^ 18 + 16) false true = .ok (w', increased, realized) ∧
      applyFill ⟨-10 * 10 ^ 18, -1000 * 10 ^ 18⟩ (16 * 10 ^ 18) (99 * 10 ^ 18 + 1) =
        { size := (w'.engine.positions (Sample.bob, 1)).size
          openNotional := (w'.engine.positions (Sample.bob, 1)).openNotional
          realized := realized
          increased := increased }) ∧
    feeFor 333 (-10000) = -3 ∧
    ∃ q makerRate takerRate,
      FeeRouter.quote (Sample.outcome Sample.trading).feeRouter 1 Sample.alice Sample.bob (10 ^ 18 + 1) = .ok q ∧
      feeFor (10 ^ 18 + 1) takerRate = q.takerFee ∧
      feeFor (10 ^ 18 + 1) (FeeRouter.effectiveMakerRate (Sample.outcome Sample.trading).feeRouter makerRate takerRate) =
        q.makerFee := by
  obtain ⟨htrade, hfee, hquote⟩ := arithmetic_previewed
  refine ⟨?_, hfee 333 (-10000) (-3) (by decide) (by decide), ?_⟩
  · obtain ⟨⟨w', increased, realized⟩, h⟩ := ok_of_isOk (x := Engine.trade Sample.deployment
      (Sample.outcome Sample.trading) Sample.bob 1 (Sample.market 1000 500 100) (16 * 10 ^ 18) (99 * 10 ^ 18 + 1)
      (1584 * 10 ^ 18 + 16) false true) (by decide +kernel)
    refine ⟨w', realized, increased, h, ?_⟩
    have hstored : (Sample.outcome Sample.trading).engine.positions (Sample.bob, 1) =
        ⟨-10 * 10 ^ 18, -1000 * 10 ^ 18, 0⟩ := by decide +kernel
    have hpreview := htrade _ _ _ _ _ _ _ _ _ _ _ _ _ (by decide) (by decide) h
    rw [hstored] at hpreview
    exact hpreview
  · obtain ⟨q, hq⟩ := ok_of_isOk (x := FeeRouter.quote (Sample.outcome Sample.trading).feeRouter 1 Sample.alice
      Sample.bob (10 ^ 18 + 1)) (by decide +kernel)
    obtain ⟨makerRate, takerRate, -, -, htaker, hmaker⟩ :=
      hquote _ Sample.env _ (Sample.outcome_reachable Sample.trading) 1 Sample.alice Sample.bob _ q hq
    exact ⟨q, makerRate, takerRate, hq, htaker, hmaker⟩

end Kryon.Preview
