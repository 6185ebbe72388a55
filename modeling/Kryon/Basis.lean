import Kryon.Effects
/-!
# Basis — a position's cost basis has the sign of its side

A long's stored basis is what it was bought for and is not negative; a short's is what it was sold for, negated.  A trade
adds the value of what it opens and removes the part of the basis it closes, and a flip's residual keeps the rest of the
one notional the fill was given, which is never less than what the closing part took.
-/
namespace Kryon

open Program
open Function (update)

namespace Engine

/-! ## What a trade realizes -/

/-- The basis that leaves with `q` of a position. -/
def removedBasis (p : Position) (q : Int) : Int :=
  if q = |p.size| then p.openNotional else (p.openNotional * q).tdiv |p.size|

/-- The notional of the part of a trade that closes. -/
def closedNotional (p : Position) (delta price notional : Int) : Int :=
  if |delta| ≤ |p.size| then notional else (|p.size| * price).tdiv PRECISION

/-- What a trade realizes. -/
def realizedOf (p : Position) (delta price notional : Int) : Int :=
  if p.size = 0 ∨ decide (p.size > 0) = decide (delta > 0) then 0
  else signedValue p.size (closedNotional p delta price notional) - removedBasis p (Min.min |p.size| |delta|)

theorem reduce_realized {w : World} {marketId : MarketId} {m : MarketParams} {p : Position} {delta price notional : Int}
    {reduceOnly enforceLimits : Bool} {leg : Leg}
    (h : reduce w marketId m p delta price notional reduceOnly enforceLimits = .ok leg) :
    leg.realized = signedValue p.size (closedNotional p delta price notional) -
      removedBasis p (Min.min |p.size| |delta|) := by
  simp only [reduce, bind_ok_iff, M.abs_eq, M.min_eq] at h
  obtain ⟨closeNotional, hnotional, removed, hremoved, w₁, -, h⟩ := h
  have hclosed : closeNotional = closedNotional p delta price notional := by
    unfold closedNotional
    by_cases hle : |delta| ≤ |p.size|
    · rw [min_eq_right hle, if_pos (sub_self _), pure_ok] at hnotional
      rw [if_pos hle, hnotional]
    · have hlt := not_le.1 hle
      rw [min_eq_left hlt.le, if_neg (by omega), M.mulPrecision_ok] at hnotional
      rw [if_neg hle, hnotional.2]
  have hbasis : removed = removedBasis p (Min.min |p.size| |delta|) := by
    unfold removedBasis
    split at hremoved
    · rename_i hall
      rw [if_pos hall]
      exact ((pure_ok _ _).1 hremoved).symm
    · rename_i hpart
      rw [if_neg hpart]
      exact ((M.mulDiv_ok _ _ _ _).1 hremoved).2.symm
  rw [← hclosed, ← hbasis]
  split at h
  · simp only [bind_ok_iff, pure_ok] at h
    obtain ⟨_, -, ⟨w₂, p₂, added⟩, -, rfl⟩ := h
    rfl
  · rw [pure_ok] at h
    subst h
    rfl

/-- **What a trade realizes is a function of the position it trades.** -/
theorem trade_realized {D : Deployment} {w w' : World} {trader : Address} {marketId : MarketId} {m : MarketParams}
    {delta price notional : Int} {reduceOnly enforceLimits increased : Bool} {realized : Int}
    (h : trade D w trader marketId m delta price notional reduceOnly enforceLimits = .ok (w', increased, realized)) :
    realized = realizedOf (w.engine.positions (trader, marketId)) delta price notional := by
  simp only [trade, bind_ok_iff, pure_ok, Prod.mk.injEq] at h
  obtain ⟨⟨w₁, p₁⟩, hfund, leg, hleg, basis, -, w₂, -, w₃, -, _, -, -, -, rfl⟩ := h
  obtain ⟨payment, -, rfl, -⟩ := settleFunding_ok hfund
  unfold realizedOf
  simp only [settledPosition_size] at hleg
  split at hleg
  · rename_i hside
    rw [if_pos hside]
    simp only [increase, bind_ok_iff, pure_ok] at hleg
    obtain ⟨_, -, _, -, ⟨_, _, _⟩, -, rfl⟩ := hleg
    rfl
  · rename_i hside
    rw [if_neg hside, reduce_realized hleg]
    simp only [removedBasis, closedNotional, settledPosition_size, settledPosition_openNotional]

/-! ## What a trade pays -/

/-- The funding a position pays the pool when it is settled: what it owes rounds up, what it is owed down. -/
def paymentOf (f : FundingState) (p : Position) : Int :=
  if 0 < fundingOwed f p then (fundingOwed f p - 1).tdiv PRECISION + 1 else (fundingOwed f p).tdiv PRECISION

theorem settleFunding_pays {D : Deployment} {w w' : World} {trader : Address} {marketId : MarketId} {p p' : Position}
    (h : settleFunding D w trader marketId p = .ok (w', p')) :
    w' = w.withBalances (Book.transfer w.vault.balances trader D.engine (paymentOf (w.engine.funding marketId) p)) := by
  have hnone : fundingOwed (w.engine.funding marketId) p = 0 →
      w.withBalances (Book.transfer w.vault.balances trader D.engine (paymentOf (w.engine.funding marketId) p)) = w := by
    intro h0
    rw [paymentOf, h0, if_neg (lt_irrefl 0), Int.zero_tdiv, Book.transfer_zero]
    rfl
  unfold settleFunding at h
  split at h
  · rename_i hflat
    simp only [pure_ok, Prod.mk.injEq] at h
    rw [hnone (by rw [fundingOwed, hflat, abs_zero, zero_mul])]
    exact h.1.symm
  · rename_i hopen
    simp only [M.sub_ok, bind_ok_iff] at h
    obtain ⟨d, ⟨-, hd⟩, h⟩ := h
    have howed : fundingOwed (w.engine.funding marketId) p = |p.size| * d := by rw [fundingOwed, hd]
    have hsize : 0 < |p.size| := abs_pos.2 hopen
    split at h
    · rename_i hzero
      simp only [pure_ok, Prod.mk.injEq] at h
      rw [hnone (by rw [howed, hzero, mul_zero])]
      exact h.1.symm
    · split at h
      · simp only [bind_ok_iff, pure_ok, Prod.mk.injEq, M.abs_eq, M.mulPrecisionUp_ok] at h
        obtain ⟨_, ⟨⟨-, -, hpos, -⟩, rfl⟩, _, htransfer, rfl, -⟩ := h
        rw [paymentOf, howed, if_pos hpos]
        exact (Vault.transferInternal_ok htransfer).2
      · rename_i hne hneg
        simp only [bind_ok_iff, pure_ok, Prod.mk.injEq, M.abs_eq, M.mulPrecision_ok] at h
        obtain ⟨received, ⟨-, rfl⟩, _, htransfer, rfl, -⟩ := h
        have howed_neg : ¬ 0 < |p.size| * d := not_lt.2 (mul_nonpos_of_nonneg_of_nonpos hsize.le (by omega))
        rw [paymentOf, howed, if_neg howed_neg, ← Book.transfer_neg, ← Int.neg_tdiv, ← mul_neg]
        exact (Vault.transferInternal_ok htransfer).2

/-- **What a trade books in the vault**: the funding to the pool, and then what it realizes. -/
theorem trade_balances {D : Deployment} {w w' : World} {trader : Address} {marketId : MarketId} {m : MarketParams}
    {delta price notional : Int} {reduceOnly enforceLimits increased : Bool} {realized : Int} (hd : delta ≠ 0)
    (h : trade D w trader marketId m delta price notional reduceOnly enforceLimits = .ok (w', increased, realized)) :
    w'.vault.balances = Book.post (Book.transfer w.vault.balances trader D.engine
      (paymentOf (w.engine.funding marketId) (w.engine.positions (trader, marketId)))) trader realized := by
  simp only [trade, bind_ok_iff, pure_ok, Prod.mk.injEq] at h
  obtain ⟨⟨w₁, p₁⟩, hfund, leg, hleg, basis, -, w₂, hstore, w₃, hpnl, _, -, rfl, -, rfl⟩ := h
  obtain ⟨-, -, rfl, -⟩ := settleFunding_ok hfund
  obtain rfl := settleFunding_pays hfund
  set payment := paymentOf (w.engine.funding marketId) (w.engine.positions (trader, marketId))
  have hb : LegBooked (w.withBalances (Book.transfer w.vault.balances trader D.engine payment)) trader marketId
      (settledPosition (w.engine.funding marketId) (w.engine.positions (trader, marketId))) delta notional leg :=
    (leg_ok hd hleg).1
  have hstored : w₂.vault.balances = Book.transfer w.vault.balances trader D.engine payment := by
    rw [storePosition_ok hstore, hb.world]
    rfl
  rw [realizedPnl_ok hpnl]
  simp only [Vault.posted, hstored]

/-! ## Sided positions -/

/-- The basis has the sign of the side. -/
structure Sided (p : Position) : Prop where
  long : 0 < p.size → 0 ≤ p.openNotional
  short : p.size < 0 → p.openNotional ≤ 0
  flat : p.size = 0 → p.openNotional = 0

theorem sided_empty : Sided Position.empty := ⟨fun h => absurd h (by decide), fun h => absurd h (by decide), fun _ => rfl⟩

theorem part_le {b q n : Int} (hb : 0 ≤ b) (hq : 0 ≤ q) (hqn : q ≤ n) : (b * q).tdiv n ≤ b := by
  rcases (hq.trans hqn).eq_or_lt with h0 | hn
  · rw [← h0, Int.tdiv_zero]
    exact hb
  · rw [Int.tdiv_eq_ediv_of_nonneg (mul_nonneg hb hq)]
    exact Int.ediv_le_of_le_mul hn (mul_le_mul_of_nonneg_left hqn hb)

section
variable {p : Position} {delta price notional : Int} (hs : Sided p) (hprice : 0 ≤ price)
  (hn : notional = (|delta| * price).tdiv PRECISION)
include hs hprice hn

/-- **The basis a trade leaves has the sign of the side it leaves.** -/
theorem realized_sided (hopen : p.size + delta ≠ 0) (last : Int) :
    Sided ⟨p.size + delta, p.openNotional + (realizedOf p delta price notional + signedValue delta notional), last⟩ := by
  have hnonneg : 0 ≤ notional := by
    rw [hn]
    exact Int.tdiv_nonneg (mul_nonneg (abs_nonneg _) hprice) (by decide)
  unfold realizedOf
  split
  · rename_i hside
    -- The trade opens or grows the position.
    rw [zero_add]
    by_cases hd : delta > 0
    · rw [signedValue, if_pos hd]
      have hsize : 0 ≤ p.size := by
        rcases hside with h0 | hside
        · exact h0.symm.le
        · exact (((decide_eq_decide.1 hside).2 hd).le)
      have hbasis : 0 ≤ p.openNotional := by
        rcases hsize.eq_or_lt with h0 | hpos
        · exact (hs.flat h0.symm).symm.le
        · exact hs.long hpos
      exact ⟨fun _ => add_nonneg hbasis hnonneg, fun h => absurd h (by simp only; omega),
        fun h => absurd h (by simp only; omega)⟩
    · rw [signedValue, if_neg hd]
      have hsize : p.size ≤ 0 := by
        rcases hside with h0 | hside
        · exact h0.le
        · exact not_lt.1 fun hpos => hd ((decide_eq_decide.1 hside).1 hpos)
      have hbasis : p.openNotional ≤ 0 := by
        rcases hsize.eq_or_lt with h0 | hneg
        · exact (hs.flat h0).le
        · exact hs.short hneg
      exact ⟨fun h => absurd h (by simp only; omega), fun _ => by simp only; omega, fun h => absurd h hopen⟩
  · rename_i hside
    rw [not_or, decide_eq_decide] at hside
    have hopp : (0 < p.size ∧ delta ≤ 0) ∨ (p.size < 0 ∧ 0 < delta) := by omega
    by_cases hle : |delta| ≤ |p.size|
    · -- The trade reduces the position: its basis shrinks in proportion.
      have hpart : |delta| ≠ |p.size| := by
        intro h
        rcases hopp with ⟨hp, hd⟩ | ⟨hp, hd⟩
        · rw [abs_of_nonpos hd, abs_of_pos hp] at h
          omega
        · rw [abs_of_pos hd, abs_of_neg hp] at h
          omega
      rw [closedNotional, if_pos hle, min_eq_right hle, removedBasis, if_neg hpart]
      rcases hopp with ⟨hp, hd⟩ | ⟨hp, hd⟩
      · have hrest := part_le (hs.long hp) (abs_nonneg delta) hle
        rw [signedValue, if_pos hp, signedValue, if_neg (by omega)]
        rw [abs_of_nonpos hd, abs_of_pos hp] at hle
        exact ⟨fun _ => by simp only; omega, fun h => absurd h (by simp only; omega), fun h => absurd h hopen⟩
      · have hrest := part_le (b := -p.openNotional) (by have := hs.short hp; omega) (abs_nonneg delta) hle
        rw [neg_mul, Int.neg_tdiv] at hrest
        rw [signedValue, if_neg (by omega), signedValue, if_pos hd]
        rw [abs_of_pos hd, abs_of_neg hp] at hle
        exact ⟨fun h => absurd h (by simp only; omega), fun _ => by simp only; omega, fun h => absurd h hopen⟩
    · -- The trade flips the position: the residual has the rest of the notional.
      have hlt := not_le.1 hle
      have hclosed : (|p.size| * price).tdiv PRECISION ≤ notional := by
        rw [hn, Int.tdiv_eq_ediv_of_nonneg (mul_nonneg (abs_nonneg _) hprice),
          Int.tdiv_eq_ediv_of_nonneg (mul_nonneg (abs_nonneg _) hprice)]
        exact Int.ediv_le_ediv (by decide) (mul_le_mul_of_nonneg_right hlt.le hprice)
      rw [closedNotional, if_neg hle, min_eq_left hlt.le, removedBasis, if_pos rfl]
      rcases hopp with ⟨hp, hd⟩ | ⟨hp, hd⟩
      · rw [signedValue, if_pos hp, signedValue, if_neg (by omega)]
        rw [abs_of_nonpos hd, abs_of_pos hp] at hlt
        exact ⟨fun h => absurd h (by simp only; omega), fun _ => by simp only; omega, fun h => absurd h hopen⟩
      · rw [signedValue, if_neg (by omega), signedValue, if_pos hd]
        rw [abs_of_pos hd, abs_of_neg hp] at hlt
        exact ⟨fun _ => by simp only; omega, fun h => absurd h (by simp only; omega), fun h => absurd h hopen⟩

end

/-- Every stored position's basis has the sign of its side. -/
def SidedBook (e : EngineStorage) : Prop := ∀ k, Sided (e.positions k)

/-- **A trade at the index value of its size keeps every basis on its side.** -/
theorem trade_sided {D : Deployment} {w w' : World} {trader : Address} {marketId : MarketId} {m : MarketParams}
    {delta price notional : Int} {reduceOnly enforceLimits increased : Bool} {realized : Int} (hs : SidedBook w.engine)
    (hd : delta ≠ 0) (hprice : 0 ≤ price) (hn : notional = (|delta| * price).tdiv PRECISION)
    (h : trade D w trader marketId m delta price notional reduceOnly enforceLimits = .ok (w', increased, realized)) :
    SidedBook w'.engine := by
  have hrealized := trade_realized h
  obtain ⟨x, -, rfl, hreal, -⟩ := trade_ok hd h
  have hbasis : x.basisChange =
      realizedOf (w.engine.positions (trader, marketId)) delta price notional + signedValue delta notional := by
    rw [← hrealized, hreal, sub_add_cancel]
  intro k
  show Sided (update w.engine.positions (trader, marketId)
    (nextPosition (w.engine.positions (trader, marketId)) delta x) k)
  by_cases hk : k = (trader, marketId)
  · subst hk
    rw [Function.update_self, nextPosition]
    split
    · exact sided_empty
    · rename_i hopen
      rw [hbasis]
      exact realized_sided (hs _) hprice hn hopen x.last
  · rw [Function.update_of_ne hk]
    exact hs k

variable {D : Deployment} {w w' : World}

theorem applyFill_sided {caller trader : Address} {marketId : MarketId} {isBuy : Bool} {size price notional : Int}
    {reduceOnly increased : Bool} (hs : SidedBook w.engine) (hn : M.mulPrecision size price = .ok notional)
    (h : applyFill D w caller trader marketId isBuy size price notional reduceOnly = .ok (w', increased)) :
    SidedBook w'.engine := by
  simp only [applyFill, bind_ok_iff, revertIf_ok, World.whenNotPaused_ok, pure_ok, Prod.mk.injEq, exists_const] at h
  obtain ⟨-, -, hpos, m, -, index, -, maxDelta, -, lo, -, -, hi, -, -, w₁, hmark, ⟨w₂, inc, r⟩, htrade, rfl, rfl⟩ := h
  obtain ⟨t, st, rfl⟩ := recordMark_ok hmark
  have habs : |if isBuy then size else -size| = size := by
    cases isBuy with
    | true =>
      rw [if_pos rfl]
      exact abs_of_pos (by omega)
    | false =>
      rw [if_neg Bool.false_ne_true, abs_neg]
      exact abs_of_pos (by omega)
  refine trade_sided (w := marked w marketId t st) hs ?_ (by omega) ?_ htrade
  · intro h0
    rw [h0, abs_zero] at habs
    omega
  · rw [habs]
    exact ((M.mulPrecision_ok _ _ _).1 hn).2.symm

/-- A transfer trades one size on both sides, at its own value. -/
theorem transfer_sided {trader receiver : Address} {marketId : MarketId} {m m' : MarketParams} {w₁ w₂ : World}
    {d d' size price n : Int} {reduceOnly reduceOnly' : Bool} {r r' : Bool × Int} (hs : SidedBook w.engine)
    (hsize : 0 < size) (hprice : 0 < price) (hd : |d| = size) (hd' : |d'| = size)
    (hn : M.mulPrecision size price = .ok n)
    (h : trade D w trader marketId m d price n reduceOnly false = .ok (w₁, r))
    (h' : trade D w₁ receiver marketId m' d' price n reduceOnly' false = .ok (w₂, r')) : SidedBook w₂.engine := by
  have hvalue : n = (size * price).tdiv PRECISION := ((M.mulPrecision_ok _ _ _).1 hn).2.symm
  have hne : ∀ {e : Int}, |e| = size → e ≠ 0 := by
    rintro e he rfl
    rw [abs_zero] at he
    omega
  have hs₁ := trade_sided hs (hne hd) hprice.le (by rw [hd]; exact hvalue) h
  exact trade_sided hs₁ (hne hd') hprice.le (by rw [hd']; exact hvalue) h'

theorem abs_signed {c : Prop} [Decidable c] {size : Int} (hsize : 0 < size) : |if c then -size else size| = size := by
  split
  · rw [abs_neg]
    exact abs_of_pos hsize
  · exact abs_of_pos hsize

theorem liquidationTransfer_sided {caller trader receiver : Address} {marketId : MarketId} {size price realized : Int}
    (hs : SidedBook w.engine)
    (h : liquidationTransfer D w caller trader receiver marketId size price = .ok (w', realized)) :
    SidedBook w'.engine := by
  simp only [liquidationTransfer, bind_ok_iff, revertIf_ok, World.whenNotPaused_ok, pure_ok, Prod.mk.injEq,
    exists_const] at h
  obtain ⟨-, -, -, hsize, m, -, n, hn, ⟨w₁, inc, r⟩, htrade, ⟨w₂, inc₂, r₂⟩, htrade₂, rfl, rfl⟩ := h
  exact transfer_sided hs (by omega) (by omega) (abs_signed (by omega))
    ((abs_neg _).trans (abs_signed (by omega))) hn htrade htrade₂

theorem adlTransfer_sided {caller backstop counterparty : Address} {marketId : MarketId} {size price realized : Int}
    (hs : SidedBook w.engine)
    (h : adlTransfer D w caller backstop counterparty marketId size price = .ok (w', realized)) :
    SidedBook w'.engine := by
  simp only [adlTransfer, bind_ok_iff, revertIf_ok, World.whenNotPaused_ok, pure_ok, Prod.mk.injEq,
    exists_const] at h
  obtain ⟨-, -, -, -, hsize, m, -, n, hn, ⟨w₁, inc, r⟩, htrade, ⟨w₂, inc₂, r₂⟩, htrade₂, rfl, rfl⟩ := h
  exact transfer_sided hs (by omega) (by omega) (abs_signed (by omega)) (abs_signed (by omega)) hn htrade htrade₂

end Engine

/-! ## Every run -/

open Engine (SidedBook)
open OrderGateway (Settled)
open Transition

variable {D : Deployment} {env : Env} {w w' : World} {call : Call} {settled : List Settled}

theorem settleOne_sided {msg : Msg} {wallet : Address → Bytes32 → Bytes → Bool} {f : Fill} {st : OrderGateway.Settlement}
    (hs : SidedBook w.engine) (h : OrderGateway.settleOne D env w msg wallet f = .ok (w', st)) :
    SidedBook w'.engine := by
  obtain ⟨w₁, w₂, w₃, hone⟩ := settleOne_ok h
  have hn := hone.notional
  obtain ⟨orderState, unwound, happly⟩ := settleOne_progress h
  obtain ⟨w₄, _, w₅, _, hmaker, htaker, hcharge⟩ := apply_ok happly
  have hs₄ := Engine.applyFill_sided (w := withProgress w orderState unwound) hs hn hmaker
  have hs₅ := Engine.applyFill_sided hs₄ hn htaker
  rw [(chargeFill_clears hcharge).2.1]
  exact hs₅

theorem liquidate_sided {msg : Msg} {trader : Address} {marketId : MarketId} {maxSize : Nat} (hs : SidedBook w.engine)
    (h : Liquidation.liquidate D w msg trader marketId maxSize = .ok w') : SidedBook w'.engine := by
  obtain ⟨-, -, _, _, _, w₁, _, w₂, _, -, -, htransfer, hpay, -, -, hw⟩ := liquidate_ok h
  have hs₁ := Engine.liquidationTransfer_sided hs htransfer
  have hs₂ : SidedBook w₂.engine := by
    rw [(payPenalty_clears hpay).2.1]
    exact hs₁
  rcases hw with ⟨rfl, -⟩ | rfl
  · rw [(coveredWorld_clears trader).2.1]
    exact hs₂
  · exact hs₂

theorem adl_sided {counterparty : Address} {marketId : MarketId} {maxSize : Nat} (hs : SidedBook w.engine)
    (h : Liquidation.adl D w counterparty marketId maxSize = .ok w') : SidedBook w'.engine := by
  simp only [Liquidation.adl, bind_ok_iff] at h
  obtain ⟨_, -, _, -, _, -, _, -, _, -, _, -, _, -, _, -, _, -, _, -, _, -, _, -, ⟨w₁, realized⟩, htransfer, h⟩ := h
  have hs₁ := Engine.adlTransfer_sided hs htransfer
  rw [transferIf_ok h]
  exact hs₁

/-- **Every call keeps every basis on its side.** -/
theorem exec_sided (hadm : call.Admissible D w) (hs : SidedBook w.engine)
    (h : exec D env w call = .ok (w', settled)) : SidedBook w'.engine := by
  by_cases htouch : call.tx.touchesEngine = false
  · rw [exec_engine htouch hadm h]
    exact hs
  · obtain ⟨msg, tx⟩ := call
    cases tx with
    | updateFunding marketId =>
      have hupdate := (unsettled_ok.1 h).1
      simp only [Engine.updateFunding, bind_ok_iff, pure_ok] at hupdate
      obtain ⟨_, -, _, -, m, -, ⟨w₁, mark⟩, htwap, _, -, _, -, _, -, _, -, _, -, rfl⟩ := hupdate
      obtain ⟨marks, rfl⟩ := consumeTwap_ok htwap
      exact hs
    | settleFillsSigned fills =>
      simp only [exec, OrderGateway.settleFillsSigned, bind_ok_iff] at h
      obtain ⟨_, -, _, -, _, -, h⟩ := h
      exact (settleFills_batch fills w w' settled h).chain.relates
        (fun w w' => SidedBook w.engine → SidedBook w'.engine) (fun _ => id) (fun _ _ _ h h' => h' ∘ h)
        (fun _ _ _ _ _ hone hs => settleOne_sided hs hone) hs
    | liquidate trader marketId maxSize => exact liquidate_sided hs (unsettled_ok.1 h).1
    | adl counterparty marketId maxSize => exact adl_sided hs (unsettled_ok.1 h).1
    | _ => exact absurd rfl htouch

/-- **In a reachable world every basis has the sign of its side.** -/
theorem reachable_sided (h : Reachable (machine D env) w) : SidedBook w.engine := by
  refine h.invariant (fun w => SidedBook w.engine) (fun w hg k => ?_) ?_
  · simp only [hg.engine]
    exact Engine.sided_empty
  · rintro s l t - hs ⟨hadm, hexec⟩
    exact exec_sided hadm hs hexec

end Kryon
