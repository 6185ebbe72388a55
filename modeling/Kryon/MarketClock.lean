import Kryon.Effects
import Kryon.History
import Kryon.Pauses
import Kryon.Sample
/-!
# MarketClock — a market's mark, its averaging window and its funding clock

Two clocks run in a market: the averaging window of its mark, opened by the first fill and by every funding update, and
the time its funding was last charged.  A fill observes its price (`observed`), a funding update reads the average and
charges (`updated`), and nothing else touches either clock.
-/
namespace Kryon

open Program Transition
open OrderGateway (Settled)

variable {D : Deployment} {env : Env} {w w' : World} {msg : Msg} {l : Label} {m : MarketId}

structure MarketClock where
  mark : MarkState
  lastUpdate : Nat

def clock (m : MarketId) (w : World) : MarketClock := ⟨w.engine.marks m, (w.engine.funding m).lastUpdate⟩

namespace MarketClock

/-- A market trades from its first fill on. -/
def Traded (c : MarketClock) : Prop := 0 < c.mark.lastPrice

/-- A fill's price is recorded; the first one opens the window and starts the funding clock. -/
def observed (now : Nat) (c : MarketClock) (price : Int) : MarketClock :=
  if c.mark.lastPrice ≤ 0 then ⟨⟨price, now, 0, now⟩, if c.lastUpdate = 0 then now else c.lastUpdate⟩
  else ⟨⟨price, now, c.mark.cumulative + c.mark.lastPrice * ((now - c.mark.lastTs : Nat) : Int), c.mark.windowStart⟩,
    c.lastUpdate⟩

/-- A funding update reads the window and opens the next. -/
def updated (now : Nat) (c : MarketClock) : MarketClock :=
  ⟨if c.mark.lastPrice ≤ 0 then c.mark else ⟨c.mark.lastPrice, now, 0, now⟩, now⟩

/-- What holds of a clock at any time: nothing is from the future, and a window was open before the last fill. -/
structure Sound (now : Nat) (c : MarketClock) : Prop where
  lastUpdate_le : c.lastUpdate ≤ now
  cumulative_nonneg : 0 ≤ c.mark.cumulative
  window : c.Traded → 0 < c.mark.windowStart ∧ c.mark.windowStart ≤ c.mark.lastTs ∧ c.mark.lastTs ≤ now ∧
    c.lastUpdate ≤ c.mark.windowStart

variable {now : Nat} {c : MarketClock} {price : Int}

theorem observed_traded (hp : 0 < price) : (observed now c price).Traded := by
  unfold observed Traded
  split <;> exact hp

theorem observed_observed (hp : 0 < price) : observed now (observed now c price) price = observed now c price := by
  have hpos : ¬ (observed now c price).mark.lastPrice ≤ 0 := not_le.2 (observed_traded hp)
  have hlast : (observed now c price).mark.lastPrice = price ∧ (observed now c price).mark.lastTs = now := by
    unfold observed
    split <;> exact ⟨rfl, rfl⟩
  generalize observed now c price = c' at hpos hlast
  obtain ⟨⟨_, _, cumulative, windowStart⟩, lastUpdate⟩ := c'
  obtain ⟨rfl, rfl⟩ := hlast
  unfold observed
  rw [if_neg hpos]
  simp

theorem Sound.observed (h : Sound now c) (hnow : 0 < now) : Sound now (observed now c price) := by
  unfold MarketClock.observed
  split
  · refine ⟨?_, le_refl _, fun _ => ⟨hnow, le_refl _, le_refl _, ?_⟩⟩
    · show (if c.lastUpdate = 0 then now else c.lastUpdate) ≤ now
      split
      · exact le_refl _
      · exact h.lastUpdate_le
    · show (if c.lastUpdate = 0 then now else c.lastUpdate) ≤ now
      split
      · exact le_refl _
      · exact h.lastUpdate_le
  · rename_i hpos
    obtain ⟨h0, h1, h2, h3⟩ := h.window (not_le.1 hpos)
    have hstood : 0 ≤ c.mark.lastPrice * ((now - c.mark.lastTs : Nat) : Int) :=
      mul_nonneg (not_le.1 hpos).le (Int.natCast_nonneg _)
    exact ⟨h.lastUpdate_le, add_nonneg h.cumulative_nonneg hstood, fun _ => ⟨h0, h1.trans h2, le_refl _, h3⟩⟩

theorem Sound.observedAll (h : Sound now c) (hnow : 0 < now) (prices : List Int) :
    Sound now (prices.foldl (MarketClock.observed now) c) := by
  induction prices generalizing c with
  | nil => exact h
  | cons p prices ih => exact ih (h.observed hnow)

theorem Sound.updated (h : Sound now c) (hnow : 0 < now) : Sound now (updated now c) := by
  unfold MarketClock.updated
  by_cases hpos : c.mark.lastPrice ≤ 0
  · rw [if_pos hpos]
    exact ⟨le_refl _, h.cumulative_nonneg, fun ht => absurd ht (not_lt.2 hpos)⟩
  · rw [if_neg hpos]
    exact ⟨le_refl _, le_refl _, fun _ => ⟨hnow, le_refl _, le_refl _, le_refl _⟩⟩

theorem Sound.later (h : Sound now c) {later : Nat} (hle : now ≤ later) : Sound later c :=
  ⟨h.lastUpdate_le.trans hle, h.cumulative_nonneg, fun ht =>
    ⟨(h.window ht).1, (h.window ht).2.1, (h.window ht).2.2.1.trans hle, (h.window ht).2.2.2⟩⟩

end MarketClock

open MarketClock
open Clearing (Terms)

/-! ## Fills -/

theorem accrueMark_ok {st st' : MarkState} {now : Nat} (h : Engine.accrueMark st now = .ok st') (hp : 0 < st.lastPrice) :
    st' = ⟨st.lastPrice, now, st.cumulative + st.lastPrice * ((now - st.lastTs : Nat) : Int), st.windowStart⟩ := by
  unfold Engine.accrueMark at h
  split at h
  · simp only [bind_ok_iff, M.mul_ok, M.add_ok, pure_ok] at h
    obtain ⟨_, ⟨-, rfl⟩, _, ⟨-, rfl⟩, rfl⟩ := h
    rfl
  · rename_i hnot
    rw [pure_ok] at h
    have hzero : now - st.lastTs = 0 := by
      by_contra hne
      exact hnot ⟨by omega, hp⟩
    rw [← h, hzero, Nat.cast_zero, mul_zero, add_zero]

theorem accrueMark_untraded {st st' : MarkState} {now : Nat} (h : Engine.accrueMark st now = .ok st')
    (hp : st.lastPrice ≤ 0) : st' = { st with lastTs := now } := by
  unfold Engine.accrueMark at h
  rw [if_neg fun hc => absurd hc.2 (not_lt.2 hp), pure_ok] at h
  exact h.symm

/-- **Recording a price observes it**, in this market only. -/
theorem recordMark_clock {price : Int} (hp : 0 < price) (hs : Sound w.timestamp (clock m w))
    (h : Engine.recordMark w m price = .ok w') : clock m w' = observed w.timestamp (clock m w) price ∧
      w'.timestamp = w.timestamp ∧ ∀ n, n ≠ m → clock n w' = clock n w := by
  unfold Engine.recordMark at h
  simp only at h
  split at h
  · rename_i hsame
    rw [pure_ok] at h
    subst h
    refine ⟨?_, rfl, fun _ _ => rfl⟩
    have hpos : ¬ (clock m w).mark.lastPrice ≤ 0 := by
      show ¬ (w.engine.marks m).lastPrice ≤ 0
      rw [hsame.1]
      exact not_le.2 hp
    have hprice : (clock m w).mark.lastPrice = price := hsame.1
    have hts : (clock m w).mark.lastTs = w.timestamp := hsame.2
    unfold observed
    rw [if_neg hpos, hts, Nat.sub_self, Nat.cast_zero, mul_zero, add_zero, ← hts, ← hprice]
  · simp only [bind_ok_iff, M.bound128_ok, pure_ok] at h
    obtain ⟨st, hst, _, ⟨-, rfl⟩, rfl⟩ := h
    refine ⟨?_, rfl, fun n hn => ?_⟩
    · by_cases hpos : (w.engine.marks m).lastPrice ≤ 0
      · have hst₀ : st.lastTs = w.timestamp ∧ st.lastPrice ≤ 0 := by
          split at hst
          · rw [accrueMark_untraded hst hpos]
            exact ⟨rfl, hpos⟩
          · rw [accrueMark_untraded hst hpos]
            exact ⟨rfl, hpos⟩
        have hpos' : (clock m w).mark.lastPrice ≤ 0 := hpos
        have hfirst : decide (st.lastPrice ≤ 0) = true := decide_eq_true hst₀.2
        unfold observed
        rw [if_pos hpos', hfirst]
        refine congrArg₂ MarketClock.mk ?_ ?_
        · simp only [Function.update_self, if_true, hst₀.1]
        · by_cases hzero : (clock m w).lastUpdate = 0
          · have hzero' : (w.engine.funding m).lastUpdate = 0 := hzero
            simp only [Function.update_self, hzero', true_and, if_true]
            exact (if_pos hzero).symm
          · have hzero' : ¬ (w.engine.funding m).lastUpdate = 0 := hzero
            simp only [Function.update_self, hzero', and_false, if_false]
            exact (if_neg hzero).symm
      · obtain ⟨h0, h1, -, -⟩ := hs.window (not_le.1 hpos)
        have hne : (w.engine.marks m).lastTs ≠ 0 := Nat.ne_of_gt (lt_of_lt_of_le h0 h1)
        rw [if_neg hne] at hst
        rw [accrueMark_ok hst (not_le.1 hpos)]
        have hpos' : ¬ (clock m w).mark.lastPrice ≤ 0 := hpos
        unfold observed
        rw [if_neg hpos']
        simp only [clock, Function.update_self, hpos, decide_false, Bool.false_eq_true, if_false, false_and]
    · simp only [clock, Function.update_of_ne hn]

theorem booked_clock {trader : Address} {n : MarketId} {delta v : Int} {x : Terms} :
    clock m (Engine.booked D w trader n delta v x) = clock m w := rfl

/-- **One side of a fill observes its price**, in its market only. -/
theorem applyFill_clock {caller trader : Address} {n : MarketId} {isBuy reduceOnly increased : Bool}
    {size price notional : Int} (hs : ∀ m, Sound w.timestamp (clock m w))
    (h : Engine.applyFill D w caller trader n isBuy size price notional reduceOnly = .ok (w', increased)) :
    0 < price ∧ w'.timestamp = w.timestamp ∧
      ∀ m, clock m w' = if n = m then observed w.timestamp (clock m w) price else clock m w := by
  simp only [Engine.applyFill, bind_ok_iff, revertIf_ok, World.whenNotPaused_ok, pure_ok, Prod.mk.injEq,
    exists_const] at h
  obtain ⟨-, -, hpos, p, -, index, -, maxDelta, -, lo, -, -, hi, -, -, w₁, hmark, ⟨w₂, inc, r⟩, htrade, rfl, rfl⟩ := h
  have hprice : 0 < price := by omega
  obtain ⟨hself, htime, hother⟩ := recordMark_clock hprice (hs n) hmark
  have hd : (if isBuy = true then size else -size) ≠ 0 := by
    split <;> omega
  obtain ⟨x, -, rfl, -, -⟩ := Engine.trade_ok hd htrade
  refine ⟨hprice, htime, fun m => ?_⟩
  rw [booked_clock]
  by_cases hm : n = m
  · subst hm
    rw [if_pos rfl]
    exact hself
  · rw [if_neg hm]
    exact hother m (Ne.symm hm)

/-- The prices at which fills traded a market, in order. -/
def tradedPrices (m : MarketId) (settled : List Settled) : List Int :=
  (settled.filter fun x => decide (x.settlement.fill.maker.marketId = m)).map fun x => (x.settlement.fill.price : Int)

/-- The clocks of every market. -/
def SoundClocks (w : World) : Prop := ∀ m, Sound w.timestamp (clock m w)

/-- **A fill observes its price once**: the taker's side observes what the maker's side did. -/
theorem apply_clock {f : Fill} {notional : Int} {q : FeeRouter.Quote} (hnow : 0 < w.timestamp) (hs : SoundClocks w)
    (hmarket : f.maker.marketId = f.taker.marketId) (h : OrderGateway.apply D w f notional = .ok (w', q)) :
    w'.timestamp = w.timestamp ∧ (0 : Int) < f.price ∧ ∀ m, clock m w' =
      if f.maker.marketId = m then observed w.timestamp (clock m w) f.price else clock m w := by
  obtain ⟨w₁, mi, w₂, ti, hmaker, htaker, hcharge⟩ := apply_ok h
  obtain ⟨hprice, htime₁, hclock₁⟩ := applyFill_clock hs hmaker
  have hs₁ : SoundClocks w₁ := by
    intro m
    rw [hclock₁ m, htime₁]
    split
    · exact (hs m).observed hnow
    · exact hs m
  obtain ⟨-, htime₂, hclock₂⟩ := applyFill_clock hs₁ htaker
  obtain ⟨hframe, hengine, -⟩ := chargeFill_clears hcharge
  refine ⟨(hframe.timestamp.trans htime₂).trans htime₁, hprice, fun m => ?_⟩
  have hcharged : clock m w' = clock m w₂ := by simp only [clock, hengine]
  rw [hcharged, hclock₂ m, hclock₁ m, ← hmarket, htime₁]
  by_cases hm : f.maker.marketId = m
  · simp only [if_pos hm]
    exact observed_observed hprice
  · simp only [if_neg hm]

theorem settleOne_clock {wallet : Address → Bytes32 → Bytes → Bool} {f : Fill} {st : OrderGateway.Settlement}
    (hnow : 0 < w.timestamp) (hs : SoundClocks w) (h : OrderGateway.settleOne D env w msg wallet f = .ok (w', st)) :
    w'.timestamp = w.timestamp ∧ (0 : Int) < f.price ∧ ∀ m, clock m w' =
      if f.maker.marketId = m then observed w.timestamp (clock m w) f.price else clock m w := by
  obtain ⟨w₁, w₂, w₃, hone⟩ := settleOne_ok h
  obtain ⟨orderState, unwound, happly⟩ := settleOne_progress h
  have hs₁ : SoundClocks (withProgress w orderState unwound) := hs
  exact apply_clock (w := withProgress w orderState unwound) hnow hs₁ hone.market happly

theorem tradedPrices_cons {x : Settled} {settled : List Settled} :
    tradedPrices m (x :: settled) = if x.settlement.fill.maker.marketId = m then
      (x.settlement.fill.price : Int) :: tradedPrices m settled else tradedPrices m settled := by
  unfold tradedPrices
  by_cases hm : x.settlement.fill.maker.marketId = m
  · simp only [List.filter_cons, hm, decide_true, if_true, List.map_cons]
  · simp only [List.filter_cons, hm, decide_false, Bool.false_eq_true, if_false]

/-- **A batch observes the prices of its fills.** -/
theorem chain_clock {settled : List Settled} (h : Chain D env msg w settled w') (hnow : 0 < w.timestamp)
    (hs : SoundClocks w) : w'.timestamp = w.timestamp ∧ (∀ p ∈ tradedPrices m settled, 0 < p) ∧
      clock m w' = (tradedPrices m settled).foldl (observed w.timestamp) (clock m w) := by
  induction h with
  | nil w => exact ⟨rfl, fun _ hp => absurd hp List.not_mem_nil, rfl⟩
  | @cons x settled w' wallet hone _ ih =>
    obtain ⟨htime, hprice, hclock⟩ := settleOne_clock hnow hs hone
    have hs₁ : SoundClocks x.after := by
      intro n
      rw [hclock n, htime]
      split
      · exact (hs n).observed hnow
      · exact hs n
    obtain ⟨htime', hprices, hrest⟩ := ih (htime ▸ hnow) hs₁
    refine ⟨htime'.trans htime, ?_, ?_⟩
    · intro p hp
      rw [tradedPrices_cons] at hp
      split at hp
      · rcases List.mem_cons.1 hp with rfl | hp
        · exact hprice
        · exact hprices p hp
      · exact hprices p hp
    · rw [hrest, hclock m, htime, tradedPrices_cons]
      by_cases hm : x.settlement.fill.maker.marketId = m
      · rw [if_pos hm, if_pos hm, List.foldl_cons]
      · rw [if_neg hm, if_neg hm]

/-! ## Funding updates -/

theorem consumeTwap_mark {n : MarketId} {twap : Int} (h : Engine.consumeTwap w n = .ok (w', twap)) :
    w' = { w with engine := { w.engine with
      marks := Function.update w.engine.marks n (updated w.timestamp (clock n w)).mark } } := by
  unfold Engine.consumeTwap at h
  simp only at h
  split at h
  · rename_i hpos
    have hpos' : (clock n w).mark.lastPrice ≤ 0 := hpos
    simp only [pure_ok, Prod.mk.injEq] at h
    obtain ⟨rfl, -⟩ := h
    unfold updated
    rw [if_pos hpos']
    simp [clock]
  · rename_i hpos
    have hpos' : ¬ (clock n w).mark.lastPrice ≤ 0 := hpos
    simp only [bind_ok_iff, pure_ok, Prod.mk.injEq] at h
    obtain ⟨st, hst, _, -, rfl, -⟩ := h
    unfold updated
    rw [if_neg hpos', accrueMark_ok hst (not_le.1 hpos)]
    rfl

theorem updateFromPremium_lastUpdate {cfg : FundingConfig} {state next : FundingState} {premium : Int} {now : Nat}
    (h : FundingLib.updateFromPremium cfg state premium now = .ok next) (hle : state.lastUpdate ≤ now) :
    next.lastUpdate = now := by
  simp only [FundingLib.updateFromPremium, bind_ok_iff, revertIf_ok, exists_const] at h
  obtain ⟨-, h⟩ := h
  split at h
  · rename_i hnow
    rw [pure_ok] at h
    rw [← h]
    exact le_antisymm hle hnow
  · simp only [bind_ok_iff, pure_ok] at h
    obtain ⟨_, -, _, -, _, -, _, -, rfl⟩ := h
    rfl

/-- **A funding update reads the window and restarts both clocks**, in its market only. -/
theorem updateFunding_clock {n : MarketId} (hs : SoundClocks w) (h : Engine.updateFunding w msg n = .ok w') :
    w'.timestamp = w.timestamp ∧
      ∀ m, clock m w' = if n = m then updated w.timestamp (clock m w) else clock m w := by
  simp only [Engine.updateFunding, bind_ok_iff, World.onlyRole_ok, World.whenNotPaused_ok, M.bound128_ok, pure_ok,
    exists_const] at h
  obtain ⟨-, -, p, -, ⟨w₁, mark⟩, htwap, premium, -, next, hnext, _, ⟨-, rfl⟩, _, ⟨-, rfl⟩, _, ⟨-, rfl⟩, rfl⟩ := h
  obtain rfl := consumeTwap_mark htwap
  have hlast : next.lastUpdate = w.timestamp := by
    refine updateFromPremium_lastUpdate hnext ?_
    split
    · exact le_refl _
    · exact (hs n).lastUpdate_le
  refine ⟨rfl, fun m => ?_⟩
  by_cases hm : n = m
  · subst hm
    rw [if_pos rfl]
    simp only [clock, Function.update_self, hlast]
    rfl
  · rw [if_neg hm]
    simp only [clock, Function.update_of_ne (Ne.symm hm)]

/-! ## Steps -/

/-- Neither clock of any market moves. -/
def SameClocks (w w' : World) : Prop := ∀ m, clock m w' = clock m w

theorem SameClocks.trans {w₁ w₂ w₃ : World} (h : SameClocks w₁ w₂) (h' : SameClocks w₂ w₃) : SameClocks w₁ w₃ :=
  fun m => (h' m).trans (h m)

theorem sameClocks_of_engine (h : w'.engine = w.engine) : SameClocks w w' := fun m => by simp only [clock, h]

theorem liquidate_clocks {trader : Address} {n : MarketId} {maxSize : Nat}
    (h : Liquidation.liquidate D w msg trader n maxSize = .ok w') : SameClocks w w' := by
  obtain ⟨-, -, closeSize, before, price, w₁, realized, w₂, after, -, -, htransfer, hpay, -, -, hw⟩ := liquidate_ok h
  obtain ⟨delta, v, w₀, x, y, -, -, -, -, rfl, -, rfl, -⟩ := Engine.liquidationTransfer_ok htransfer
  have hpaid : w₂.engine = _ := (payPenalty_clears hpay).2.1
  have hsame : SameClocks w w₂ := fun m => by
    simp only [clock, hpaid]
    rfl
  rcases hw with ⟨rfl, -⟩ | rfl
  · exact hsame.trans (sameClocks_of_engine (coveredWorld_clears (D := D) trader).2.1)
  · exact hsame

theorem adl_clocks {counterparty : Address} {n : MarketId} {maxSize : Nat}
    (h : Liquidation.adl D w counterparty n maxSize = .ok w') : SameClocks w w' := by
  simp only [Liquidation.adl, bind_ok_iff, World.whenNotPaused_ok, revertIf_ok, exists_const] at h
  obtain ⟨-, -, -, shortfall, -, -, -, -, price, -, notional, -, -, paying, -, -, ⟨w₁, realized⟩, htransfer, h⟩ := h
  obtain ⟨delta, v, w₀, x, y, -, -, -, rfl, -, -, rfl, -⟩ := Engine.adlTransfer_ok htransfer
  obtain rfl := transferIf_ok h
  exact fun m => rfl

/-- The calls that move a clock. -/
def Tx.ticks : Tx → Bool
  | .updateFunding _ | .settleFillsSigned _ => true
  | _ => false

/-- **Only a funding update and a fill move a clock.** -/
theorem exec_clocks {call : Call} {settled : List Settled} (htx : call.tx.ticks = false) (hadm : call.Admissible D w)
    (h : exec D env w call = .ok (w', settled)) : SameClocks w w' := by
  by_cases htouch : call.tx.touchesEngine = false
  · exact sameClocks_of_engine (exec_engine htouch hadm h)
  · obtain ⟨msg, tx⟩ := call
    cases tx with
    | updateFunding n => exact absurd htx (by simp [Tx.ticks])
    | settleFillsSigned fills => exact absurd htx (by simp [Tx.ticks])
    | liquidate trader marketId maxSize => exact liquidate_clocks (unsettled_ok.1 h).1
    | adl counterparty marketId maxSize => exact adl_clocks (unsettled_ok.1 h).1
    | _ => exact absurd rfl htouch

/-- What a step does to a market's clock. -/
inductive Ticks (m : MarketId) (w : World) (l : Label) (w' : World) : Prop where
  | charged (hl : l.call.tx = .updateFunding m) (hupdate : Engine.updateFunding w l.call.msg m = .ok w')
      (hsettled : l.settled = []) (htime : w'.timestamp = w.timestamp)
      (hclock : clock m w' = updated w.timestamp (clock m w))
  | traded (hl : l.call.tx ≠ .updateFunding m) (htime : w'.timestamp = w.timestamp)
      (hprices : ∀ p ∈ tradedPrices m l.settled, 0 < p)
      (hclock : clock m w' = (tradedPrices m l.settled).foldl (observed w.timestamp) (clock m w))
  | passed (hl : l.call.tx ≠ .updateFunding m) (hsettled : l.settled = []) (htime : w.timestamp ≤ w'.timestamp)
      (hclock : clock m w' = clock m w)

theorem step_ticks (h : (machine D env).step w l w') (hnow : 0 < w.timestamp) (hs : SoundClocks w) (m : MarketId) :
    Ticks m w l w' := by
  by_cases htx : l.call.tx.ticks = false
  · have hclocks := exec_clocks htx h.1 h.2
    have hl : ∀ n, l.call.tx ≠ .updateFunding n := fun n hn => by simp [hn, Tx.ticks] at htx
    have hsettled : l.settled = [] := by
      by_contra hne
      obtain ⟨fills, hfills⟩ : ∃ fills, l.call.tx = .settleFillsSigned fills := by
        have heffect := exec_effect h.1 h.2
        generalize l.call.tx = tx at heffect
        generalize l.settled = settled at heffect hne
        cases heffect with
        | settled _ => exact ⟨_, rfl⟩
        | _ => exact absurd rfl hne
      simp [hfills, Tx.ticks] at htx
    exact .passed (hl m) hsettled (step_timestamp h) (hclocks m)
  · obtain ⟨n, hn⟩ | ⟨fills, hfills⟩ : (∃ n, l.call.tx = .updateFunding n) ∨ ∃ fills, l.call.tx = .settleFillsSigned fills := by
      cases ht : l.call.tx with
      | updateFunding n => exact Or.inl ⟨n, rfl⟩
      | settleFillsSigned fills => exact Or.inr ⟨fills, rfl⟩
      | _ => simp [ht, Tx.ticks] at htx
    · have hexec := h.2
      simp only [exec, hn, unsettled_ok] at hexec
      obtain ⟨htime, hclock⟩ := updateFunding_clock hs hexec.1
      by_cases hm : n = m
      · subst hm
        exact .charged hn hexec.1 hexec.2 htime (by rw [hclock n, if_pos rfl])
      · have hl : l.call.tx ≠ .updateFunding m := by
          rw [hn]
          exact fun he => hm (Tx.updateFunding.inj he)
        exact .passed hl hexec.2 htime.symm.le (by rw [hclock m, if_neg hm])
    · have hl : l.call.tx ≠ .updateFunding m := by simp [hfills]
      have heffect := exec_effect h.1 h.2
      have hchain : Chain D env l.call.msg w l.settled w' := by
        have hexec := h.2
        simp only [exec, hfills, OrderGateway.settleFillsSigned, bind_ok_iff] at hexec
        obtain ⟨_, -, _, -, _, -, hexec⟩ := hexec
        exact (settleFills_batch fills w w' l.settled hexec).chain
      obtain ⟨htime, hprices, hclock⟩ := chain_clock (m := m) hchain hnow hs
      exact .traded hl htime hprices hclock

theorem Ticks.timestamp_le (h : Ticks m w l w') : w.timestamp ≤ w'.timestamp := by
  cases h with
  | charged _ _ _ htime _ => exact htime.symm.le
  | traded _ htime _ _ => exact htime.symm.le
  | passed _ _ htime _ => exact htime

theorem Ticks.sound (h : Ticks m w l w') (hnow : 0 < w.timestamp) (hs : Sound w.timestamp (clock m w)) :
    Sound w'.timestamp (clock m w') := by
  cases h with
  | charged _ _ _ htime hclock =>
    rw [htime, hclock]
    exact hs.updated hnow
  | traded _ htime _ hclock =>
    rw [htime, hclock]
    exact hs.observedAll hnow _
  | passed _ _ htime hclock =>
    rw [hclock]
    exact hs.later htime

theorem genesis_soundClocks (h : Genesis D w) : SoundClocks w := by
  intro m
  have hclock : clock m w = ⟨⟨0, 0, 0, 0⟩, 0⟩ := by simp only [clock, h.engine]
  rw [hclock]
  exact ⟨Nat.zero_le _, le_refl _, fun ht => absurd ht (lt_irrefl 0)⟩

/-- **In a reachable world no clock is from the future.** -/
theorem reachable_soundClocks (h : Reachable (machine D env) w) : SoundClocks w := by
  refine h.invariant SoundClocks (fun _ => genesis_soundClocks) fun s l t hr hs hl m => ?_
  have hnow := reachable_timestamp_pos hr
  exact (step_ticks hl hnow hs m).sound hnow (hs m)

/-- **What a step of a run does to a market's clock.** -/
theorem reachable_ticks (hr : Reachable (machine D env) w) (h : (machine D env).step w l w') (m : MarketId) :
    Ticks m w l w' := step_ticks h (reachable_timestamp_pos hr) (reachable_soundClocks hr) m

end Kryon
