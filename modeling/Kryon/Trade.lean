import Kryon.Engine
import Kryon.Lib.Clearing
/-!
# Trade — what one side of a trade does to the world

`Engine.trade` opens, grows, reduces, closes or flips a position.  Whatever it does, the world it returns is `booked`: one
record of the position table, one bit of the trader's bitmap, one market's open interest and the trader's balance follow
from three numbers, the funding paid to the pool, the change of the cost basis and the next funding reference.
-/
namespace Kryon

open Program
open Function (update)
open Clearing (Terms longPart shortPart)

namespace Engine

/-- The signed value of a trade: what the buyer owes for it. -/
def signedValue (delta notional : Int) : Int := if delta > 0 then notional else -notional

/-- A trader's bitmap once a market it was flat in is added. -/
def openedBitmap (bitmap : Nat) (marketId : MarketId) (oldSize : Int) : Nat :=
  if oldSize = 0 then Bitmap.addMarket bitmap marketId else bitmap

/-- A trader's bitmap after a trade: an opened market's bit is set, a closed one's cleared. -/
def nextBitmap (bitmap : Nat) (marketId : MarketId) (oldSize newSize : Int) : Nat :=
  if newSize = 0 then Bitmap.removeMarket (openedBitmap bitmap marketId oldSize) marketId
  else openedBitmap bitmap marketId oldSize

/-- A market's open interest after one position moves from `oldSize` to `newSize`. -/
def nextOpenInterest (oi : OpenInterest) (oldSize newSize : Int) : OpenInterest :=
  ⟨oi.long + (longPart newSize - longPart oldSize), oi.short + (shortPart newSize - shortPart oldSize)⟩

def nextPosition (p : Position) (delta : Int) (x : Terms) : Position :=
  if p.size + delta = 0 then Position.empty else ⟨p.size + delta, p.openNotional + x.basisChange, x.last⟩

/-- The world after a trade of `delta` at the signed value `v`, booked on the terms `x`. -/
def booked (D : Deployment) (w : World) (trader : Address) (marketId : MarketId) (delta v : Int) (x : Terms) : World :=
  let p := w.engine.positions (trader, marketId)
  { w with
    vault := { w.vault with
      balances := Book.post (Book.transfer w.vault.balances trader D.engine x.payment) trader (x.basisChange - v)
      totalLedger := w.vault.totalLedger + (x.basisChange - v) }
    engine := { w.engine with
      positions := update w.engine.positions (trader, marketId) (nextPosition p delta x)
      marketBitmap := update w.engine.marketBitmap trader
        (nextBitmap (w.engine.marketBitmap trader) marketId p.size (p.size + delta))
      openInterest := update w.engine.openInterest marketId
        (nextOpenInterest (w.engine.openInterest marketId) p.size (p.size + delta))
      netCostBasis := w.engine.netCostBasis + x.basisChange } }

/-- The unsettled funding of a position against a market's indexes, in units of the index. -/
def fundingOwed (f : FundingState) (p : Position) : Int := |p.size| * (sideIndex f p.size - p.lastFundingIndex)

/-- The terms a trade may book on. -/
structure Admits (w : World) (trader : Address) (marketId : MarketId) (delta : Int) (x : Terms) : Prop where
  /-- Funding is settled in the pool's favour. -/
  payment : fundingOwed (w.engine.funding marketId) (w.engine.positions (trader, marketId)) ≤ x.payment * PRECISION
  flat : (w.engine.positions (trader, marketId)).size + delta = 0 →
    (w.engine.positions (trader, marketId)).openNotional + x.basisChange = 0 ∧ x.last = 0
  last : (w.engine.positions (trader, marketId)).size + delta ≠ 0 →
    x.last = sideIndex (w.engine.funding marketId) ((w.engine.positions (trader, marketId)).size + delta)
  market : (w.engine.positions (trader, marketId)).size = 0 → 0 < marketId.toNat ∧ marketId.toNat ≤ 255

/-! ## Funding -/

/-- The position once its funding is settled. -/
def settledPosition (f : FundingState) (p : Position) : Position :=
  if p.size = 0 then p else { p with lastFundingIndex := sideIndex f p.size }

theorem settledPosition_size (f : FundingState) (p : Position) : (settledPosition f p).size = p.size := by
  unfold settledPosition
  split <;> rfl

theorem settledPosition_openNotional (f : FundingState) (p : Position) :
    (settledPosition f p).openNotional = p.openNotional := by
  unfold settledPosition
  split <;> rfl

theorem settledPosition_last (f : FundingState) {p : Position} (h : p.size ≠ 0) :
    (settledPosition f p).lastFundingIndex = sideIndex f p.size := by
  rw [settledPosition, if_neg h]

/-- **Settling pays the pool at least what the position owes it.** -/
theorem settleFunding_ok {D : Deployment} {w w' : World} {trader : Address} {marketId : MarketId} {p p' : Position}
    (h : settleFunding D w trader marketId p = .ok (w', p')) :
    ∃ payment, w' = w.withBalances (Book.transfer w.vault.balances trader D.engine payment) ∧
      p' = settledPosition (w.engine.funding marketId) p ∧
      fundingOwed (w.engine.funding marketId) p ≤ payment * PRECISION := by
  unfold settleFunding at h
  split at h
  · rename_i hflat
    simp only [pure_ok, Prod.mk.injEq] at h
    obtain ⟨rfl, rfl⟩ := h
    refine ⟨0, by rw [Book.transfer_zero]; rfl, by rw [settledPosition, if_pos hflat], ?_⟩
    simp [fundingOwed, hflat]
  · rename_i hopen
    simp only [M.sub_ok, bind_ok_iff] at h
    obtain ⟨d, ⟨-, hd⟩, h⟩ := h
    have hsettled : settledPosition (w.engine.funding marketId) p =
        { p with lastFundingIndex := sideIndex (w.engine.funding marketId) p.size } := by
      rw [settledPosition, if_neg hopen]
    have howed : fundingOwed (w.engine.funding marketId) p = M.abs p.size * d := by
      rw [fundingOwed, hd, M.abs_eq]
    split at h
    · rename_i hzero
      simp only [pure_ok, Prod.mk.injEq] at h
      obtain ⟨rfl, rfl⟩ := h
      refine ⟨0, by rw [Book.transfer_zero]; rfl, hsettled.symm, ?_⟩
      rw [howed, hzero]
      simp
    · split at h
      · simp only [bind_ok_iff, pure_ok, Prod.mk.injEq] at h
        obtain ⟨paid, hpaid, _, htransfer, rfl, rfl⟩ := h
        refine ⟨paid, (Vault.transferInternal_ok htransfer).2, hsettled.symm, ?_⟩
        rw [howed]
        exact M.le_mulPrecisionUp hpaid
      · rename_i hne hneg
        simp only [bind_ok_iff, pure_ok, Prod.mk.injEq] at h
        obtain ⟨received, hreceived, _, htransfer, rfl, rfl⟩ := h
        refine ⟨-received, ?_, hsettled.symm, ?_⟩
        · rw [Book.transfer_neg]
          exact (Vault.transferInternal_ok htransfer).2
        · have habs : 0 ≤ M.abs p.size := by rw [M.abs_eq]; exact abs_nonneg _
          have hle := M.mulPrecision_le hreceived (mul_nonneg habs (by omega))
          rw [howed]
          linarith [mul_neg (M.abs p.size) d]

/-! ## Opening and reducing -/

def withOpenInterest (w : World) (marketId : MarketId) (oi : OpenInterest) : World :=
  { w with engine := { w.engine with openInterest := update w.engine.openInterest marketId oi } }

def withBitmap (w : World) (trader : Address) (bitmap : Nat) : World :=
  { w with engine := { w.engine with marketBitmap := update w.engine.marketBitmap trader bitmap } }

theorem changeOpenInterest_ok {w w' : World} {marketId : MarketId} {isLong : Bool} {amount : Int}
    (h : changeOpenInterest w marketId isLong amount = .ok w') :
    w' = withOpenInterest w marketId
      (if isLong then { w.engine.openInterest marketId with long := (w.engine.openInterest marketId).long + amount }
        else { w.engine.openInterest marketId with short := (w.engine.openInterest marketId).short + amount }) := by
  unfold changeOpenInterest at h
  cases isLong with
  | true =>
    simp only [if_true, M.add_ok, bind_ok_iff, pure_ok] at h
    obtain ⟨_, ⟨_, ⟨-, rfl⟩, rfl⟩, rfl⟩ := h
    rfl
  | false =>
    simp only [Bool.false_eq_true, if_false, M.add_ok, bind_ok_iff, pure_ok] at h
    obtain ⟨_, ⟨_, ⟨-, rfl⟩, rfl⟩, rfl⟩ := h
    rfl

theorem openSide_ok {w w' : World} {marketId : MarketId} {m : MarketParams} {p p' : Position}
    {delta notional basis : Int} {enforceLimits : Bool}
    (h : openSide w marketId m p delta notional enforceLimits = .ok (w', p', basis)) :
    basis = signedValue delta notional ∧
      p' = ⟨p.size + delta, p.openNotional + basis,
        if p.size = 0 then sideIndex (w.engine.funding marketId) delta else p.lastFundingIndex⟩ ∧
      w' = withOpenInterest w marketId
        (if delta > 0 then
          { w.engine.openInterest marketId with long := (w.engine.openInterest marketId).long + M.abs delta }
        else { w.engine.openInterest marketId with short := (w.engine.openInterest marketId).short + M.abs delta }) := by
  simp only [openSide, bind_ok_iff, revertIf_ok, M.add_ok, pure_ok, Prod.mk.injEq, exists_const] at h
  obtain ⟨-, _, ⟨-, rfl⟩, _, ⟨-, rfl⟩, _, hoi, rfl, rfl, rfl⟩ := h
  refine ⟨rfl, rfl, ?_⟩
  rw [changeOpenInterest_ok hoi]
  by_cases hd : delta > 0 <;> simp [hd]

/-- What a leg has booked when its position is about to be stored, from the position `p` it started on. -/
structure LegBooked (w : World) (trader : Address) (marketId : MarketId) (p : Position) (delta notional : Int)
    (leg : Leg) : Prop where
  size : leg.position.size = p.size + delta
  basis : leg.position.openNotional = p.openNotional + leg.basisChange
  last : p.size + delta ≠ 0 →
    leg.position.lastFundingIndex = sideIndex (w.engine.funding marketId) (p.size + delta)
  flat : p.size + delta = 0 → p.openNotional + leg.basisChange = 0
  realized : leg.realized = leg.basisChange - signedValue delta notional
  market : p.size = 0 → 0 < marketId.toNat ∧ marketId.toNat ≤ 255
  world : leg.world = withOpenInterest (withBitmap w trader (openedBitmap (w.engine.marketBitmap trader) marketId p.size))
    marketId (nextOpenInterest (w.engine.openInterest marketId) p.size (p.size + delta))

theorem addMarket_ok {w w' : World} {trader : Address} {marketId : MarketId} {capped : Bool}
    (h : addMarket w trader marketId capped = .ok w') :
    (0 < marketId.toNat ∧ marketId.toNat ≤ 255) ∧
      w' = withBitmap w trader (Bitmap.addMarket (w.engine.marketBitmap trader) marketId) := by
  simp only [addMarket, bind_ok_iff, revertIf_ok, pure_ok, exists_const] at h
  obtain ⟨hm, -, rfl⟩ := h
  exact ⟨by omega, rfl⟩

theorem increase_ok {w : World} {trader : Address} {marketId : MarketId} {m : MarketParams} {p : Position}
    {delta notional : Int} {reduceOnly enforceLimits : Bool} {leg : Leg} (hd : delta ≠ 0)
    (hside : p.size = 0 ∨ decide (p.size > 0) = decide (delta > 0))
    (hlast : p.size ≠ 0 → p.lastFundingIndex = sideIndex (w.engine.funding marketId) p.size)
    (h : increase w trader marketId m p delta notional reduceOnly enforceLimits = .ok leg) :
    LegBooked w trader marketId p delta notional leg ∧ reduceOnly = false ∧ leg.increased = true := by
  simp only [increase, bind_ok_iff, revertIf_ok, pure_ok, exists_const, Bool.not_eq_true] at h
  obtain ⟨hro, w₁, hadd, ⟨w₂, p₂, basis⟩, hopen, rfl⟩ := h
  obtain ⟨rfl, rfl, rfl⟩ := openSide_ok hopen
  have hw₁ : (p.size = 0 → 0 < marketId.toNat ∧ marketId.toNat ≤ 255) ∧
      w₁ = withBitmap w trader (openedBitmap (w.engine.marketBitmap trader) marketId p.size) := by
    split at hadd
    · rename_i h0
      obtain ⟨hm, rfl⟩ := addMarket_ok hadd
      exact ⟨fun _ => hm, by rw [openedBitmap, if_pos h0]⟩
    · rename_i h0
      rw [pure_ok] at hadd
      exact ⟨fun h => absurd h h0, by rw [openedBitmap, if_neg h0, withBitmap, Function.update_eq_self]; exact hadd.symm⟩
  obtain ⟨hm, rfl⟩ := hw₁
  have hside' : (p.size > 0 ↔ delta > 0) ∨ p.size = 0 := by
    rcases hside with h0 | hs
    · exact Or.inr h0
    · exact Or.inl (decide_eq_decide.1 hs)
  have hnz : p.size + delta ≠ 0 := by rcases hside' with hs | hs <;> omega
  refine ⟨⟨rfl, rfl, fun _ => ?_, fun h0 => absurd h0 hnz, by simp, hm, ?_⟩, hro, rfl⟩
  · by_cases h0 : p.size = 0
    · simp [h0, withBitmap]
    · simp only [h0, if_false, hlast h0, sideIndex]
      by_cases hp : p.size > 0
      · rw [if_pos hp, if_pos (by omega)]
      · rw [if_neg hp, if_neg (by omega)]
  · have hoi : (if delta > 0 then
          { w.engine.openInterest marketId with long := (w.engine.openInterest marketId).long + M.abs delta }
        else { w.engine.openInterest marketId with short := (w.engine.openInterest marketId).short + M.abs delta }) =
        nextOpenInterest (w.engine.openInterest marketId) p.size (p.size + delta) := by
      rw [M.abs_eq]
      by_cases hp : delta > 0
      · rw [if_pos hp, nextOpenInterest, abs_of_pos hp]
        simp only [longPart, shortPart, OpenInterest.mk.injEq]
        constructor <;> omega
      · rw [if_neg hp, nextOpenInterest, abs_of_nonpos (by omega)]
        simp only [longPart, shortPart, OpenInterest.mk.injEq]
        constructor <;> omega
    exact congrArg (withOpenInterest (withBitmap w trader _) marketId) hoi

theorem withOpenInterest_withOpenInterest (w : World) (marketId : MarketId) (a b : OpenInterest) :
    withOpenInterest (withOpenInterest w marketId a) marketId b = withOpenInterest w marketId b := by
  simp [withOpenInterest]

section
variable {oi : OpenInterest} {s d : Int} (hopp : (s > 0 ∧ d < 0) ∨ (s < 0 ∧ d > 0))
include hopp

theorem nextOpenInterest_reduce (hle : |d| ≤ |s|) :
    (if decide (s > 0) = true then { oi with long := oi.long + -|d| } else { oi with short := oi.short + -|d| }) =
      nextOpenInterest oi s (s + d) := by
  simp only [nextOpenInterest, longPart, shortPart]
  rcases hopp with hp | hp
  · rw [abs_of_pos hp.1, abs_of_neg hp.2] at hle
    simp only [hp.1, decide_true, if_true, abs_of_neg hp.2, OpenInterest.mk.injEq]
    omega
  · rw [abs_of_neg hp.1, abs_of_pos hp.2] at hle
    have h2 : ¬ s > 0 := by omega
    simp only [h2, decide_false, Bool.false_eq_true, if_false, abs_of_pos hp.2, OpenInterest.mk.injEq]
    omega

theorem nextOpenInterest_flip (hlt : |s| < |d|) :
    (let closed := if decide (s > 0) = true then { oi with long := oi.long + -|s| } else { oi with short := oi.short + -|s| }
      if s + d > 0 then { closed with long := closed.long + M.abs (s + d) }
      else { closed with short := closed.short + M.abs (s + d) }) = nextOpenInterest oi s (s + d) := by
  simp only [nextOpenInterest, longPart, shortPart, M.abs_eq]
  rcases hopp with hp | hp
  · rw [abs_of_pos hp.1, abs_of_neg hp.2] at hlt
    have h1 : ¬ s + d > 0 := by omega
    simp only [hp.1, h1, decide_true, if_true, if_false, abs_of_pos hp.1, abs_of_nonpos (not_lt.1 h1),
      OpenInterest.mk.injEq]
    omega
  · rw [abs_of_neg hp.1, abs_of_pos hp.2] at hlt
    have h1 : s + d > 0 := by omega
    have h2 : ¬ s > 0 := by omega
    simp only [h1, h2, decide_false, Bool.false_eq_true, if_true, if_false, abs_of_neg hp.1, abs_of_pos h1,
      OpenInterest.mk.injEq]
    omega

end

theorem reduce_ok {w : World} {trader : Address} {marketId : MarketId} {m : MarketParams} {p : Position}
    {delta price notional : Int} {reduceOnly enforceLimits : Bool} {leg : Leg} (hd : delta ≠ 0) (hopen : p.size ≠ 0)
    (hside : decide (p.size > 0) ≠ decide (delta > 0))
    (hlast : p.lastFundingIndex = sideIndex (w.engine.funding marketId) p.size)
    (h : reduce w marketId m p delta price notional reduceOnly enforceLimits = .ok leg) :
    LegBooked w trader marketId p delta notional leg ∧
      (reduceOnly = true → |delta| ≤ |p.size|) ∧ leg.increased = decide (|p.size| < |delta|) := by
  have hopp : (p.size > 0 ∧ delta < 0) ∨ (p.size < 0 ∧ delta > 0) := by
    rw [ne_eq, decide_eq_decide] at hside
    omega
  have hbitmap : openedBitmap (w.engine.marketBitmap trader) marketId p.size = w.engine.marketBitmap trader := by
    rw [openedBitmap, if_neg hopen]
  have hworld : withBitmap w trader (w.engine.marketBitmap trader) = w := by
    rw [withBitmap, Function.update_eq_self]
  simp only [reduce, bind_ok_iff, M.abs_eq, M.min_eq] at h
  obtain ⟨closeNotional, hnotional, removedBasis, hbasis, w₁, hoi, h⟩ := h
  have hw₁ := changeOpenInterest_ok hoi
  split at h
  · rename_i hres
    -- The trade flips the position: the whole of it is closed and the residual opens the other side.
    have hlt : |p.size| < |delta| := by omega
    have hmin : Min.min |p.size| |delta| = |p.size| := min_eq_left hlt.le
    rw [hmin] at h hnotional hbasis hw₁
    rw [if_pos rfl, pure_ok] at hbasis
    subst hbasis
    simp only [bind_ok_iff, revertIf_ok, pure_ok, exists_const, Bool.not_eq_true] at h
    obtain ⟨hro, ⟨w₂, p₂, added⟩, hside₂, rfl⟩ := h
    obtain ⟨rfl, rfl, rfl⟩ := openSide_ok hside₂
    have hflat : (if p.size > 0 then p.size - |p.size| else p.size + |p.size|) = 0 := by
      rcases hopp with hp | hp
      · rw [if_pos hp.1, abs_of_pos hp.1, sub_self]
      · rw [if_neg (by omega), abs_of_neg hp.1, add_neg_cancel]
    have hres' : (if delta > 0 then |delta| - |p.size| else -(|delta| - |p.size|)) = p.size + delta := by
      rcases hopp with hp | hp
      · rw [if_neg (by omega), abs_of_pos hp.1, abs_of_neg hp.2]; ring
      · rw [if_pos hp.2, abs_of_neg hp.1, abs_of_pos hp.2]; ring
    have hnz : p.size + delta ≠ 0 := by
      rcases hopp with hp | hp
      · rw [abs_of_pos hp.1, abs_of_neg hp.2] at hlt; omega
      · rw [abs_of_neg hp.1, abs_of_pos hp.2] at hlt; omega
    simp only [hflat, hres'] at hw₁ ⊢
    refine ⟨⟨by simp, by ring, fun _ => by simp [hw₁, withOpenInterest], fun h0 => absurd h0 hnz, ?_,
      fun h0 => absurd h0 hopen, ?_⟩, fun ht => ?_, ?_⟩
    · simp only [signedValue]
      rcases hopp with hp | hp
      · rw [if_pos hp.1, if_neg (by omega), if_neg (by omega)]; ring
      · rw [if_neg (by omega), if_pos (by omega), if_pos hp.2]; ring
    · subst hw₁
      rw [hbitmap, hworld, withOpenInterest_withOpenInterest]
      refine congrArg (withOpenInterest w marketId) ?_
      rw [← nextOpenInterest_flip hopp hlt]
      simp only [withOpenInterest, Function.update_self]
    · rw [hro] at ht; exact absurd ht (by simp)
    · simp [hlt]
  · rename_i hres
    have hle : |delta| ≤ |p.size| := by omega
    have hmin : Min.min |p.size| |delta| = |delta| := min_eq_right hle
    rw [pure_ok] at h
    rw [hmin] at h hnotional hbasis hw₁
    rw [if_pos (by omega), pure_ok] at hnotional
    subst hnotional h
    have hsize : (if p.size > 0 then p.size - |delta| else p.size + |delta|) = p.size + delta := by
      rcases hopp with hp | hp
      · rw [if_pos hp.1, abs_of_neg hp.2]; ring
      · rw [if_neg (by omega), abs_of_pos hp.2]
    refine ⟨⟨hsize, by ring, fun hnz => ?_, fun h0 => ?_, ?_, fun h0 => absurd h0 hopen, ?_⟩, fun _ => hle, ?_⟩
    · simp only [hlast, sideIndex]
      rcases hopp with hp | hp
      · rw [abs_of_pos hp.1, abs_of_neg hp.2] at hle
        rw [if_pos hp.1, if_pos (by omega)]
      · rw [abs_of_neg hp.1, abs_of_pos hp.2] at hle
        rw [if_neg (by omega), if_neg (by omega)]
    · have hall : |delta| = |p.size| := by rw [show delta = -p.size by omega, abs_neg]
      rw [if_pos hall, pure_ok] at hbasis
      rw [hbasis]
      exact add_neg_cancel _
    · simp only [signedValue]
      rcases hopp with hp | hp
      · rw [if_pos hp.1, if_neg (by omega)]; ring
      · rw [if_neg (by omega), if_pos hp.2]; ring
    · subst hw₁
      rw [hbitmap, hworld]
      exact congrArg (withOpenInterest w marketId) (nextOpenInterest_reduce hopp hle)
    · simp [hle]

/-! ## The whole trade -/

/-- What a leg books of a position whose funding is settled, whichever way the trade goes. -/
theorem leg_ok {w : World} {trader : Address} {marketId : MarketId} {m : MarketParams} {p : Position}
    {delta price notional : Int} {reduceOnly enforceLimits : Bool} {leg : Leg} (hd : delta ≠ 0)
    (h : (if (settledPosition (w.engine.funding marketId) p).size = 0 ∨
          decide ((settledPosition (w.engine.funding marketId) p).size > 0) = decide (delta > 0) then
        increase w trader marketId m (settledPosition (w.engine.funding marketId) p) delta notional reduceOnly
          enforceLimits
      else reduce w marketId m (settledPosition (w.engine.funding marketId) p) delta price notional reduceOnly
        enforceLimits) = .ok leg) :
    LegBooked w trader marketId (settledPosition (w.engine.funding marketId) p) delta notional leg ∧
      (reduceOnly = true → p.size ≠ 0 ∧ decide (p.size > 0) ≠ decide (delta > 0) ∧ |delta| ≤ |p.size|) := by
  have hsize := settledPosition_size (w.engine.funding marketId) p
  split at h
  · rename_i hside
    obtain ⟨hb, hro, -⟩ := increase_ok hd hside
      (fun h0 => by rw [hsize] at h0 ⊢; exact settledPosition_last _ h0) h
    exact ⟨hb, fun ht => by rw [hro] at ht; exact absurd ht (by simp)⟩
  · rename_i hside
    rw [not_or] at hside
    obtain ⟨hb, hro, -⟩ := reduce_ok hd hside.1 hside.2
      (by rw [hsize]; exact settledPosition_last _ (hsize ▸ hside.1)) h
    rw [hsize] at hside hro
    exact ⟨hb, fun ht => ⟨hside.1, hside.2, hro ht⟩⟩

theorem storePosition_ok {w w' : World} {trader : Address} {marketId : MarketId} {p : Position}
    (h : storePosition w trader marketId p = .ok w') :
    w' = { w with engine := { w.engine with
      positions := update w.engine.positions (trader, marketId) (if p.size = 0 then Position.empty else p)
      marketBitmap := update w.engine.marketBitmap trader (if p.size = 0 then
        Bitmap.removeMarket (w.engine.marketBitmap trader) marketId else w.engine.marketBitmap trader) } } := by
  unfold storePosition at h
  split at h
  · rename_i h0
    rw [pure_ok] at h
    simp [h0, ← h]
  · rename_i h0
    simp only [M.bound128_ok, bind_ok_iff, pure_ok] at h
    obtain ⟨_, ⟨-, rfl⟩, _, ⟨-, rfl⟩, _, ⟨-, rfl⟩, rfl⟩ := h
    simp [h0]

theorem realizedPnl_ok {D : Deployment} {w w' : World} {caller trader : Address} {realized : Int}
    (h : (if realized ≠ 0 then Vault.applyPnl D w caller trader realized else pure w) = .ok w') :
    w' = Vault.posted w trader realized := by
  split at h
  · exact Vault.applyPnl_ok h
  · rename_i h0
    rw [not_not] at h0
    rw [pure_ok] at h
    rw [h0, Vault.posted_zero, h]

/-- **A trade that returns is booked on admissible terms**; a reduce-only trade stays within the position it reduces, and
only a trade that leaves the position's side or grows it increases exposure. -/
theorem trade_ok {D : Deployment} {w w' : World} {trader : Address} {marketId : MarketId} {m : MarketParams}
    {delta price notional : Int} {reduceOnly enforceLimits increased : Bool} {realized : Int} (hd : delta ≠ 0)
    (h : trade D w trader marketId m delta price notional reduceOnly enforceLimits = .ok (w', increased, realized)) :
    ∃ x : Terms, Admits w trader marketId delta x ∧
      w' = booked D w trader marketId delta (signedValue delta notional) x ∧
      realized = x.basisChange - signedValue delta notional ∧
      (reduceOnly = true → (w.engine.positions (trader, marketId)).size ≠ 0 ∧
        decide ((w.engine.positions (trader, marketId)).size > 0) ≠ decide (delta > 0) ∧
        |delta| ≤ |(w.engine.positions (trader, marketId)).size|) := by
  set p := w.engine.positions (trader, marketId) with hp
  simp only [trade, bind_ok_iff, pure_ok, Prod.mk.injEq] at h
  obtain ⟨⟨w₁, p₁⟩, hfund, leg, hleg, basis, hbasis, w₂, hstore, w₃, hpnl, _, -, rfl, rfl, rfl⟩ := h
  obtain ⟨payment, rfl, rfl, hpay⟩ := settleFunding_ok hfund
  simp only [M.add_ok] at hbasis
  obtain ⟨-, rfl⟩ := hbasis
  have hsize := settledPosition_size (w.engine.funding marketId) p
  have hbooked : LegBooked (w.withBalances (Book.transfer w.vault.balances trader D.engine payment)) trader marketId
      (settledPosition (w.engine.funding marketId) p) delta notional leg ∧
      (reduceOnly = true → p.size ≠ 0 ∧ decide (p.size > 0) ≠ decide (delta > 0) ∧ |delta| ≤ |p.size|) :=
    leg_ok hd hleg
  obtain ⟨hb, hro⟩ := hbooked
  have hreal := hb.realized
  have hflat := hb.flat
  have hlast := hb.last
  have hmarket := hb.market
  have hbasis' := hb.basis
  have hsize' := hb.size
  rw [hsize] at hflat hlast hmarket hsize'
  rw [settledPosition_openNotional] at hflat hbasis'
  refine ⟨⟨payment, leg.basisChange, if p.size + delta = 0 then 0 else leg.position.lastFundingIndex⟩,
    ⟨hpay, fun h0 => ⟨hflat h0, if_pos h0⟩, fun h0 => (if_neg h0).trans (hlast h0), hmarket⟩, ?_, hreal, hro⟩
  rw [realizedPnl_ok hpnl, storePosition_ok hstore, hb.world]
  simp only [booked, Vault.posted, withOpenInterest, withBitmap, World.withBalances, hsize, hsize', ← hp, hreal,
    Function.update_self, Function.update_idem, nextBitmap, nextPosition]
  by_cases h0 : p.size + delta = 0
  · simp [h0]
  · simp only [h0, if_false]
    have hpos : leg.position = ⟨p.size + delta, p.openNotional + leg.basisChange, leg.position.lastFundingIndex⟩ := by
      rw [← hsize', ← hbasis']
    rw [← hpos]

/-! ## Fills and transfers -/

theorem signedValue_neg {delta : Int} (hd : delta ≠ 0) (notional : Int) :
    signedValue (-delta) notional = -signedValue delta notional := by
  simp only [signedValue]
  by_cases h : delta > 0
  · rw [if_pos h, if_neg (by omega)]
  · rw [if_neg h, if_pos (by omega), neg_neg]

/-- The world with another mark and another funding clock in a market; the funding indexes stay. -/
def marked (w : World) (marketId : MarketId) (lastUpdate : Nat) (st : MarkState) : World :=
  { w with engine := { w.engine with
    funding := update w.engine.funding marketId { w.engine.funding marketId with lastUpdate := lastUpdate }
    marks := update w.engine.marks marketId st } }

theorem marked_self (w : World) (marketId : MarketId) :
    marked w marketId (w.engine.funding marketId).lastUpdate (w.engine.marks marketId) = w := by
  simp [marked]

theorem recordMark_ok {w w' : World} {marketId : MarketId} {price : Int} (h : recordMark w marketId price = .ok w') :
    ∃ t st, w' = marked w marketId t st := by
  unfold recordMark at h
  simp only at h
  split at h
  · rw [pure_ok] at h
    exact ⟨_, _, by rw [marked_self, h]⟩
  · simp only [bind_ok_iff, pure_ok] at h
    obtain ⟨st, -, price', -, rfl⟩ := h
    by_cases hc : decide (st.lastPrice ≤ 0) = true ∧ (w.engine.funding marketId).lastUpdate = 0
    · exact ⟨_, _, by rw [if_pos hc]; rfl⟩
    · exact ⟨(w.engine.funding marketId).lastUpdate, _, by rw [if_neg hc]; rfl⟩

/-- The signed size one side of a fill takes. -/
def fillDelta (isBuy : Bool) (size : Int) : Int := if isBuy then size else -size

/-- What a reduce-only trade satisfies: it runs against the position and stays within it. -/
def Reduces (p : Position) (delta : Int) : Prop :=
  p.size ≠ 0 ∧ decide (p.size > 0) ≠ decide (delta > 0) ∧ |delta| ≤ |p.size|

/-- **One side of a fill** marks the price and books a trade. -/
theorem applyFill_ok {D : Deployment} {w w' : World} {caller trader : Address} {marketId : MarketId} {isBuy : Bool}
    {size price notional : Int} {reduceOnly increased : Bool}
    (h : applyFill D w caller trader marketId isBuy size price notional reduceOnly = .ok (w', increased)) :
    0 < size ∧ 0 < notional ∧ ∃ t st x, Admits (marked w marketId t st) trader marketId (fillDelta isBuy size) x ∧
      w' = booked D (marked w marketId t st) trader marketId (fillDelta isBuy size)
        (signedValue (fillDelta isBuy size) notional) x ∧
      (reduceOnly = true → Reduces (w.engine.positions (trader, marketId)) (fillDelta isBuy size)) := by
  simp only [applyFill, bind_ok_iff, revertIf_ok, World.whenNotPaused_ok, pure_ok, Prod.mk.injEq, exists_const] at h
  obtain ⟨-, -, hpos, m, -, index, -, maxDelta, -, lo, -, -, hi, -, -, w₁, hmark, ⟨w₂, inc, r⟩, htrade, rfl, rfl⟩ := h
  obtain ⟨t, st, rfl⟩ := recordMark_ok hmark
  have hd : fillDelta isBuy size ≠ 0 := by
    unfold fillDelta
    split <;> omega
  obtain ⟨x, hx, hw, -, hro⟩ := trade_ok hd htrade
  exact ⟨by omega, by omega, t, st, x, hx, hw, hro⟩

/-- **Liquidation hands the closed size to the receiver at the same notional.** -/
theorem liquidationTransfer_ok {D : Deployment} {w w' : World} {caller trader receiver : Address} {marketId : MarketId}
    {size price realized : Int}
    (h : liquidationTransfer D w caller trader receiver marketId size price = .ok (w', realized)) :
    ∃ delta v w₁ x y, (w.engine.positions (trader, marketId)).size ≠ 0 ∧
      delta = fillDelta (decide ((w.engine.positions (trader, marketId)).size ≤ 0)) size ∧
      Reduces (w.engine.positions (trader, marketId)) delta ∧
      Admits w trader marketId delta x ∧ w₁ = booked D w trader marketId delta v x ∧
      Admits w₁ receiver marketId (-delta) y ∧ w' = booked D w₁ receiver marketId (-delta) (-v) y ∧
      realized = x.basisChange - v := by
  simp only [liquidationTransfer, bind_ok_iff, revertIf_ok, World.whenNotPaused_ok, pure_ok, Prod.mk.injEq,
    exists_const] at h
  obtain ⟨-, -, hs, hsize, m, -, n, -, ⟨w₁, inc, r⟩, htrade, ⟨w₂, inc₂, r₂⟩, htrade₂, rfl, rfl⟩ := h
  have hdelta : (if (w.engine.positions (trader, marketId)).size > 0 then -size else size) =
      fillDelta (decide ((w.engine.positions (trader, marketId)).size ≤ 0)) size := by
    unfold fillDelta
    by_cases hp : (w.engine.positions (trader, marketId)).size > 0
    · simp [hp]
    · simp [hp, not_lt.1 hp]
  simp only [hdelta] at htrade htrade₂
  have hd : fillDelta (decide ((w.engine.positions (trader, marketId)).size ≤ 0)) size ≠ 0 := by
    unfold fillDelta
    split <;> omega
  obtain ⟨x, hx, rfl, rfl, hro⟩ := trade_ok hd htrade
  obtain ⟨y, hy, hw₂, -, -⟩ := trade_ok (neg_ne_zero.2 hd) htrade₂
  rw [signedValue_neg hd] at hw₂
  exact ⟨_, _, _, x, y, hs, rfl, hro rfl, hx, rfl, hy, hw₂, rfl⟩

/-- **ADL closes two opposite positions against each other.** -/
theorem adlTransfer_ok {D : Deployment} {w w' : World} {caller backstop counterparty : Address} {marketId : MarketId}
    {size price realized : Int}
    (h : adlTransfer D w caller backstop counterparty marketId size price = .ok (w', realized)) :
    ∃ delta v w₁ x y, (w.engine.positions (counterparty, marketId)).size ≠ 0 ∧
      Reduces (w.engine.positions (counterparty, marketId)) delta ∧
      Admits w counterparty marketId delta x ∧ w₁ = booked D w counterparty marketId delta v x ∧
      Reduces (w₁.engine.positions (backstop, marketId)) (-delta) ∧
      Admits w₁ backstop marketId (-delta) y ∧ w' = booked D w₁ backstop marketId (-delta) (-v) y ∧
      realized = x.basisChange - v := by
  simp only [adlTransfer, bind_ok_iff, revertIf_ok, World.whenNotPaused_ok, pure_ok, Prod.mk.injEq,
    exists_const] at h
  obtain ⟨-, -, hs, hdir, hsize, m, -, n, -, ⟨w₁, inc, r⟩, htrade, ⟨w₂, inc₂, r₂⟩, htrade₂, rfl, rfl⟩ := h
  rw [decide_eq_decide] at hdir
  have hd : (if (w.engine.positions (counterparty, marketId)).size > 0 then -size else size) ≠ 0 := by
    split <;> omega
  have hneg : (if (w.engine.positions (backstop, marketId)).size > 0 then -size else size) =
      -(if (w.engine.positions (counterparty, marketId)).size > 0 then -size else size) := by
    by_cases hc : (w.engine.positions (counterparty, marketId)).size > 0
    · rw [if_pos hc, if_neg (fun hb => hdir ⟨fun _ => hc, fun _ => hb⟩), neg_neg]
    · rw [if_neg hc, if_pos (by by_contra hb; exact hdir ⟨fun h => absurd h hb, fun h => absurd h hc⟩)]
  obtain ⟨x, hx, rfl, rfl, hro⟩ := trade_ok hd htrade
  simp only [hneg] at htrade₂
  obtain ⟨y, hy, hw₂, -, hro₂⟩ := trade_ok (neg_ne_zero.2 hd) htrade₂
  rw [signedValue_neg hd] at hw₂
  exact ⟨_, _, _, x, y, fun h0 => hs (Or.inr h0), hro rfl, hx, rfl, hro₂ rfl, hy, hw₂, rfl⟩

end Engine
end Kryon
