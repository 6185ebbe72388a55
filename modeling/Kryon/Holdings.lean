import Kryon.Trade
/-!
# Holdings — an account's bitmap lists exactly its open positions

A trade sets its market's bit when it opens a position and clears it when it closes one, and a closed position is deleted.
So a set bit is an open position and a flat position is empty (`Listed`), whatever is traded.
-/
namespace Kryon.Engine

open Function (update)
open Clearing (Terms)

/-- Every bitmap is a word that lists its account's open positions, and every flat position is empty. -/
structure Listed (e : EngineStorage) : Prop where
  word : ∀ a, e.marketBitmap a < 2 ^ 256
  bit : ∀ a m, (e.marketBitmap a).testBit m.toNat = true ↔ (e.positions (a, m)).size ≠ 0
  market : ∀ a m, (e.positions (a, m)).size ≠ 0 → 0 < m.toNat ∧ m.toNat ≤ 255
  flat : ∀ k, (e.positions k).size = 0 → e.positions k = Position.empty

theorem Listed.of_eq {e e' : EngineStorage} (h : Listed e) (hp : e'.positions = e.positions)
    (hb : e'.marketBitmap = e.marketBitmap) : Listed e' := by
  refine ⟨?_, ?_, ?_, ?_⟩
  · rw [hb]
    exact h.word
  · rw [hb, hp]
    exact h.bit
  · rw [hp]
    exact h.market
  · rw [hp]
    exact h.flat

theorem Listed.mem {e : EngineStorage} (h : Listed e) {a : Address} {m : MarketId} :
    m ∈ Bitmap.marketIds (e.marketBitmap a) ↔ (e.positions (a, m)).size ≠ 0 := by
  rw [Bitmap.mem_marketIds (h.word a), h.bit]

theorem Listed.count_eq_zero {e : EngineStorage} (h : Listed e) {a : Address}
    (h0 : Bitmap.popcount (e.marketBitmap a) = 0) (m : MarketId) : (e.positions (a, m)).size = 0 := by
  have hzero : e.marketBitmap a = 0 := Bitmap.popcount_eq_zero.1 h0
  by_contra hopen
  have hbit := (h.bit a m).2 hopen
  rw [hzero, Nat.zero_testBit] at hbit
  exact absurd hbit (by decide)

/-! ## The bitmap of a trade -/

variable {b : Nat} {marketId : MarketId} {oldSize newSize : Int}

theorem openedBitmap_lt (hb : b < 2 ^ 256) (hm : marketId.toNat ≤ 255) : openedBitmap b marketId oldSize < 2 ^ 256 := by
  unfold openedBitmap
  split
  · exact Bitmap.addMarket_lt hb hm
  · exact hb

theorem nextBitmap_lt (hb : b < 2 ^ 256) (hm : marketId.toNat ≤ 255) :
    nextBitmap b marketId oldSize newSize < 2 ^ 256 := by
  unfold nextBitmap
  split
  · exact (Bitmap.removeMarket_le _ _).trans_lt (openedBitmap_lt hb hm)
  · exact openedBitmap_lt hb hm

theorem testBit_openedBitmap_self (hold : oldSize ≠ 0 → b.testBit marketId.toNat = true) :
    (openedBitmap b marketId oldSize).testBit marketId.toNat = true := by
  unfold openedBitmap
  split
  · rw [Bitmap.testBit_addMarket]
    simp
  · rename_i h
    exact hold h

theorem testBit_openedBitmap_of_ne {i : Nat} (hi : marketId.toNat ≠ i) :
    (openedBitmap b marketId oldSize).testBit i = b.testBit i := by
  unfold openedBitmap
  split
  · rw [Bitmap.testBit_addMarket, decide_eq_false hi, Bool.or_false]
  · rfl

/-- A trade's market is listed afterwards exactly if its position is open. -/
theorem testBit_nextBitmap_self (hb : b < 2 ^ 256) (hm : marketId.toNat ≤ 255)
    (hold : oldSize ≠ 0 → b.testBit marketId.toNat = true) :
    (nextBitmap b marketId oldSize newSize).testBit marketId.toNat = true ↔ newSize ≠ 0 := by
  unfold nextBitmap
  split
  · rename_i h0
    rw [Bitmap.testBit_removeMarket hm _ (openedBitmap_lt hb hm)]
    simp [h0]
  · rename_i h0
    exact iff_of_true (testBit_openedBitmap_self hold) h0

theorem testBit_nextBitmap_of_ne (hb : b < 2 ^ 256) (hm : marketId.toNat ≤ 255) {i : Nat} (hi : marketId.toNat ≠ i) :
    (nextBitmap b marketId oldSize newSize).testBit i = b.testBit i := by
  unfold nextBitmap
  split
  · rw [Bitmap.testBit_removeMarket hm _ (openedBitmap_lt hb hm), testBit_openedBitmap_of_ne hi, decide_eq_true hi,
      Bool.and_true]
  · exact testBit_openedBitmap_of_ne hi

/-! ## Trades -/

variable {D : Deployment} {w : World} {trader : Address} {delta v : Int} {x : Terms}

theorem nextPosition_size (p : Position) (delta : Int) (x : Terms) : (nextPosition p delta x).size = p.size + delta := by
  unfold nextPosition
  split
  · rename_i h
    exact h.symm
  · rfl

theorem nextPosition_flat {p : Position} {delta : Int} {x : Terms} (h : (nextPosition p delta x).size = 0) :
    nextPosition p delta x = Position.empty := by
  rw [nextPosition_size] at h
  rw [nextPosition, if_pos h]

/-- A trade is in a market the bitmap has room for. -/
theorem market_le (hl : Listed w.engine) (hx : Admits w trader marketId delta x) :
    0 < marketId.toNat ∧ marketId.toNat ≤ 255 := by
  by_cases h0 : (w.engine.positions (trader, marketId)).size = 0
  · exact hx.market h0
  · exact hl.market trader marketId h0

/-- **A booked trade keeps the listing.** -/
theorem booked_listed (hl : Listed w.engine) (hx : Admits w trader marketId delta x) :
    Listed (booked D w trader marketId delta v x).engine := by
  have hm := market_le hl hx
  have hold : (w.engine.positions (trader, marketId)).size ≠ 0 →
      (w.engine.marketBitmap trader).testBit marketId.toNat = true := (hl.bit trader marketId).2
  have hpos : ∀ k, (booked D w trader marketId delta v x).engine.positions k =
      update w.engine.positions (trader, marketId)
        (nextPosition (w.engine.positions (trader, marketId)) delta x) k := fun _ => rfl
  have hbits : ∀ a, (booked D w trader marketId delta v x).engine.marketBitmap a =
      update w.engine.marketBitmap trader (nextBitmap (w.engine.marketBitmap trader) marketId
        (w.engine.positions (trader, marketId)).size ((w.engine.positions (trader, marketId)).size + delta)) a :=
    fun _ => rfl
  refine ⟨fun a => ?_, fun a n => ?_, fun a n hn => ?_, fun k hk => ?_⟩
  · rw [hbits]
    by_cases ha : a = trader
    · rw [ha, Function.update_self]
      exact nextBitmap_lt (hl.word trader) hm.2
    · rw [Function.update_of_ne ha]
      exact hl.word a
  · rw [hbits, hpos]
    by_cases ha : a = trader
    · subst ha
      rw [Function.update_self]
      by_cases hn : n = marketId
      · subst hn
        rw [Function.update_self, nextPosition_size]
        exact testBit_nextBitmap_self (hl.word a) hm.2 hold
      · have hne : marketId.toNat ≠ n.toNat := fun h => hn (MarketId.toNat_injective h).symm
        rw [Function.update_of_ne fun h => hn (Prod.ext_iff.1 h).2, testBit_nextBitmap_of_ne (hl.word a) hm.2 hne]
        exact hl.bit a n
    · rw [Function.update_of_ne ha, Function.update_of_ne fun h => ha (Prod.ext_iff.1 h).1]
      exact hl.bit a n
  · rw [hpos] at hn
    by_cases hk : (a, n) = (trader, marketId)
    · obtain ⟨-, rfl⟩ := Prod.mk.inj hk
      exact hm
    · rw [Function.update_of_ne hk] at hn
      exact hl.market a n hn
  · rw [hpos] at hk ⊢
    by_cases hne : k = (trader, marketId)
    · subst hne
      rw [Function.update_self] at hk ⊢
      exact nextPosition_flat hk
    · rw [Function.update_of_ne hne] at hk ⊢
      exact hl.flat k hk

end Kryon.Engine
