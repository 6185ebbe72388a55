import Kryon.Types
import Mathlib.Data.Nat.Bitwise
import Mathlib.Data.Nat.Factorization.Basic
import Mathlib.Tactic.Ring
/-!
# Bitmap — an account's open markets as the set bits of a 256-bit word

`_popcount` clears the lowest set bit until none is left and `_marketIds` lists the set bits from the lowest.  Both loops
run at most once per bit, so 256 turns of fuel are enough: on a word below `2 ^ 256` the listed markets are exactly the
set bits (`mem_marketIds`), in strictly ascending order (`marketIds_sorted`), as many as `popcount` counts
(`length_marketIds`).
-/
namespace Kryon.Bitmap

def popcountFuel : Nat → Nat → Nat
  | 0, _ => 0
  | fuel + 1, bitmap => if bitmap = 0 then 0 else popcountFuel fuel (bitmap &&& (bitmap - 1)) + 1

def popcount (bitmap : Nat) : Nat := popcountFuel 256 bitmap

/-- `bitmap & (~bitmap + 1)` on 256-bit words. -/
def lowest (bitmap : Nat) : Nat := bitmap &&& (2 ^ 256 - bitmap)

def marketIdsFuel : Nat → Nat → List Nat
  | 0, _ => []
  | fuel + 1, bitmap =>
    if bitmap = 0 then [] else Nat.log2 (lowest bitmap) :: marketIdsFuel fuel (bitmap ^^^ lowest bitmap)

/-- The set bits of a word in ascending order. -/
def marketIds (bitmap : Nat) : List MarketId := (marketIdsFuel 256 bitmap).map MarketId.ofNat

def addMarket (bitmap : Nat) (marketId : MarketId) : Nat := bitmap ||| 1 <<< marketId.toNat

/-- `bitmap & ~(1 << marketId)`; the shift leaves the word for ids above 255. -/
def removeMarket (bitmap : Nat) (marketId : MarketId) : Nat :=
  bitmap &&& (2 ^ 256 - 1 - (1 <<< marketId.toNat) % 2 ^ 256)

/-! ## The lowest set bit -/

/-- A nonzero word is its lowest set bit and a multiple of the next power of two. -/
theorem exists_lowest {b : Nat} (h : b ≠ 0) : ∃ k a, b = 2 ^ (k + 1) * a + 2 ^ k := by
  obtain ⟨k, m, ⟨a, rfl⟩, rfl⟩ := Nat.exists_eq_two_pow_mul_odd h
  exact ⟨k, a, by ring⟩

theorem two_pow_lt_succ (k : Nat) : 2 ^ k < 2 ^ (k + 1) := Nat.pow_lt_pow_right (by decide) (Nat.lt_succ_self k)

theorem testBit_lowest (k a j : Nat) :
    (2 ^ (k + 1) * a + 2 ^ k).testBit j = (decide (j = k) || (2 ^ (k + 1) * a).testBit j) := by
  rw [Nat.testBit_two_pow_mul_add a (two_pow_lt_succ k), Nat.testBit_two_pow_mul, Nat.testBit_two_pow]
  by_cases h : j < k + 1
  · have h1 : ¬ k + 1 ≤ j := by omega
    simp [h, h1, eq_comm]
  · have h1 : k + 1 ≤ j := by omega
    have h2 : j ≠ k := by omega
    simp [h, h1, h2]

theorem and_pred (k a : Nat) : (2 ^ (k + 1) * a + 2 ^ k) &&& (2 ^ (k + 1) * a + 2 ^ k - 1) = 2 ^ (k + 1) * a := by
  have hpos : 0 < 2 ^ k := Nat.two_pow_pos k
  have hlt := two_pow_lt_succ k
  have hsub : 2 ^ (k + 1) * a + 2 ^ k - 1 = 2 ^ (k + 1) * a + (2 ^ k - 1) := by omega
  apply Nat.eq_of_testBit_eq
  intro j
  rw [Nat.testBit_and, testBit_lowest, hsub, Nat.testBit_two_pow_mul_add a (by omega : 2 ^ k - 1 < 2 ^ (k + 1)),
    Nat.testBit_two_pow_sub_one, Nat.testBit_two_pow_mul]
  by_cases h : j < k + 1
  · have h1 : ¬ k + 1 ≤ j := by omega
    by_cases hj : j = k <;> simp [h, h1, hj]
  · have h1 : k + 1 ≤ j := by omega
    simp only [h, h1, if_false, decide_true, Bool.true_and]
    cases a.testBit (j - (k + 1)) <;> simp

theorem lowest_eq {k a : Nat} (h : 2 ^ (k + 1) * a + 2 ^ k < 2 ^ 256) :
    lowest (2 ^ (k + 1) * a + 2 ^ k) = 2 ^ k := by
  have hpos : 0 < 2 ^ k := Nat.two_pow_pos k
  have hpred : 2 ^ 256 - (2 ^ (k + 1) * a + 2 ^ k) = 2 ^ 256 - ((2 ^ (k + 1) * a + (2 ^ k - 1)) + 1) := by omega
  have hlt : 2 ^ (k + 1) * a + (2 ^ k - 1) < 2 ^ 256 := by omega
  have hk := two_pow_lt_succ k
  apply Nat.eq_of_testBit_eq
  intro j
  rw [lowest, Nat.testBit_and, hpred, Nat.testBit_two_pow_sub_succ hlt, testBit_lowest,
    Nat.testBit_two_pow_mul_add a (by omega : 2 ^ k - 1 < 2 ^ (k + 1)), Nat.testBit_two_pow_sub_one,
    Nat.testBit_two_pow_mul, Nat.testBit_two_pow]
  have hk256 : k < 256 := by
    by_contra hge
    have : 2 ^ 256 ≤ 2 ^ k := Nat.pow_le_pow_right (by decide) (by omega)
    omega
  by_cases hj : j = k
  · subst hj
    simp [hk256]
  · by_cases h1 : j < k + 1
    · have h2 : ¬ k + 1 ≤ j := by omega
      simp [hj, h2, Ne.symm hj]
    · have h2 : k + 1 ≤ j := by omega
      simp only [hj, h1, h2, Ne.symm hj, if_false, decide_true, decide_false, Bool.true_and, Bool.false_or]
      cases a.testBit (j - (k + 1)) <;> simp

theorem xor_lowest (k a : Nat) : (2 ^ (k + 1) * a + 2 ^ k) ^^^ 2 ^ k = 2 ^ (k + 1) * a := by
  apply Nat.eq_of_testBit_eq
  intro j
  rw [Nat.testBit_xor, testBit_lowest, Nat.testBit_two_pow, Nat.testBit_two_pow_mul]
  by_cases hj : j = k
  · subst hj
    simp
  · simp [hj, Ne.symm hj]

/-! ## The loops -/

/-- Each turn clears the lowest bit, so a word divisible by `2 ^ (256 - fuel)` is emptied by `fuel` turns. -/
theorem fuel_step {fuel k a : Nat} (hd : 2 ^ (256 - (fuel + 1)) ∣ 2 ^ (k + 1) * a + 2 ^ k) :
    2 ^ (256 - fuel) ∣ 2 ^ (k + 1) * a := by
  have hk : 256 - (fuel + 1) ≤ k := by
    by_contra hlt
    have h1 : 2 ^ (k + 1) ∣ 2 ^ (k + 1) * a + 2 ^ k := (Nat.pow_dvd_pow 2 (by omega)).trans hd
    have h2 : 2 ^ (k + 1) ∣ 2 ^ k := (Nat.dvd_add_right (Nat.dvd_mul_right _ _)).1 h1
    exact absurd (Nat.le_of_dvd (Nat.two_pow_pos k) h2) (by have := two_pow_lt_succ k; omega)
  exact (Nat.pow_dvd_pow 2 (by omega)).trans (Nat.dvd_mul_right _ _)

theorem eq_zero_of_fuel_zero {b : Nat} (hd : 2 ^ (256 - 0) ∣ b) (h : b < 2 ^ 256) : b = 0 :=
  Nat.eq_zero_of_dvd_of_lt hd h

/-- **The loop lists the set bits, each once, from the lowest, and as many as the count.** -/
theorem marketIdsFuel_spec : ∀ (fuel b : Nat), 2 ^ (256 - fuel) ∣ b → b < 2 ^ 256 →
    (∀ i, i ∈ marketIdsFuel fuel b ↔ b.testBit i = true) ∧ (marketIdsFuel fuel b).Pairwise (· < ·) ∧
      (marketIdsFuel fuel b).length = popcountFuel fuel b
  | 0, b, hd, h => by
    have hb := eq_zero_of_fuel_zero hd h
    subst hb
    simp [marketIdsFuel, popcountFuel]
  | fuel + 1, b, hd, h => by
    by_cases hb : b = 0
    · subst hb
      simp [marketIdsFuel, popcountFuel]
    · obtain ⟨k, a, rfl⟩ := exists_lowest hb
      have hpos : 0 < 2 ^ k := Nat.two_pow_pos k
      obtain ⟨hmem, hsorted, hlen⟩ :=
        marketIdsFuel_spec fuel (2 ^ (k + 1) * a) (fuel_step hd) (by omega)
      simp only [marketIdsFuel, popcountFuel, if_neg hb, lowest_eq h, xor_lowest, and_pred, Nat.log2_two_pow]
      refine ⟨fun i => ?_, List.pairwise_cons.2 ⟨fun i hi => ?_, hsorted⟩, by simp [hlen]⟩
      · rw [List.mem_cons, hmem, testBit_lowest]
        simp
      · have hbit := (hmem i).1 hi
        rw [Nat.testBit_two_pow_mul] at hbit
        simp only [Bool.and_eq_true, decide_eq_true_eq] at hbit
        omega

theorem mem_marketIdsFuel {b : Nat} (h : b < 2 ^ 256) (i : Nat) : i ∈ marketIdsFuel 256 b ↔ b.testBit i = true :=
  (marketIdsFuel_spec 256 b (by simp) h).1 i

theorem lt_of_mem_marketIdsFuel {b i : Nat} (h : b < 2 ^ 256) (hi : i ∈ marketIdsFuel 256 b) : i < 256 := by
  by_contra hge
  have hbit := (mem_marketIdsFuel h i).1 hi
  have hlt : b < 2 ^ i := h.trans_le (Nat.pow_le_pow_right (by decide) (by omega))
  rw [Nat.testBit_lt_two_pow hlt] at hbit
  exact absurd hbit (by simp)

theorem toNat_ofNat_of_mem {b i : Nat} (h : b < 2 ^ 256) (hi : i ∈ marketIdsFuel 256 b) :
    (MarketId.ofNat i).toNat = i :=
  MarketId.toNat_ofNat ((lt_of_mem_marketIdsFuel h hi).trans (by decide))

/-- **The listed markets are the set bits.** -/
theorem mem_marketIds {b : Nat} (h : b < 2 ^ 256) (m : MarketId) : m ∈ marketIds b ↔ b.testBit m.toNat = true := by
  rw [marketIds, List.mem_map]
  constructor
  · rintro ⟨i, hi, rfl⟩
    rw [toNat_ofNat_of_mem h hi]
    exact (mem_marketIdsFuel h i).1 hi
  · intro hbit
    exact ⟨m.toNat, (mem_marketIdsFuel h _).2 hbit, MarketId.ofNat_toNat m⟩

/-- **The listed markets ascend strictly**, so none is listed twice. -/
theorem marketIds_sorted {b : Nat} (h : b < 2 ^ 256) :
    (marketIds b).Pairwise (fun m n => m.toNat < n.toNat) := by
  rw [marketIds, List.pairwise_map]
  refine List.Pairwise.imp_of_mem ?_ (marketIdsFuel_spec 256 b (by simp) h).2.1
  intro i j hi hj hij
  rwa [toNat_ofNat_of_mem h hi, toNat_ofNat_of_mem h hj]

theorem marketIds_nodup {b : Nat} (h : b < 2 ^ 256) : (marketIds b).Nodup :=
  (marketIds_sorted h).imp fun hlt he => by rw [he] at hlt; exact lt_irrefl _ hlt

theorem length_marketIds {b : Nat} (h : b < 2 ^ 256) : (marketIds b).length = popcount b := by
  rw [marketIds, List.length_map]
  exact (marketIdsFuel_spec 256 b (by simp) h).2.2

theorem popcount_eq_zero {b : Nat} : popcount b = 0 ↔ b = 0 := by
  constructor
  · intro h
    by_contra hb
    rw [popcount, popcountFuel, if_neg hb] at h
    exact Nat.succ_ne_zero _ h
  · rintro rfl
    rfl

/-! ## Adding and removing a market -/

theorem testBit_addMarket (b : Nat) (m : MarketId) (i : Nat) :
    (addMarket b m).testBit i = (b.testBit i || decide (m.toNat = i)) := by
  rw [addMarket, Nat.testBit_or, Nat.one_shiftLeft, Nat.testBit_two_pow]

theorem addMarket_lt {b : Nat} (h : b < 2 ^ 256) {m : MarketId} (hm : m.toNat ≤ 255) : addMarket b m < 2 ^ 256 := by
  rw [addMarket, Nat.one_shiftLeft]
  exact Nat.or_lt_two_pow h (Nat.pow_lt_pow_right (by decide) (by omega))

theorem testBit_removeMarket {b : Nat} {m : MarketId} (hm : m.toNat ≤ 255) (i : Nat) (h : b < 2 ^ 256) :
    (removeMarket b m).testBit i = (b.testBit i && decide (m.toNat ≠ i)) := by
  have hlt : 2 ^ m.toNat < 2 ^ 256 := Nat.pow_lt_pow_right (by decide) (by omega)
  have hmask : 2 ^ 256 - 1 - (1 <<< m.toNat) % 2 ^ 256 = 2 ^ 256 - (2 ^ m.toNat + 1) := by
    rw [Nat.one_shiftLeft, Nat.mod_eq_of_lt hlt]
    omega
  rw [removeMarket, Nat.testBit_and, hmask, Nat.testBit_two_pow_sub_succ hlt, Nat.testBit_two_pow]
  by_cases hi : i < 256
  · simp [hi]
  · have hb : b.testBit i = false :=
      Nat.testBit_lt_two_pow (h.trans_le (Nat.pow_le_pow_right (by decide) (by omega)))
    simp [hb]

theorem removeMarket_le (b : Nat) (m : MarketId) : removeMarket b m ≤ b := Nat.and_le_left

example : marketIds (addMarket (addMarket 0 7) 2) = [2, 7] := by decide +kernel

end Kryon.Bitmap
