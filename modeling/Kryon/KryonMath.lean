import Kryon.Types
import Kryon.Lib.Program
import Mathlib.Algebra.Order.Group.Unbundled.Abs
import Mathlib.Algebra.Order.Group.Int
/-!
# KryonMath — 1e18 fixed-point math in the i128 range

Values are `int256`, every result and operand held to the `int128` range, so no intermediate product leaves `int256` and
the checks on the operands are the only overflow checks.  Division truncates toward zero, as Solidity's does.
-/
namespace Kryon

open Program

def I128_MAX : Int := 2 ^ 127 - 1
def I128_MIN : Int := -2 ^ 127
def U256_MAX : Nat := 2 ^ 256 - 1
def PRECISION : Int := 10 ^ 18

namespace M

def BPS_DENOMINATOR : Int := 10000

def SECS_PER_HOUR : Nat := 3600

def bound128 (v : Int) : Except Error Int :=
  if v > I128_MAX ∨ v < I128_MIN then .error .mathOverflow else .ok v

/-- `uint256` to `int256`, saturating at the i128 bound. -/
def toBoundedInt (v : Nat) : Int := if (v : Int) > I128_MAX then I128_MAX else v

/-- `uint256` to `int256`, reverting above the i128 bound. -/
def toInt (v : Nat) : Except Error Int := do
  revertIf ((v : Int) > I128_MAX) .mathOverflow
  pure v

def add (a b : Int) : Except Error Int := do
  let a ← bound128 a
  let b ← bound128 b
  bound128 (a + b)

def sub (a b : Int) : Except Error Int := do
  let a ← bound128 a
  let b ← bound128 b
  bound128 (a - b)

def mul (a b : Int) : Except Error Int := do
  let a ← bound128 a
  let b ← bound128 b
  bound128 (a * b)

def div (a b : Int) : Except Error Int := do
  revertIf (b = 0) .divisionByZero
  let a ← bound128 a
  let b ← bound128 b
  bound128 (a.tdiv b)

def mulDiv (a b denominator : Int) : Except Error Int := do
  revertIf (denominator = 0) .divisionByZero
  let a ← bound128 a
  let b ← bound128 b
  let denominator ← bound128 denominator
  bound128 ((a * b).tdiv denominator)

def mulPrecision (a b : Int) : Except Error Int := mulDiv a b PRECISION

def divPrecision (a b : Int) : Except Error Int := mulDiv a PRECISION b

def applyBps (amount : Int) (bps : Nat) : Except Error Int := do
  revertIf ((bps : Int) > BPS_DENOMINATOR) .invalidConfig
  mulDiv amount bps BPS_DENOMINATOR

def ceilDiv (a b : Int) : Except Error Int := do
  revertIf (b ≤ 0 ∨ a < 0) .invalidAmount
  if a = 0 then pure 0
  else do
    let n ← sub a 1
    let q ← div n b
    add q 1

/-- Magnitude of `a * b / PRECISION`, rounded up: the protocol is the counterparty to rounding. -/
def mulPrecisionUp (a b : Int) : Except Error Int := do
  let a ← bound128 a
  let b ← bound128 b
  let p := a * b
  revertIf (p ≤ 0) .invalidAmount
  bound128 ((p - 1).tdiv PRECISION + 1)

def abs (a : Int) : Int := if a < 0 then -a else a

def min (a b : Int) : Int := if a < b then a else b

def max (a b : Int) : Int := if a > b then a else b

def clamp (value lo hi : Int) : Int := if value < lo then lo else if value > hi then hi else value

/-- The values the i128 storage fields hold. -/
def InRange (v : Int) : Prop := I128_MIN ≤ v ∧ v ≤ I128_MAX

instance (v : Int) : Decidable (InRange v) := inferInstanceAs (Decidable (_ ∧ _))

@[simp] theorem bound128_ok (v w : Int) : bound128 v = .ok w ↔ InRange v ∧ v = w := by
  unfold bound128 InRange
  split
  · rename_i h
    simp only [reduceCtorEq, false_iff, not_and]
    omega
  · rename_i h
    simp only [Except.ok.injEq, iff_and_self]
    omega

@[simp] theorem toInt_ok (v : Nat) (w : Int) : toInt v = .ok w ↔ (v : Int) ≤ I128_MAX ∧ (v : Int) = w := by
  simp only [toInt, bind_ok_iff, revertIf_ok, pure_ok, not_lt, exists_const, gt_iff_lt]

@[simp] theorem add_ok (a b c : Int) : add a b = .ok c ↔ (InRange a ∧ InRange b ∧ InRange (a + b)) ∧ a + b = c := by
  simp [add, and_assoc]

@[simp] theorem sub_ok (a b c : Int) : sub a b = .ok c ↔ (InRange a ∧ InRange b ∧ InRange (a - b)) ∧ a - b = c := by
  simp [sub, and_assoc]

@[simp] theorem mul_ok (a b c : Int) : mul a b = .ok c ↔ (InRange a ∧ InRange b ∧ InRange (a * b)) ∧ a * b = c := by
  simp [mul, and_assoc]

@[simp] theorem mulDiv_ok (a b d c : Int) : mulDiv a b d = .ok c ↔
    (d ≠ 0 ∧ InRange a ∧ InRange b ∧ InRange d ∧ InRange ((a * b).tdiv d)) ∧ (a * b).tdiv d = c := by
  simp [mulDiv, and_assoc]

theorem mulPrecision_ok (a b c : Int) : mulPrecision a b = .ok c ↔
    (InRange a ∧ InRange b ∧ InRange ((a * b).tdiv PRECISION)) ∧ (a * b).tdiv PRECISION = c := by
  have h0 : PRECISION ≠ 0 := by decide
  have h1 : InRange PRECISION := by decide
  simp [mulPrecision, h0, h1]

theorem divPrecision_ok (a b c : Int) : divPrecision a b = .ok c ↔
    (b ≠ 0 ∧ InRange a ∧ InRange b ∧ InRange ((a * PRECISION).tdiv b)) ∧ (a * PRECISION).tdiv b = c := by
  have h1 : InRange PRECISION := by decide
  simp [divPrecision, h1]

theorem applyBps_ok (a : Int) (bps : Nat) (c : Int) : applyBps a bps = .ok c ↔
    ((bps : Int) ≤ BPS_DENOMINATOR ∧ InRange a ∧ InRange ((a * bps).tdiv BPS_DENOMINATOR)) ∧
      (a * bps).tdiv BPS_DENOMINATOR = c := by
  have h0 : BPS_DENOMINATOR ≠ 0 := by decide
  have h1 : InRange BPS_DENOMINATOR := by decide
  have h2 : (bps : Int) ≤ BPS_DENOMINATOR → InRange bps := fun h => by
    simp only [InRange, I128_MIN, I128_MAX, BPS_DENOMINATOR] at *
    omega
  simp only [applyBps, bind_ok_iff, revertIf_ok, mulDiv_ok, gt_iff_lt, not_lt, exists_const]
  constructor
  · rintro ⟨hb, ⟨-, ha, -, -, hr⟩, hc⟩; exact ⟨⟨hb, ha, hr⟩, hc⟩
  · rintro ⟨⟨hb, ha, hr⟩, hc⟩; exact ⟨hb, ⟨h0, ha, h2 hb, h1, hr⟩, hc⟩

theorem mulPrecisionUp_ok (a b c : Int) : mulPrecisionUp a b = .ok c ↔
    (InRange a ∧ InRange b ∧ 0 < a * b ∧ InRange ((a * b - 1).tdiv PRECISION + 1)) ∧
      (a * b - 1).tdiv PRECISION + 1 = c := by
  simp [mulPrecisionUp, and_assoc]

theorem mulPrecision_le {a b c : Int} (h : mulPrecision a b = .ok c) (hab : 0 ≤ a * b) : c * PRECISION ≤ a * b := by
  rw [mulPrecision_ok] at h
  rw [← h.2, Int.tdiv_eq_ediv_of_nonneg hab]
  exact Int.ediv_mul_le _ (by decide)

theorem le_mulPrecisionUp {a b c : Int} (h : mulPrecisionUp a b = .ok c) : a * b ≤ c * PRECISION := by
  rw [mulPrecisionUp_ok] at h
  obtain ⟨⟨-, -, hpos, -⟩, rfl⟩ := h
  rw [Int.tdiv_eq_ediv_of_nonneg (by omega)]
  simp only [PRECISION]
  omega

theorem tdiv_near (t : Int) : |t.tdiv PRECISION * PRECISION - t| < PRECISION := by
  have hdecomp := Int.mul_tdiv_add_tmod t PRECISION
  have hlow := Int.lt_tmod_of_pos t (b := PRECISION) (by decide)
  have hhigh := Int.tmod_lt_of_pos t (b := PRECISION) (by decide)
  rw [mul_comm] at hdecomp
  rw [abs_lt]
  constructor <;> omega

theorem abs_eq (a : Int) : abs a = |a| := by
  unfold abs
  split
  · rw [abs_of_neg (by assumption)]
  · rw [abs_of_nonneg (by omega)]

theorem min_eq (a b : Int) : min a b = Min.min a b := by
  unfold min
  omega

theorem max_eq (a b : Int) : max a b = Max.max a b := by
  unfold max
  omega

end M

/-! ## Decimals: USDC token units (6 decimals) and the 1e18 ledger -/

namespace Decimals

def SCALE : Nat := 10 ^ 12

def MAX_TOKEN_AMOUNT : Nat := (2 ^ 127 - 1) / SCALE

def toInternal (amount6 : Nat) : Except Error Int := do
  revertIf (amount6 > MAX_TOKEN_AMOUNT) .mathOverflow
  pure ((amount6 * SCALE : Nat) : Int)

/-- Tokens that may be paid out for an internal credit, rounded down. -/
def toTokenDown (internal18 : Int) : Except Error Nat := do
  revertIf (internal18 < 0) .invalidAmount
  pure (internal18.toNat / SCALE)

@[simp] theorem toInternal_ok (amount6 : Nat) (v : Int) :
    toInternal amount6 = .ok v ↔ amount6 ≤ MAX_TOKEN_AMOUNT ∧ (amount6 : Int) * SCALE = v := by
  simp [toInternal]

@[simp] theorem toTokenDown_ok (v : Int) (n : Nat) :
    toTokenDown v = .ok n ↔ 0 ≤ v ∧ v.toNat / SCALE = n := by
  simp [toTokenDown]

theorem toTokenDown_le {v : Int} {n : Nat} (h : toTokenDown v = .ok n) : (n : Int) * SCALE ≤ v := by
  obtain ⟨h0, rfl⟩ := (toTokenDown_ok v n).1 h
  have hle := Nat.div_mul_le_self v.toNat SCALE
  omega

end Decimals
end Kryon
