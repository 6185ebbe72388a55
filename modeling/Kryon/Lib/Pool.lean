import Mathlib.Algebra.Order.Ring.Defs
import Mathlib.Tactic.Linarith
import Mathlib.Tactic.Ring
/-!
# Share pools

A pool is a value and a number of shares in it.  A mint adds value for shares at no better than the present price, a burn
takes value for shares at no better than it, and a loss takes value for nothing, voiding the shares when nothing is left.
Prices are compared cross-multiplied.  Burning what a mint gave returns at most what was paid in (`round_trip`).
-/
namespace Pool

universe u
variable {R : Type u}

structure State (R : Type u) where
  value : R
  shares : R

inductive Event (R : Type u) where
  | mint (paid minted : R)
  | burn (burned paid : R)
  | loss (lost : R)

variable [CommRing R] [LinearOrder R]

inductive Step (s : State R) : Event R → State R → Prop where
  | mint {v m : R} (hv : 0 < v) (hm : 0 < m) (hfair : 0 < s.shares → m * s.value ≤ v * s.shares) :
      Step s (.mint v m) ⟨s.value + v, s.shares + m⟩
  | burn {x p : R} (hx : 0 ≤ x) (hle : x ≤ s.shares) (hp : 0 ≤ p) (hpv : p ≤ s.value)
      (hfair : p * s.shares ≤ x * s.value) : Step s (.burn x p) ⟨s.value - p, s.shares - x⟩
  | loss {y : R} (hy : 0 ≤ y) (hle : y ≤ s.value) :
      Step s (.loss y) ⟨s.value - y, if y = s.value then 0 else s.shares⟩

/-- Shares stand on value. -/
structure Sound (s : State R) : Prop where
  value : 0 ≤ s.value
  shares : 0 ≤ s.shares
  backed : 0 < s.shares → 0 < s.value

/-- The value of a share in `s` is at most that in `t`. -/
def PriceLe (s t : State R) : Prop := s.value * t.shares ≤ t.value * s.shares

theorem PriceLe.refl (s : State R) : PriceLe s s := le_refl _

variable [IsStrictOrderedRing R] {s t u : State R} {e : Event R}

theorem PriceLe.trans (hs : 0 ≤ s.shares) (ht : 0 < t.shares) (hu : 0 ≤ u.shares) (h : PriceLe s t)
    (h' : PriceLe t u) : PriceLe s u := by
  have hleft : s.value * u.shares * t.shares ≤ t.value * s.shares * u.shares :=
    calc s.value * u.shares * t.shares = s.value * t.shares * u.shares := by ring
      _ ≤ t.value * s.shares * u.shares := mul_le_mul_of_nonneg_right h hu
  have hright : t.value * s.shares * u.shares ≤ u.value * s.shares * t.shares :=
    calc t.value * s.shares * u.shares = t.value * u.shares * s.shares := by ring
      _ ≤ u.value * t.shares * s.shares := mul_le_mul_of_nonneg_right h' hs
      _ = u.value * s.shares * t.shares := by ring
  exact le_of_mul_le_mul_right (hleft.trans hright) ht

/-- A burn that leaves a share leaves value. -/
theorem burn_backed {x p : R} (hs : Sound s) (hle : x < s.shares) (hfair : p * s.shares ≤ x * s.value) (hx : 0 ≤ x) :
    p < s.value := by
  have hshares : 0 < s.shares := hx.trans_lt hle
  have hlt : p * s.shares < s.value * s.shares :=
    calc p * s.shares ≤ x * s.value := hfair
      _ < s.shares * s.value := mul_lt_mul_of_pos_right hle (hs.backed hshares)
      _ = s.value * s.shares := mul_comm _ _
  exact lt_of_mul_lt_mul_right hlt hshares.le

/-- **Every event keeps the shares backed.** -/
theorem step_sound (hs : Sound s) (h : Step s e t) : Sound t := by
  cases h with
  | mint hv hm hfair =>
    exact ⟨add_nonneg hs.value hv.le, add_nonneg hs.shares hm.le, fun _ => add_pos_of_nonneg_of_pos hs.value hv⟩
  | burn hx hle hp hpv hfair =>
    exact ⟨sub_nonneg.2 hpv, sub_nonneg.2 hle, fun hrest => sub_pos.2 (burn_backed hs (sub_pos.1 hrest) hfair hx)⟩
  | loss hy hle =>
    refine ⟨sub_nonneg.2 hle, ?_, fun hrest => ?_⟩
    · split
      · exact le_refl 0
      · exact hs.shares
    · split at hrest
      · exact absurd hrest (lt_irrefl 0)
      · rename_i hne
        exact sub_pos.2 (lt_of_le_of_ne hle hne)

/-- **Only a loss lowers the price of the shares there are.** -/
theorem step_price (hs : 0 < s.shares) (he : ∀ y, e ≠ .loss y) (h : Step s e t) : PriceLe s t := by
  cases h with
  | @mint v m hv hm hfair =>
    calc s.value * (s.shares + m) = s.value * s.shares + m * s.value := by ring
      _ ≤ s.value * s.shares + v * s.shares := add_le_add_right (hfair hs) _
      _ = (s.value + v) * s.shares := by ring
  | @burn x p hx hle hp hpv hfair =>
    calc s.value * (s.shares - x) = s.value * s.shares - x * s.value := by ring
      _ ≤ s.value * s.shares - p * s.shares := sub_le_sub_left hfair _
      _ = (s.value - p) * s.shares := by ring
  | loss hy hle => exact absurd rfl (he _)

/-- **A round trip returns at most what was paid in.** -/
theorem round_trip {v m p : R} {t' : State R} (hs : 0 < s.shares) (h : Step s (.mint v m) t)
    (h' : Step t (.burn m p) t') : p ≤ v := by
  cases h with
  | mint hv hm hfair =>
    cases h' with
    | burn hx hle hp hpv hfair' =>
      have hshares : 0 < s.shares + m := add_pos hs hm
      have hscaled : p * (s.shares + m) ≤ v * (s.shares + m) :=
        calc p * (s.shares + m) ≤ m * (s.value + v) := hfair'
          _ = m * s.value + m * v := mul_add _ _ _
          _ ≤ v * s.shares + m * v := add_le_add_left (hfair hs) _
          _ = v * (s.shares + m) := by ring
      exact le_of_mul_le_mul_right hscaled hshares

end Pool
