import Mathlib.Algebra.BigOperators.Intervals
import Mathlib.Algebra.Order.BigOperators.Group.Finset
import Mathlib.Tactic.Linarith
import Kryon.Lib.Transition
/-!
# Averages — a running total of the value that stood

A value stands from the time it is set until it is replaced.  `Charted` is a run with the value that stood at each time it
passed through; a `Total` adds up what stood since it was opened, and is told only when the value changes (`Tracks`).
-/
namespace Average

open Transition

universe u v
variable {σ : Type u} {ℓ : Type v}

/-- The value standing since `since`, and the total of what stood from `start` until then. -/
structure Total where
  value : Int
  since : Nat
  total : Int
  start : Nat

namespace Total

/-- Counts the standing value up to `now`, where it is replaced. -/
def change (a : Total) (now : Nat) (value : Int) : Total :=
  ⟨value, now, a.total + a.value * ((now - a.since : Nat) : Int), a.start⟩

/-- The total is of what stood, and the standing value stood since. -/
structure Tracks (a : Total) (f : Nat → Int) (now : Nat) : Prop where
  start_le : a.start ≤ a.since
  since_le : a.since ≤ now
  total : a.total = ∑ x ∈ Finset.Ico a.start a.since, f x
  standing : ∀ x, a.since ≤ x → x < now → f x = a.value

variable {a : Total} {f : Nat → Int} {now : Nat}

theorem Tracks.opened (value : Int) (f : Nat → Int) (now : Nat) : Tracks ⟨value, now, 0, now⟩ f now where
  start_le := le_refl now
  since_le := le_refl now
  total := by rw [Finset.Ico_self, Finset.sum_empty]
  standing := fun _ hx hx' => absurd hx (not_le.2 hx')

/-- **Counted up to now, the total is of everything that stood.** -/
theorem Tracks.total_now (h : Tracks a f now) (value : Int) :
    (a.change now value).total = ∑ x ∈ Finset.Ico a.start now, f x := by
  have hlast : ∑ x ∈ Finset.Ico a.since now, f x = a.value * ((now - a.since : Nat) : Int) := by
    rw [Finset.sum_congr rfl fun x hx => h.standing x (Finset.mem_Ico.1 hx).1 (Finset.mem_Ico.1 hx).2,
      Finset.sum_const, Nat.card_Ico, nsmul_eq_mul, mul_comm]
  rw [← Finset.sum_Ico_consecutive f h.start_le h.since_le, hlast, ← h.total]
  rfl

theorem Tracks.change (h : Tracks a f now) (value : Int) : Tracks (a.change now value) f now where
  start_le := h.start_le.trans h.since_le
  since_le := le_refl now
  total := h.total_now value
  standing := fun _ hx hx' => absurd hx (not_le.2 hx')

/-- Time passes with the value standing. -/
theorem Tracks.pass (h : Tracks a f now) {later : Nat} (hle : now ≤ later) :
    Tracks a (fun x => if now ≤ x ∧ x < later then a.value else f x) later where
  start_le := h.start_le
  since_le := h.since_le.trans hle
  total := by
    rw [h.total]
    refine Finset.sum_congr rfl fun x hx => ?_
    have hlt : x < now := lt_of_lt_of_le (Finset.mem_Ico.1 hx).2 h.since_le
    rw [if_neg fun hc => absurd hlt (not_lt.2 hc.1)]
  standing := by
    intro x hx hx'
    by_cases hc : now ≤ x ∧ x < later
    · rw [if_pos hc]
    · rw [if_neg hc]
      exact h.standing x hx (not_le.1 fun hle => hc ⟨hle, hx'⟩)

end Total

/-- **The floor of an average lies between the bounds of what it averages.** -/
theorem floor_between {f : Nat → Int} {start now : Nat} (hlt : start < now) {lo hi : Int}
    (h : ∀ x, start ≤ x → x < now → lo ≤ f x ∧ f x ≤ hi) :
    lo ≤ (∑ x ∈ Finset.Ico start now, f x) / ((now - start : Nat) : Int) ∧
      (∑ x ∈ Finset.Ico start now, f x) / ((now - start : Nat) : Int) ≤ hi := by
  have hpos : (0 : Int) < ((now - start : Nat) : Int) := by omega
  have hmem : ∀ x ∈ Finset.Ico start now, lo ≤ f x ∧ f x ≤ hi := fun x hx =>
    h x (Finset.mem_Ico.1 hx).1 (Finset.mem_Ico.1 hx).2
  have hlo := Finset.card_nsmul_le_sum (Finset.Ico start now) f lo fun x hx => (hmem x hx).1
  have hhi := Finset.sum_le_card_nsmul (Finset.Ico start now) f hi fun x hx => (hmem x hx).2
  rw [Nat.card_Ico, nsmul_eq_mul] at hlo hhi
  constructor
  · rw [Int.le_ediv_iff_mul_le hpos, mul_comm]
    exact hlo
  · refine Int.ediv_le_of_le_mul hpos ?_
    rw [mul_comm]
    exact hhi

/-- A run with the value that stood at each time it passed through. -/
inductive Charted (M : Machine σ ℓ) (now : σ → Nat) (value : σ → Int) (s : σ) :
    List ℓ → σ → (Nat → Int) → Prop where
  | nil (f : Nat → Int) : Charted M now value s [] s f
  | snoc {t u : σ} {ls : List ℓ} {l : ℓ} {f : Nat → Int} (h : Charted M now value s ls t f) (hl : M.step t l u) :
      Charted M now value s (ls ++ [l]) u fun x => if now t ≤ x ∧ x < now u then value t else f x

variable {M : Machine σ ℓ} {now : σ → Nat} {value : σ → Int} {s t : σ} {ls : List ℓ} {f : Nat → Int}

theorem Charted.run (h : Charted M now value s ls t f) : Run M s ls t := by
  induction h with
  | nil => exact Run.nil
  | snoc _ hl ih => exact ih.snoc hl

theorem Charted.exists_of_run (now : σ → Nat) (value : σ → Int) (h : Run M s ls t) :
    ∃ f, Charted M now value s ls t f := by
  induction h with
  | nil => exact ⟨fun _ => 0, Charted.nil _⟩
  | snoc _ hl ih =>
    obtain ⟨f, hf⟩ := ih
    exact ⟨_, hf.snoc hl⟩

end Average
