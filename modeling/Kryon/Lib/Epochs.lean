import Kryon.Lib.Book
import Mathlib.Algebra.Order.Ring.Int
import Mathlib.Algebra.Order.BigOperators.Group.Finset
import Mathlib.Tactic.Ring
/-!
# Epochs — share ledgers whose holdings are voided by retiring an epoch

A ledger keeps a total and, for every account, an amount tagged with the epoch it was minted in.  Only holdings of the
present epoch are live; retiring the epoch voids every holding at once and resets the total without touching them.  A
holding may also be dropped; the ledger's total says nothing of it, so it must not be live.
-/
namespace Epochs

open Function (update)

variable {A : Type}

structure State (A : Type) where
  epoch : Nat
  total : Int
  held : A → Nat × Int

def State.live (s : State A) (a : A) : Int := if (s.held a).1 = s.epoch then (s.held a).2 else 0

inductive Event (A : Type) where
  | mint (a : A) (x : Int)
  | burn (a : A) (x : Int)
  | drop (a : A)
  | retire

variable [DecidableEq A]

def State.hold (s : State A) (a : A) (h : Nat × Int) : State A := { s with held := update s.held a h }

inductive Step (s : State A) : Event A → State A → Prop where
  | mint (a : A) (x : Int) : Step s (.mint a x) { s.hold a (s.epoch, s.live a + x) with total := s.total + x }
  | burn (a : A) (x : Int) (ha : (s.held a).1 = s.epoch) :
      Step s (.burn a x) { s.hold a (s.epoch, (s.held a).2 - x) with total := s.total - x }
  | drop (a : A) {h : Nat × Int} (he : h.1 ≤ s.epoch) (h0 : h.2 = 0) : Step s (.drop a) (s.hold a h)
  | retire : Step s .retire { s with epoch := s.epoch + 1, total := 0 }

variable {s t : State A}

theorem live_hold (s : State A) (a : A) (h : Nat × Int) :
    (s.hold a h).live = update s.live a (if h.1 = s.epoch then h.2 else 0) :=
  Book.map_update (fun h : Nat × Int => if h.1 = s.epoch then h.2 else 0) s.held a h

theorem live_drop {a : A} (h : Step s (.drop a) t) : t.live = update s.live a 0 := by
  cases h with
  | drop a he h0 =>
    rw [live_hold, h0]
    simp

theorem mint_total {a : A} {x : Int} (h : Step s (.mint a x) t) : t.total = s.total + x := by
  cases h with
  | mint a x => rfl

theorem burn_total {a : A} {x : Int} (h : Step s (.burn a x) t) : t.total = s.total - x := by
  cases h with
  | burn a x ha => rfl

variable [Fintype A]

/-- The total is that of the live holdings, and no holding is of an epoch to come. -/
structure Conserved (s : State A) : Prop where
  total : s.total = ∑ a, s.live a
  past : ∀ a, (s.held a).1 ≤ s.epoch

omit [Fintype A] in
theorem hold_past (hs : ∀ a, (s.held a).1 ≤ s.epoch) {a : A} {h : Nat × Int} (he : h.1 ≤ s.epoch) (b : A) :
    ((s.hold a h).held b).1 ≤ s.epoch := by
  simp only [State.hold]
  by_cases hb : b = a
  · rw [hb, Function.update_self]
    exact he
  · rw [Function.update_of_ne hb]
    exact hs b

theorem sum_live_hold (s : State A) (a : A) (h : Nat × Int) :
    ∑ b, (s.hold a h).live b = ∑ b, s.live b - s.live a + if h.1 = s.epoch then h.2 else 0 := by
  rw [live_hold]
  exact Book.total_update s.live a _

/-- **Every event but the drop of a live holding keeps the total.** -/
theorem step_conserved {e : Event A} (hs : Conserved s) (he : ∀ a, e = .drop a → s.live a = 0) (h : Step s e t) :
    Conserved t := by
  cases h with
  | mint a x =>
    refine ⟨?_, hold_past hs.past (le_refl _)⟩
    show s.total + x = ∑ b, (s.hold a (s.epoch, s.live a + x)).live b
    rw [sum_live_hold, if_pos rfl, hs.total]
    ring
  | burn a x ha =>
    refine ⟨?_, hold_past hs.past (le_refl _)⟩
    show s.total - x = ∑ b, (s.hold a (s.epoch, (s.held a).2 - x)).live b
    have hlive : s.live a = (s.held a).2 := if_pos ha
    rw [sum_live_hold, if_pos rfl, hs.total, hlive]
    ring
  | drop a hpast h0 =>
    refine ⟨?_, hold_past hs.past hpast⟩
    rw [sum_live_hold, he a rfl, h0, ite_self, sub_zero, add_zero]
    exact hs.total
  | retire =>
    refine ⟨?_, fun a => (hs.past a).trans (Nat.le_succ _)⟩
    refine (Finset.sum_eq_zero fun a _ => if_neg ?_).symm
    have := hs.past a
    show (s.held a).1 ≠ s.epoch + 1
    omega

/-- **The drop of a live holding leaves the total above the live holdings by it.** -/
theorem drop_excess {a : A} (hs : s.total = ∑ b, s.live b) (h : Step s (.drop a) t) :
    t.total = ∑ b, t.live b + s.live a := by
  have hlive := live_drop h
  cases h with
  | drop a he h0 =>
    have hsum : ∑ b, update s.live a 0 b = ∑ b, s.live b - s.live a + 0 := Book.total_update s.live a 0
    rw [hlive, hsum, ← hs]
    show s.total = _
    ring

/-- The live holdings are not negative and sum to no more than the total. -/
structure Covered (s : State A) : Prop where
  total : ∑ a, s.live a ≤ s.total
  live : ∀ a, 0 ≤ s.live a
  past : ∀ a, (s.held a).1 ≤ s.epoch

omit [DecidableEq A] in
theorem Covered.le_total (hs : Covered s) (a : A) : s.live a ≤ s.total :=
  (Finset.single_le_sum (fun b _ => hs.live b) (Finset.mem_univ a)).trans hs.total

theorem hold_covered (hs : Covered s) {a : A} {h : Nat × Int} {total : Int} (he : h.1 ≤ s.epoch)
    (hnonneg : 0 ≤ if h.1 = s.epoch then h.2 else 0)
    (htotal : s.total - s.live a + (if h.1 = s.epoch then h.2 else 0) ≤ total) :
    Covered { s.hold a h with total := total } := by
  have hsum := sum_live_hold s a h
  have hcover := hs.total
  refine ⟨?_, fun b => ?_, hold_past hs.past he⟩
  · show ∑ b, (s.hold a h).live b ≤ total
    omega
  · show 0 ≤ (s.hold a h).live b
    rw [live_hold]
    by_cases hb : b = a
    · rw [hb, Function.update_self]
      exact hnonneg
    · rw [Function.update_of_ne hb]
      exact hs.live b

/-- **Every event keeps the holdings covered**, also the drop of a live one. -/
theorem step_covered {e : Event A} (hs : Covered s) (hmint : ∀ a x, e = .mint a x → 0 ≤ x)
    (hburn : ∀ a x, e = .burn a x → x ≤ s.live a) (h : Step s e t) : Covered t := by
  cases h with
  | mint a x =>
    have hx := hmint a x rfl
    have hlive := hs.live a
    refine hold_covered hs (le_refl _) ?_ ?_
    · rw [if_pos rfl]
      exact add_nonneg hlive hx
    · rw [if_pos rfl]
      show s.total - s.live a + (s.live a + x) ≤ s.total + x
      omega
  | burn a x ha =>
    have hx := hburn a x rfl
    have hlive : s.live a = (s.held a).2 := if_pos ha
    rw [hlive] at hx
    refine hold_covered hs (le_refl _) ?_ ?_
    · rw [if_pos rfl]
      exact sub_nonneg.2 hx
    · rw [if_pos rfl, hlive]
      show s.total - (s.held a).2 + ((s.held a).2 - x) ≤ s.total - x
      omega
  | drop a hpast h0 =>
    refine hold_covered hs hpast ?_ ?_
    · rw [h0, ite_self]
    · rw [h0, ite_self, add_zero]
      exact sub_le_self _ (hs.live a)
  | retire =>
    have hlive : ∀ a, State.live { s with epoch := s.epoch + 1, total := 0 } a = 0 := fun a => if_neg (by
      have hpast := hs.past a
      show (s.held a).1 ≠ s.epoch + 1
      omega)
    refine ⟨?_, fun a => ?_, fun a => (hs.past a).trans (Nat.le_succ _)⟩
    · rw [Finset.sum_congr rfl fun a _ => hlive a, Finset.sum_const_zero]
    · rw [hlive a]

end Epochs
