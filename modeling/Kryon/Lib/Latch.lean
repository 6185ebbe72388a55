import Mathlib.Data.Finset.Max
import Mathlib.Data.Set.Card
import Mathlib.Order.Interval.Finset.Nat
import Kryon.Lib.Transition
/-!
# Latches — a hold that runs out, can be ended early, and must rest before the next

A latch is a deadline read against a clock: it holds while the clock is before the deadline.  Arming it puts the deadline
`hold` ahead and is allowed only once `rest` has passed since the last deadline; releasing it moves the deadline to the
present.  `Turn` is what one step may do to the reading, `Watched` collects the times a run passed through while it held,
and `Spaced` is what such a set of times looks like: two held times lie within one hold or on the two sides of a rest.
A machine whose every step turns a latch is `Latched`.
-/
namespace Latch

open Transition

universe u v

/-- The clock and the deadline; a deadline of zero was never set. -/
structure Reading where
  now : Nat
  till : Nat

/-- What one step may do to a latch, and whether it arms it. -/
inductive Turn (hold rest : Nat) (r : Reading) : Bool → Reading → Prop where
  | idle {now : Nat} (h : r.now ≤ now) : Turn hold rest r false ⟨now, r.till⟩
  | arm (h : r.till = 0 ∨ r.till + rest ≤ r.now) : Turn hold rest r true ⟨r.now, r.now + hold⟩
  | release (h : r.now < r.till) : Turn hold rest r false ⟨r.now, r.now⟩

variable {hold rest : Nat} {H : Set Nat} {r r' : Reading} {arms : Bool}

theorem Turn.idle_of_eq (hnow : r.now ≤ r'.now) (htill : r'.till = r.till) : Turn hold rest r false r' := by
  obtain ⟨now, till⟩ := r'
  obtain rfl : till = r.till := htill
  exact Turn.idle hnow

theorem Turn.now_le (h : Turn hold rest r arms r') : r.now ≤ r'.now := by
  cases h with
  | idle h => exact h
  | arm _ => exact le_refl _
  | release _ => exact le_refl _

/-- The deadline is at most one hold ahead. -/
theorem Turn.till_le (h : Turn hold rest r arms r') (hr : r.till ≤ r.now + hold) : r'.till ≤ r'.now + hold := by
  cases h with
  | idle h => exact hr.trans (Nat.add_le_add_right h hold)
  | arm _ => exact le_refl _
  | release _ => exact Nat.le_add_right _ _

theorem Turn.before_till {x : Nat} (h : Turn hold rest r arms r') (hr : x ≤ r.now ∧ x ≤ r.till) :
    x ≤ r'.now ∧ x ≤ r'.till := by
  cases h with
  | idle h => exact ⟨hr.1.trans h, hr.2⟩
  | arm _ => exact ⟨hr.1, hr.1.trans (Nat.le_add_right _ _)⟩
  | release _ => exact ⟨hr.1, hr.1⟩

/-- Only arming puts the deadline off. -/
theorem Turn.till_le_of_not_arms (h : Turn hold rest r false r') : r'.till ≤ r.till := by
  cases h with
  | idle _ => exact le_refl _
  | release h => exact le_of_lt h

/-- A turn that does not arm the latch leaves the deadline where it is, or brings it to the present. -/
theorem Turn.of_not_arms (h : Turn hold rest r false r') :
    r.now ≤ r'.now ∧ r'.till = r.till ∨ r'.now = r.now ∧ r'.till = r.now := by
  cases h with
  | idle h => exact Or.inl ⟨h, rfl⟩
  | release _ => exact Or.inr ⟨rfl, rfl⟩

theorem Turn.cooled (h : Turn hold rest r true r') : r.till = 0 ∨ r.till + rest ≤ r.now := by
  cases h with
  | arm h => exact h

theorem Turn.armed (h : Turn hold rest r true r') : r'.till = r.now + hold := by
  cases h with
  | arm _ => rfl

/-! ## Spaced times -/

/-- Two times of the set are within one hold, or on the two sides of a rest the set leaves out. -/
def Spaced (hold rest : Nat) (H : Set Nat) : Prop :=
  ∀ x ∈ H, ∀ y ∈ H, x < y → y < x + hold ∨ ∃ gap, x < gap ∧ gap + rest ≤ y ∧ ∀ z ∈ H, z < gap ∨ gap + rest ≤ z

/-- **An uninterrupted stretch is at most one hold long.** -/
theorem Spaced.stretch_le (h : Spaced hold rest H) (hhold : 0 < hold) (hrest : 0 < rest) {a n : Nat}
    (hH : ∀ x, a ≤ x → x < a + n → x ∈ H) : n ≤ hold := by
  by_contra hn
  have hfirst := hH a (le_refl a) (by omega)
  have hlast := hH (a + hold) (by omega) (by omega)
  rcases h a hfirst (a + hold) hlast (by omega) with hlt | ⟨gap, hx, hy, hgap⟩
  · omega
  · have hout := hgap gap (hH gap (by omega) (by omega))
    omega

/-- **A window of one hold and one rest contains at most one hold of the times.** -/
theorem Spaced.ncard_le (h : Spaced hold rest H) (hhold : 0 < hold) (a : Nat) :
    (H ∩ Set.Ico a (a + (hold + rest))).ncard ≤ hold := by
  classical
  set W := (Finset.Ico a (a + (hold + rest))).filter (· ∈ H) with hW
  have hcoe : H ∩ Set.Ico a (a + (hold + rest)) = W := by
    ext x
    simp [hW, and_comm]
  have hmem : ∀ x ∈ W, x ∈ H ∧ a ≤ x ∧ x < a + (hold + rest) := by
    intro x hx
    rw [hW, Finset.mem_filter, Finset.mem_Ico] at hx
    exact ⟨hx.2, hx.1⟩
  rw [hcoe, Set.ncard_coe_finset]
  by_cases hne : W.Nonempty
  · have hmin := hmem _ (W.min'_mem hne)
    have hmax := hmem _ (W.max'_mem hne)
    have hle := W.min'_le_max' hne
    by_cases heq : W.max' hne < W.min' hne + hold
    · have hsub : W ⊆ Finset.Ico (W.min' hne) (W.min' hne + hold) := fun x hx =>
        Finset.mem_Ico.2 ⟨W.min'_le x hx, lt_of_le_of_lt (W.le_max' x hx) heq⟩
      have hcard := Finset.card_le_card hsub
      rwa [Nat.card_Ico, Nat.add_sub_cancel_left] at hcard
    · obtain ⟨gap, hx, hy, hgap⟩ :=
        (h _ hmin.1 _ hmax.1 (by omega)).resolve_left heq
      have hsub : W ⊆ Finset.Ico a (a + (hold + rest)) \ Finset.Ico gap (gap + rest) := by
        intro x hx
        have hout := hgap x (hmem x hx).1
        rw [Finset.mem_sdiff, Finset.mem_Ico, Finset.mem_Ico]
        exact ⟨(hmem x hx).2, by omega⟩
      have hinner : Finset.Ico gap (gap + rest) ⊆ Finset.Ico a (a + (hold + rest)) :=
        Finset.Ico_subset_Ico (by omega) (by omega)
      have hcard := Finset.card_le_card hsub
      rw [Finset.card_sdiff_of_subset hinner, Nat.card_Ico, Nat.card_Ico] at hcard
      omega
  · rw [Finset.not_nonempty_iff_eq_empty] at hne
    rw [hne, Finset.card_empty]
    exact Nat.zero_le _

/-! ## Watched runs -/

variable {σ : Type u} {ℓ : Type v}

/-- The times a step passes through while the latch holds. -/
def passed (r r' : Reading) : Set Nat := {x | r.now ≤ x ∧ x < r'.now ∧ x < r.till}

theorem mem_passed {x : Nat} : x ∈ passed r r' ↔ r.now ≤ x ∧ x < r'.now ∧ x < r.till := Iff.rfl

theorem passed_eq_empty (r r' : Reading) (h : r'.now = r.now) : passed r r' = ∅ := by
  ext x
  rw [mem_passed, h]
  exact ⟨fun hx => absurd hx.1 (not_le.2 hx.2.1), fun hx => absurd hx (Set.notMem_empty x)⟩

/-- The times so far at which the latch held.  They lie in the past and before the deadline; the present hold began at
`since`, and those before it ended a rest earlier. -/
structure Kept (hold rest : Nat) (r : Reading) (H : Set Nat) : Prop where
  past : ∀ x ∈ H, x < r.now ∧ x < r.till
  present : ∃ since, since ≤ r.now ∧ r.till ≤ since + hold ∧ ∀ x ∈ H, since ≤ x ∨ x + rest < since
  spaced : Spaced hold rest H

theorem Kept.start (h : r.till ≤ r.now + hold) : Kept hold rest r ∅ where
  past := fun _ hx => absurd hx (Set.notMem_empty _)
  present := ⟨r.till - hold, by omega, by omega, fun _ hx => absurd hx (Set.notMem_empty _)⟩
  spaced := fun _ hx => absurd hx (Set.notMem_empty _)

/-- **Before a latch is armed it has rested.** -/
theorem Kept.rested (h : Kept hold rest r H) (harm : r.till = 0 ∨ r.till + rest ≤ r.now) : ∀ x ∈ H, x + rest < r.now := by
  intro x hx
  have hpast := h.past x hx
  omega

/-- The times a latch passes through while it stays as it is are spaced from those before. -/
theorem Kept.idle (h : Kept hold rest r H) {now : Nat} (hnow : r.now ≤ now) :
    Kept hold rest ⟨now, r.till⟩ (H ∪ passed r ⟨now, r.till⟩) := by
  obtain ⟨since, hsince, hend, hbefore⟩ := h.present
  have hsplit : ∀ x ∈ H ∪ passed r ⟨now, r.till⟩, since ≤ x ∨ x + rest < since := by
    rintro x (hx | hx)
    · exact hbefore x hx
    · exact Or.inl (hsince.trans hx.1)
  refine ⟨?_, ⟨since, hsince.trans hnow, hend, hsplit⟩, ?_⟩
  · rintro x (hx | hx)
    · exact ⟨lt_of_lt_of_le (h.past x hx).1 hnow, (h.past x hx).2⟩
    · exact hx.2
  · have htill : ∀ y ∈ H ∪ passed r ⟨now, r.till⟩, y < since + hold := by
      rintro y (hy | hy)
      · exact lt_of_lt_of_le (h.past y hy).2 hend
      · exact lt_of_lt_of_le hy.2.2 hend
    intro x hx y hy hxy
    rcases hsplit x hx with hpres | hearlier
    -- the earlier time is in the present hold, so both are
    · exact Or.inl (by have := htill y hy; omega)
    · rcases hsplit y hy with hy' | hy'
      -- the rest before the present hold separates them
      · refine Or.inr ⟨since - rest, by omega, by omega, fun z hz => ?_⟩
        have hz' := hsplit z hz
        omega
      -- both are before the present hold
      · have hxH : x ∈ H := hx.resolve_right fun hp => by have := hp.1; omega
        have hyH : y ∈ H := hy.resolve_right fun hp => by have := hp.1; omega
        rcases h.spaced x hxH y hyH hxy with hlt | ⟨gap, hg, hg', hgap⟩
        · exact Or.inl hlt
        · refine Or.inr ⟨gap, hg, hg', ?_⟩
          rintro z (hz | hz)
          · exact hgap z hz
          · exact Or.inr (by have := hz.1; omega)

/-- **Every turn keeps the times spaced.** -/
theorem Kept.turn (h : Kept hold rest r H) (hturn : Turn hold rest r arms r') : Kept hold rest r' (H ∪ passed r r') := by
  cases hturn with
  | idle hnow => exact h.idle hnow
  | arm harm =>
    rw [passed_eq_empty r ⟨r.now, r.now + hold⟩ rfl, Set.union_empty]
    refine ⟨fun x hx => ⟨(h.past x hx).1, Nat.lt_add_right _ (h.past x hx).1⟩, ?_, h.spaced⟩
    exact ⟨r.now, le_refl _, le_refl _, fun x hx => Or.inr (h.rested harm x hx)⟩
  | release hheld =>
    rw [passed_eq_empty r ⟨r.now, r.now⟩ rfl, Set.union_empty]
    obtain ⟨since, hsince, hend, hbefore⟩ := h.present
    exact ⟨fun x hx => ⟨(h.past x hx).1, (h.past x hx).1⟩, ⟨since, hsince, (le_of_lt hheld).trans hend, hbefore⟩, h.spaced⟩

/-- A run with the times it passed through while `on` held. -/
inductive Watched (M : Machine σ ℓ) (now : σ → Nat) (on : σ → Nat → Prop) (s : σ) :
    List ℓ → σ → Set Nat → Prop where
  | nil : Watched M now on s [] s ∅
  | snoc {t u : σ} {ls : List ℓ} {l : ℓ} {H : Set Nat} (h : Watched M now on s ls t H) (hl : M.step t l u) :
      Watched M now on s (ls ++ [l]) u (H ∪ {x | now t ≤ x ∧ x < now u ∧ on t x})

section Run
variable {M : Machine σ ℓ} {now : σ → Nat} {on : σ → Nat → Prop} {s t u : σ} {ls : List ℓ} {l : ℓ}

theorem Watched.run (h : Watched M now on s ls t H) : Run M s ls t := by
  induction h with
  | nil => exact Run.nil
  | snoc _ hl ih => exact ih.snoc hl

/-- Every run can be watched. -/
theorem Watched.exists_of_run (now : σ → Nat) (on : σ → Nat → Prop) (h : Run M s ls t) :
    ∃ H, Watched M now on s ls t H := by
  induction h with
  | nil => exact ⟨∅, Watched.nil⟩
  | snoc _ hl ih =>
    obtain ⟨H, hw⟩ := ih
    exact ⟨_, hw.snoc hl⟩

/-- Every step of the machine turns the latch, and `arms` says which labels arm it. -/
def Latched (M : Machine σ ℓ) (hold rest : Nat) (read : σ → Reading) (arms : ℓ → Bool) : Prop :=
  ∀ s l t, M.step s l t → Turn hold rest (read s) (arms l) (read t)

variable {read : σ → Reading} {arms : ℓ → Bool}

theorem Latched.restrict (hM : Latched M hold rest read arms) (P : σ → ℓ → Prop) :
    Latched (M.restrict P) hold rest read arms := fun s l t h => hM s l t h.2

/-- **Over a watched run of a latch the held times stay spaced.** -/
theorem Latched.kept (hM : Latched M hold rest read arms) (h : Watched M (fun s => (read s).now) on s ls t H)
    (hon : ∀ s l t x, M.step s l t → (on s x ↔ x < (read s).till)) (hs : (read s).till ≤ (read s).now + hold) :
    Kept hold rest (read t) H := by
  induction h with
  | nil => exact Kept.start hs
  | snoc _ hl ih =>
    rename_i t u _ l H _
    have hset : {x | (read t).now ≤ x ∧ x < (read u).now ∧ on t x} = passed (read t) (read u) := by
      ext x
      exact and_congr_right fun _ => and_congr_right fun _ => hon t l u x hl
    rw [hset]
    exact ih.turn (hM _ _ _ hl)

/-- **Over the steps that do not arm the latch it holds only before the deadline it started with.** -/
theorem Latched.before (hM : Latched M hold rest read arms) (h : Watched M now on s ls t H)
    (hon : ∀ s l t x, M.step s l t → (on s x ↔ x < (read s).till)) (hls : ∀ l ∈ ls, arms l = false) :
    (read t).till ≤ (read s).till ∧ ∀ x ∈ H, x < (read s).till := by
  induction h with
  | nil => exact ⟨le_refl _, fun _ hx => absurd hx (Set.notMem_empty _)⟩
  | snoc _ hl ih =>
    rename_i t u _ l H _
    obtain ⟨hle, hH⟩ := ih fun l hmem => hls l (List.mem_append_left _ hmem)
    have hlast := hls _ (List.mem_append_right _ (List.mem_singleton_self _))
    have hturn := hM _ _ _ hl
    rw [hlast] at hturn
    refine ⟨hturn.till_le_of_not_arms.trans hle, ?_⟩
    rintro x (hx | hx)
    · exact hH x hx
    · exact lt_of_lt_of_le ((hon t l u x hl).1 hx.2.2) hle

/-- **A hold lasts at most as long as it was armed for**, whatever the steps after do that do not arm it again. -/
theorem Latched.lasts (hM : Latched M hold rest read arms) (hpre : Turn hold rest r true (read s))
    (h : Watched M now on s ls t H) (hon : ∀ s l t x, M.step s l t → (on s x ↔ x < (read s).till))
    (hls : ∀ l ∈ ls, arms l = false) : (read t).till ≤ r.now + hold ∧ ∀ x ∈ H, x < r.now + hold := by
  rw [← hpre.armed]
  exact hM.before h hon hls

/-- **A latch that held at the start of a run has rested since when it is armed at its end.** -/
theorem Latched.rests (hM : Latched M hold rest read arms) (h : Run M s ls t) (hs : (read s).now < (read s).till)
    (h0 : 0 < (read s).now) (hpost : Turn hold rest (read t) true r) : (read s).now + rest ≤ (read t).now := by
  have hle := h.preserves (fun u => (read s).now ≤ (read u).now ∧ (read s).now ≤ (read u).till)
    (fun _ _ _ hu hl => (hM _ _ _ hl).before_till hu) ⟨le_refl _, le_of_lt hs⟩
  have hcooled := hpost.cooled
  omega

/-- **No deadline of a latch that starts unset is more than one hold ahead.** -/
theorem Latched.till_le (hM : Latched M hold rest read arms) (hinit : ∀ s, M.init s → (read s).till = 0)
    (h : Reachable M s) : (read s).till ≤ (read s).now + hold := by
  refine h.invariant (fun s => (read s).till ≤ (read s).now + hold) ?_ ?_
  · intro s hs
    rw [hinit s hs]
    exact Nat.zero_le _
  · exact fun _ _ _ _ hle hl => (hM _ _ _ hl).till_le hle

end Run
end Latch
