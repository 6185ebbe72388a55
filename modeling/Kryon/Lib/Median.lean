import Mathlib.Data.Int.Init
import Mathlib.Data.List.GetD
import Mathlib.Data.List.Sort
import Mathlib.Order.Defs.LinearOrder
import Mathlib.Tactic.Linarith
/-!
# Medians — order statistics of a list

The element at an index of a sorted list is bounded by what enough of the list is bounded by (`le_getElem`,
`getElem_le`).  So a median lies in any interval that holds more than half of the list (`IsMedian.mem_of_majority`).
-/
namespace Median

universe u

section Order
variable {α : Type u} [LinearOrder α] {xs ys : List α} {a b : α} {k : Nat}

/-- **With at most `k` elements below `a`, the element at `k` is not below it.** -/
theorem le_getElem (hs : xs.Pairwise (· ≤ ·)) (hk : k < xs.length)
    (hcount : xs.length ≤ k + xs.countP fun x => decide (a ≤ x)) : a ≤ xs[k] := by
  by_contra hlt
  have hbelow : ∀ x ∈ xs.take (k + 1), ¬ decide (a ≤ x) = true := by
    intro x hx
    rw [decide_eq_true_eq]
    intro hax
    obtain ⟨i, hi, rfl⟩ := List.getElem_of_mem hx
    rw [List.length_take] at hi
    rw [List.getElem_take] at hax
    have hik : i ≤ k := by omega
    rcases Nat.lt_or_eq_of_le hik with hlt' | rfl
    · exact hlt (hax.trans (List.pairwise_iff_getElem.1 hs i k _ hk hlt'))
    · exact hlt hax
  have hnone : (xs.take (k + 1)).countP (fun x => decide (a ≤ x)) = 0 := List.countP_eq_zero.2 hbelow
  have hsplit : (xs.take (k + 1) ++ xs.drop (k + 1)).countP (fun x => decide (a ≤ x)) = _ := List.countP_append
  rw [List.take_append_drop, hnone, Nat.zero_add] at hsplit
  have hrest : (xs.drop (k + 1)).countP (fun x => decide (a ≤ x)) ≤ _ := List.countP_le_length
  rw [List.length_drop] at hrest
  omega

/-- **With more than `k` elements at most `b`, so is the element at `k`.** -/
theorem getElem_le (hs : xs.Pairwise (· ≤ ·)) (hk : k < xs.length)
    (hcount : k < xs.countP fun x => decide (x ≤ b)) : xs[k] ≤ b := by
  by_contra hlt
  have habove : ∀ x ∈ xs.drop k, ¬ decide (x ≤ b) = true := by
    intro x hx
    rw [decide_eq_true_eq]
    intro hxb
    obtain ⟨i, hi, rfl⟩ := List.getElem_of_mem hx
    rw [List.length_drop] at hi
    rw [List.getElem_drop] at hxb
    rcases Nat.eq_zero_or_pos i with rfl | hpos
    · exact hlt hxb
    · exact hlt ((List.pairwise_iff_getElem.1 hs k (k + i) hk _ (by omega)).trans hxb)
  have hnone : (xs.drop k).countP (fun x => decide (x ≤ b)) = 0 := List.countP_eq_zero.2 habove
  have hsplit : (xs.take k ++ xs.drop k).countP (fun x => decide (x ≤ b)) = _ := List.countP_append
  rw [List.take_append_drop, hnone, Nat.add_zero] at hsplit
  have hfirst : (xs.take k).countP (fun x => decide (x ≤ b)) ≤ _ := List.countP_le_length
  rw [List.length_take] at hfirst
  omega

/-- An insertion sort of the list from its end, read backwards, sorts it. -/
theorem reverse_insertionSort (xs : List α) :
    (xs.reverse.insertionSort (· ≥ ·)).reverse.Perm xs ∧
      (xs.reverse.insertionSort (· ≥ ·)).reverse.Pairwise (· ≤ ·) := by
  constructor
  · exact (List.reverse_perm _).trans ((List.perm_insertionSort _ _).trans (List.reverse_perm _))
  · rw [List.pairwise_reverse]
    exact List.pairwise_insertionSort (· ≥ ·) xs.reverse

end Order

/-! ## Integers -/

variable {xs ys : List Int} {m a b : Int}

/-- The middle of a sorted list: its middle element, or the mean of the two, rounded toward zero. -/
def middle (sorted : List Int) : Int :=
  if sorted.length % 2 = 1 then sorted.getD (sorted.length / 2) 0
  else (sorted.getD (sorted.length / 2 - 1) 0 + sorted.getD (sorted.length / 2) 0).tdiv 2

/-- `m` is the median of the list. -/
def IsMedian (m : Int) (xs : List Int) : Prop :=
  xs ≠ [] ∧ ∃ sorted : List Int, sorted.Perm xs ∧ sorted.Pairwise (· ≤ ·) ∧ m = middle sorted

theorem tdiv_two_mem {x y : Int} (hx : a ≤ x ∧ x ≤ b) (hy : a ≤ y ∧ y ≤ b) : a ≤ (x + y).tdiv 2 ∧ (x + y).tdiv 2 ≤ b := by
  rcases Int.le_total 0 (x + y) with h | h
  · rw [Int.tdiv_eq_ediv_of_nonneg h]
    omega
  · have hneg : (x + y).tdiv 2 = -((-(x + y)) / 2) := by
      rw [← Int.tdiv_eq_ediv_of_nonneg (by omega), Int.neg_tdiv, neg_neg]
    rw [hneg]
    omega

/-- **A middle lies where the two middle elements lie.** -/
theorem middle_mem (hne : xs ≠ []) (h : ∀ k, k < xs.length → (k = xs.length / 2 ∨ xs.length % 2 = 0 ∧ k = xs.length / 2 - 1) →
    a ≤ xs.getD k 0 ∧ xs.getD k 0 ≤ b) : a ≤ middle xs ∧ middle xs ≤ b := by
  have hpos := List.length_pos_of_ne_nil hne
  unfold middle
  split
  · exact h _ (by omega) (Or.inl rfl)
  · exact tdiv_two_mem (h _ (by omega) (Or.inr ⟨by omega, rfl⟩)) (h _ (by omega) (Or.inl rfl))

/-- **A median lies in every interval that holds more than half of the list.** -/
theorem IsMedian.mem_of_majority (h : IsMedian m xs)
    (hmajority : xs.length < 2 * xs.countP fun x => decide (a ≤ x ∧ x ≤ b)) : a ≤ m ∧ m ≤ b := by
  obtain ⟨hne, sorted, hperm, hsorted, rfl⟩ := h
  rw [← hperm.length_eq, ← hperm.countP_eq] at hmajority
  have hlow := List.countP_mono_left (p := fun x => decide (a ≤ x ∧ x ≤ b)) (q := fun x => decide (a ≤ x))
    (l := sorted) (fun x _ hx => decide_eq_true (of_decide_eq_true hx).1)
  have hhigh := List.countP_mono_left (p := fun x => decide (a ≤ x ∧ x ≤ b)) (q := fun x => decide (x ≤ b))
    (l := sorted) (fun x _ hx => decide_eq_true (of_decide_eq_true hx).2)
  refine middle_mem (fun hnil => hne (hnil ▸ hperm).nil_eq.symm) fun k hk hmiddle => ?_
  rw [List.getD_eq_getElem _ _ hk]
  constructor
  · refine le_getElem hsorted hk ?_
    omega
  · refine getElem_le hsorted hk ?_
    omega

/-- **A median lies between two elements of the list.** -/
theorem IsMedian.exists_between (h : IsMedian m xs) : ∃ lo ∈ xs, ∃ hi ∈ xs, lo ≤ m ∧ m ≤ hi := by
  obtain ⟨hne, sorted, hperm, hsorted, rfl⟩ := h
  have hpos : 0 < sorted.length := by
    rw [hperm.length_eq]
    exact List.length_pos_of_ne_nil hne
  have hmem : ∀ k, k < sorted.length → sorted.getD k 0 ∈ xs := fun k hk => by
    rw [List.getD_eq_getElem _ _ hk]
    exact hperm.mem_iff.1 (List.getElem_mem hk)
  refine ⟨sorted.getD ((sorted.length - 1) / 2) 0, hmem _ (by omega), sorted.getD (sorted.length / 2) 0, hmem _ (by omega),
    middle_mem (List.ne_nil_of_length_pos hpos) fun k hk hmiddle => ?_⟩
  have hle : ∀ i j, i ≤ j → j < sorted.length → sorted.getD i 0 ≤ sorted.getD j 0 := fun i j hij hj => by
    rw [List.getD_eq_getElem _ _ hj, List.getD_eq_getElem _ _ (hij.trans_lt hj)]
    rcases Nat.lt_or_eq_of_le hij with hlt | rfl
    · exact List.pairwise_iff_getElem.1 hsorted i j _ hj hlt
    · exact le_rfl
  exact ⟨hle _ _ (by omega) hk, hle _ _ (by omega) (by omega)⟩

end Median
