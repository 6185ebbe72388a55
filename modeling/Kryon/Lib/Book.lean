import Mathlib.Algebra.BigOperators.Group.Finset.Piecewise
import Mathlib.Algebra.BigOperators.Fin
import Mathlib.Tactic.Abel
/-!
# Books and tables

A book gives every account of a finite type a balance.  Its entries are postings (`post`) and transfers, and the total
of a book changes by exactly what is posted (`total_post`), so a transfer changes nothing (`total_transfer`).

A table gives every key a record.  A total over a table (`tally`) changes by the new record's amount less the old one's
when one record is replaced (`tally_update`); a table keyed by pairs has one such total for each second key
(`column`, `column_update`).
-/
namespace Book

open Function (update)

universe u v w
variable {ι : Type u} [DecidableEq ι] {A : Type v} [AddCommGroup A]

/-- Add `x` to the balance of `i`. -/
def post (b : ι → A) (i : ι) (x : A) : ι → A := update b i (b i + x)

/-- Move `x` from `i` to `j`. -/
def transfer (b : ι → A) (i j : ι) (x : A) : ι → A := post (post b i (-x)) j x

theorem post_apply (b : ι → A) (i a : ι) (x : A) : post b i x a = b a + if a = i then x else 0 := by
  unfold post
  by_cases h : a = i
  · subst h; simp
  · simp [h]

theorem transfer_apply (b : ι → A) (i j a : ι) (x : A) :
    transfer b i j x a = b a + (if a = i then -x else 0) + if a = j then x else 0 := by
  simp only [transfer, post_apply]

@[simp] theorem transfer_zero (b : ι → A) (i j : ι) : transfer b i j 0 = b := by
  funext a; simp [transfer_apply]

@[simp] theorem transfer_self (b : ι → A) (i : ι) (x : A) : transfer b i i x = b := by
  funext a
  by_cases h : a = i <;> simp [transfer_apply, h]

theorem transfer_neg (b : ι → A) (i j : ι) (x : A) : transfer b i j (-x) = transfer b j i x := by
  funext a
  simp only [transfer_apply, neg_neg]
  abel

theorem post_of_ne (b : ι → A) {i a : ι} (h : a ≠ i) (x : A) : post b i x a = b a := by
  simp [post_apply, h]

theorem transfer_of_ne (b : ι → A) {i j a : ι} (hi : a ≠ i) (hj : a ≠ j) (x : A) : transfer b i j x a = b a := by
  simp [transfer_apply, hi, hj]

section Totals
variable [Fintype ι]

def total (b : ι → A) : A := ∑ i, b i

theorem total_update (b : ι → A) (i : ι) (x : A) : total (update b i x) = total b - b i + x := by
  unfold total
  rw [Finset.sum_update_of_mem (Finset.mem_univ i), ← Finset.add_sum_erase Finset.univ b (Finset.mem_univ i),
    Finset.sdiff_singleton_eq_erase]
  abel

theorem total_post (b : ι → A) (i : ι) (x : A) : total (post b i x) = total b + x := by
  rw [post, total_update]; abel

theorem total_transfer (b : ι → A) (i j : ι) (x : A) : total (transfer b i j x) = total b := by
  rw [transfer, total_post, total_post]; abel

end Totals

/-! ## Tables -/

section Tables
variable {κ : Type u} [DecidableEq κ] [Fintype κ] {V : Type w}

omit [Fintype κ] in
/-- Reading `g` off a table after a record is replaced replaces one reading. -/
theorem map_update {W : Type*} (g : V → W) (t : κ → V) (k : κ) (v : V) :
    (fun k' => g (update t k v k')) = update (fun k' => g (t k')) k (g v) := by
  funext k'
  by_cases hk : k' = k
  · subst hk; simp
  · simp [hk]

/-- The total of `g` over the records of a table. -/
def tally (g : V → A) (t : κ → V) : A := ∑ k, g (t k)

theorem tally_update (g : V → A) (t : κ → V) (k : κ) (v : V) :
    tally g (update t k v) = tally g t - g (t k) + g v := by
  show total (fun k' => g (update t k v k')) = total (fun k' => g (t k')) - g (t k) + g v
  rw [map_update, total_update]

variable {μ : Type u} [DecidableEq μ]

/-- The total of `g` over the records of a table whose second key is `m`. -/
def column (g : V → A) (t : κ × μ → V) (m : μ) : A := ∑ k, g (t (k, m))

theorem column_update (g : V → A) (t : κ × μ → V) (k : κ) (n m : μ) (v : V) :
    column g (update t (k, n) v) m = column g t m + if m = n then g v - g (t (k, n)) else 0 := by
  by_cases hm : m = n
  · subst hm
    have h : (fun k' => update t (k, m) v (k', m)) = update (fun k' => t (k', m)) k v := by
      funext k'
      by_cases hk : k' = k
      · subst hk; simp
      · simp [hk]
    show tally g (fun k' => update t (k, m) v (k', m)) = tally g (fun k' => t (k', m)) + _
    rw [h, tally_update, if_pos rfl]
    abel
  · have h : ∀ k', update t (k, n) v (k', m) = t (k', m) := fun k' =>
      Function.update_of_ne (fun he => hm (Prod.ext_iff.1 he).2) _ _
    simp only [column, h, if_neg hm, add_zero]

end Tables
end Book
