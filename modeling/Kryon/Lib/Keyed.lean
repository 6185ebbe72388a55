import Mathlib.Data.List.Nodup
import Mathlib.Data.List.Sort
/-!
# Rows under keys

A table is a list of rows, those of a key its part under that key.  `replace` deletes the rows of some keys and inserts new
ones (`under_replace`); sorting rows by keys that are distinct forgets the order they came in (`sort_perm`).
-/
namespace Keyed

universe u v
variable {ρ : Type u} {κ : Type v} [DecidableEq κ] (key : ρ → κ)

/-- The rows of a key. -/
def under (t : List ρ) (k : κ) : List ρ := t.filter fun r => decide (key r = k)

/-- Deletes the rows of the keys, then inserts. -/
def replace (ks : List κ) (new t : List ρ) : List ρ := (t.filter fun r => decide (key r ∉ ks)) ++ new

variable {key} {ks : List κ} {t : List ρ} {f : κ → List ρ} {k : κ}

theorem mem_under {r : ρ} : r ∈ under key t k ↔ r ∈ t ∧ key r = k := by
  simp [under]

theorem under_flatMap (hf : ∀ k ∈ ks, ∀ r ∈ f k, key r = k) (hks : ks.Nodup) (k : κ) :
    under key (ks.flatMap f) k = if k ∈ ks then f k else [] := by
  induction ks with
  | nil => simp [under]
  | cons j js ih =>
    have htail := ih (fun k hk => hf k (List.mem_cons_of_mem _ hk)) hks.of_cons
    have hj := hf j List.mem_cons_self
    unfold under at htail ⊢
    rw [List.flatMap_cons, List.filter_append, htail]
    by_cases hjk : j = k
    · subst hjk
      have hhead : (f j).filter (fun r => decide (key r = j)) = f j :=
        List.filter_eq_self.2 fun r hr => decide_eq_true (hj r hr)
      rw [hhead, if_neg (List.nodup_cons.1 hks).1, List.append_nil, if_pos List.mem_cons_self]
    · have hhead : (f j).filter (fun r => decide (key r = k)) = [] :=
        List.filter_eq_nil_iff.2 fun r hr h => hjk ((hj r hr).symm.trans (of_decide_eq_true h))
      rw [hhead, List.nil_append]
      simp [Ne.symm hjk]

/-- **A replacement gives its keys their new rows** and leaves the others theirs. -/
theorem under_replace (hf : ∀ k ∈ ks, ∀ r ∈ f k, key r = k) (hks : ks.Nodup) (k : κ) :
    under key (replace key ks (ks.flatMap f) t) k = if k ∈ ks then f k else under key t k := by
  have hnew := under_flatMap hf hks k
  unfold under at hnew
  unfold under replace
  rw [List.filter_append, List.filter_filter, hnew]
  by_cases hk : k ∈ ks
  · rw [if_pos hk, if_pos hk, List.filter_eq_nil_iff.2, List.nil_append]
    intro r _ h
    rw [Bool.and_eq_true, decide_eq_true_eq, decide_eq_true_eq] at h
    exact h.2 (h.1 ▸ hk)
  · rw [if_neg hk, if_neg hk, List.append_nil]
    refine List.filter_congr fun r _ => ?_
    by_cases hr : key r = k
    · simp [hr, hk]
    · simp [hr]

omit [DecidableEq κ] in
/-- **Rows under distinct keys sort the same**, in whatever order they come. -/
theorem sort_perm {r : ρ → ρ → Prop} [DecidableRel r] [Std.Total r] [IsTrans ρ r]
    (hkey : ∀ x y, r x y → r y x → key x = key y) {l l' : List ρ} (h : l.Perm l') (hnodup : (l.map key).Nodup) :
    l.insertionSort r = l'.insertionSort r := by
  have hperm : (l.insertionSort r).Perm (l'.insertionSort r) :=
    (List.perm_insertionSort r l).trans (h.trans (List.perm_insertionSort r l').symm)
  refine hperm.eq_of_pairwise (fun x y hx hy hxy hyx => ?_) (List.pairwise_insertionSort r l)
    (List.pairwise_insertionSort r l')
  have hx' := (List.mem_insertionSort r).1 hx
  have hy' := h.mem_iff.2 ((List.mem_insertionSort r).1 hy)
  exact List.inj_on_of_nodup_map hnodup hx' hy' (hkey x y hxy hyx)

end Keyed
