import Mathlib.Data.Finset.Card
/-!
# Numbered entries

Entries of several kinds, each with a number.  A set of entries is dense when every number is below the count of its kind,
so that the numbers of a kind are an initial segment and its count is the next free one.  Dense sets are kept by an entry
whose number is at most the count, and by the removal of the highest numbers of a kind.
-/
namespace Numbering

universe u
variable {κ : Type u} [DecidableEq κ] {T D : Finset (κ × Nat)} {s : κ} {k : Nat}

/-- How many entries there are of a kind. -/
def count (T : Finset (κ × Nat)) (s : κ) : Nat := (T.filter fun x => x.1 = s).card

def Dense (T : Finset (κ × Nat)) : Prop := ∀ x ∈ T, x.2 < count T x.1

theorem dense_empty : Dense (∅ : Finset (κ × Nat)) := fun _ hx => absurd hx (Finset.notMem_empty _)

/-- **The numbers of a kind are an initial segment.** -/
theorem Dense.mem (h : Dense T) (hk : k < count T s) : (s, k) ∈ T := by
  have hsub : ((T.filter fun x => x.1 = s).image (·.2)) ⊆ Finset.range (count T s) := by
    intro n hn
    obtain ⟨x, hx, rfl⟩ := Finset.mem_image.1 hn
    obtain ⟨hxT, rfl⟩ := Finset.mem_filter.1 hx
    exact Finset.mem_range.2 (h x hxT)
  have hcard : ((T.filter fun x => x.1 = s).image (·.2)).card = count T s := by
    refine Finset.card_image_of_injOn fun x hx y hy hxy => ?_
    rw [Finset.mem_coe, Finset.mem_filter] at hx hy
    exact Prod.ext (hx.2.trans hy.2.symm) hxy
  have hall := Finset.eq_of_subset_of_card_le hsub (by rw [hcard, Finset.card_range])
  obtain ⟨x, hx, rfl⟩ := Finset.mem_image.1 (hall ▸ Finset.mem_range.2 hk)
  obtain ⟨hxT, rfl⟩ := Finset.mem_filter.1 hx
  exact hxT

theorem Dense.fresh (h : Dense T) (s : κ) (n : Nat) : (s, count T s + n) ∉ T := fun hmem =>
  absurd (h _ hmem) (by simp)

theorem count_insert (hnew : (s, k) ∉ T) (r : κ) : count (insert (s, k) T) r = count T r + if s = r then 1 else 0 := by
  unfold count
  rw [Finset.filter_insert]
  split_ifs with hr
  · exact Finset.card_insert_of_notMem fun hmem => hnew (Finset.mem_filter.1 hmem).1
  · rfl

/-- **A number that is at most the count keeps the set dense.** -/
theorem Dense.insert (h : Dense T) (hk : k ≤ count T s) : Dense (insert (s, k) T) := by
  by_cases hnew : (s, k) ∈ T
  · rwa [Finset.insert_eq_of_mem hnew]
  · intro x hx
    rw [count_insert hnew]
    rcases Finset.mem_insert.1 hx with rfl | hx
    · rw [if_pos rfl]
      exact Nat.lt_succ_of_le hk
    · exact (h x hx).trans_le (Nat.le_add_right _ _)

/-- **Removing the highest numbers of a kind keeps the set dense.** -/
theorem Dense.sdiff (h : Dense T) (htop : ∀ x ∈ T, x ∈ D → ∀ y ∈ T, y ∉ D → x.1 = y.1 → y.2 < x.2) : Dense (T \ D) := by
  intro y hy
  obtain ⟨hyT, hyD⟩ := Finset.mem_sdiff.1 hy
  -- Every number up to that of `y` stays.
  have hbelow : (Finset.range (y.2 + 1)).image (fun k => (y.1, k)) ⊆ (T \ D).filter fun x => x.1 = y.1 := by
    intro x hx
    obtain ⟨k, hk, rfl⟩ := Finset.mem_image.1 hx
    have hle : k ≤ y.2 := Nat.lt_succ_iff.1 (Finset.mem_range.1 hk)
    have hmem : (y.1, k) ∈ T := h.mem (hle.trans_lt (h y hyT))
    refine Finset.mem_filter.2 ⟨Finset.mem_sdiff.2 ⟨hmem, fun hD => ?_⟩, rfl⟩
    exact absurd (htop _ hmem hD y hyT hyD rfl) (not_lt.2 hle)
  have hcard := Finset.card_le_card hbelow
  rw [Finset.card_image_of_injective _ (fun a b hab => congrArg Prod.snd hab), Finset.card_range] at hcard
  exact hcard

end Numbering
