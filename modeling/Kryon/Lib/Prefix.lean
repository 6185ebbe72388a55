import Mathlib.Data.List.Basic
/-!
# What holds of every entry of a log, given the entries before it

A log grows at its end.  `Each P l` says that every entry of `l` met `P` with the entries before it, so one lemma for an
entry added (`each_snoc`) is the induction over a run that keeps a log.
-/
namespace Prefix

universe u
variable {α : Type u} {P Q : List α → α → Prop} {l : List α} {a : α}

/-- Every entry met `P` with what came before it. -/
def Each (P : List α → α → Prop) (l : List α) : Prop := ∀ pre a post, l = pre ++ a :: post → P pre a

theorem each_nil : Each P [] := by
  intro pre a post h
  cases pre with
  | nil => exact absurd h (List.cons_ne_nil a post).symm
  | cons b pre => exact absurd h (List.cons_ne_nil b _).symm

theorem each_snoc : Each P (l ++ [a]) ↔ Each P l ∧ P l a := by
  constructor
  · intro h
    refine ⟨fun pre b post hl => h pre b (post ++ [a]) ?_, h l a [] rfl⟩
    rw [hl, List.append_assoc, List.cons_append]
  · rintro ⟨hl, ha⟩ pre b post h
    rcases List.eq_nil_or_concat post with rfl | ⟨post', c, rfl⟩
    · obtain ⟨rfl, hb⟩ := List.append_inj' h rfl
      rw [List.cons.injEq] at hb
      exact hb.1 ▸ ha
    · rw [List.concat_eq_append, ← List.cons_append, ← List.append_assoc] at h
      obtain ⟨h, -⟩ := List.append_inj' h rfl
      exact hl pre b post' h

theorem Each.mono (h : Each P l) (himp : ∀ pre a, P pre a → Q pre a) : Each Q l := fun pre a post hl =>
  himp pre a (h pre a post hl)

theorem Each.mem (h : Each P l) (ha : a ∈ l) : ∃ pre, P pre a := by
  obtain ⟨pre, post, hl⟩ := List.append_of_mem ha
  exact ⟨pre, h pre a post hl⟩

end Prefix
