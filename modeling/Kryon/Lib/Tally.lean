import Mathlib.Algebra.BigOperators.Group.List.Basic
import Mathlib.Algebra.Ring.Nat
import Mathlib.Logic.Function.Basic
/-!
# Tallies — keys bound to one tag, with an amount counted up under a cap

A key is bound to a tag by the first entry made under it; every later entry must bring the same tag, and adds its amount.
An entry names the cap its tag allows, and is taken only if the key's amount stays within it.
-/
namespace Tally

open Function (update)

universe u v
variable {κ : Type u} {τ : Type v}

structure Entry (κ : Type u) (τ : Type v) where
  key : κ
  tag : τ
  amount : Nat
  cap : Nat

/-- What a key is bound to and the amount counted under it, if anything is. -/
abbrev State (κ : Type u) (τ : Type v) := κ → Option (τ × Nat)

variable [DecidableEq κ]

inductive Step (s : State κ τ) (e : Entry κ τ) : State κ τ → Prop where
  | bind (h : s e.key = none) (hcap : e.amount ≤ e.cap) : Step s e (update s e.key (some (e.tag, e.amount)))
  | count {n : Nat} (h : s e.key = some (e.tag, n)) (hcap : n + e.amount ≤ e.cap) :
      Step s e (update s e.key (some (e.tag, n + e.amount)))

/-- The amount entered under a key. -/
def total (es : List (Entry κ τ)) (k : κ) : Nat := (es.map fun e => if e.key = k then e.amount else 0).sum

theorem total_append (es es' : List (Entry κ τ)) (k : κ) : total (es ++ es') k = total es k + total es' k := by
  simp only [total, List.map_append, List.sum_append]

theorem total_singleton (e : Entry κ τ) (k : κ) : total [e] k = if e.key = k then e.amount else 0 := by
  simp only [total, List.map_singleton, List.sum_singleton]

theorem total_eq_zero {es : List (Entry κ τ)} {k : κ} (h : ∀ e ∈ es, e.key ≠ k) : total es k = 0 := by
  refine List.sum_eq_zero fun n hn => ?_
  obtain ⟨e, he, rfl⟩ := List.mem_map.1 hn
  exact if_neg (h e he)

/-- The state is what the entries counted up: an unbound key has none, and a bound key's entries carry its tag, sum to
its amount and keep it within the cap of one of them. -/
structure Counts (s : State κ τ) (es : List (Entry κ τ)) : Prop where
  unbound : ∀ k, s k = none → ∀ e ∈ es, e.key ≠ k
  bound : ∀ k t n, s k = some (t, n) → n = total es k ∧ (∀ e ∈ es, e.key = k → e.tag = t) ∧
    ∃ e ∈ es, e.key = k ∧ total es k ≤ e.cap

theorem counts_nil : Counts (fun _ => none : State κ τ) [] :=
  ⟨fun _ _ _ h => absurd h List.not_mem_nil, fun _ _ _ h => absurd h (by simp)⟩

variable {s t : State κ τ} {es : List (Entry κ τ)} {e : Entry κ τ}

theorem Counts.frame (h : Counts s es) {k : κ} (hk : k ≠ e.key) :
    (s k = none → ∀ e' ∈ es ++ [e], e'.key ≠ k) ∧ ∀ u n, s k = some (u, n) → n = total (es ++ [e]) k ∧
      (∀ e' ∈ es ++ [e], e'.key = k → e'.tag = u) ∧ ∃ e' ∈ es ++ [e], e'.key = k ∧ total (es ++ [e]) k ≤ e'.cap := by
  have htotal : total (es ++ [e]) k = total es k := by
    rw [total_append, total_singleton, if_neg hk.symm, add_zero]
  refine ⟨fun h0 e' he' => ?_, fun u n h1 => ?_⟩
  · rcases List.mem_append.1 he' with he' | he'
    · exact h.unbound k h0 e' he'
    · rw [List.mem_singleton.1 he']
      exact hk.symm
  · obtain ⟨hn, htag, e₀, he₀, hkey, hcap⟩ := h.bound k u n h1
    refine ⟨htotal ▸ hn, fun e' he' hke => ?_, e₀, List.mem_append_left _ he₀, hkey, htotal ▸ hcap⟩
    rcases List.mem_append.1 he' with he' | he'
    · exact htag e' he' hke
    · rw [List.mem_singleton.1 he'] at hke
      exact absurd hke.symm hk

/-- Binding the entry's key to its tag, with the entry counted, keeps the count. -/
theorem Counts.update (h : Counts s es) {n : Nat} (hn : n = total (es ++ [e]) e.key)
    (htag : ∀ e' ∈ es, e'.key = e.key → e'.tag = e.tag) (hcap : n ≤ e.cap) :
    Counts (update s e.key (some (e.tag, n))) (es ++ [e]) := by
  have hmem : e ∈ es ++ [e] := List.mem_append_right _ (List.mem_singleton_self e)
  refine ⟨fun k hk => ?_, fun k u m hk => ?_⟩
  · by_cases hke : k = e.key
    · rw [hke, Function.update_self] at hk
      exact absurd hk (by simp)
    · rw [Function.update_of_ne hke] at hk
      exact (h.frame hke).1 hk
  · by_cases hke : k = e.key
    · subst hke
      rw [Function.update_self, Option.some.injEq, Prod.mk.injEq] at hk
      obtain ⟨rfl, rfl⟩ := hk
      refine ⟨hn, fun e' he' hk' => ?_, e, hmem, rfl, hn ▸ hcap⟩
      rcases List.mem_append.1 he' with he' | he'
      · exact htag e' he' hk'
      · rw [List.mem_singleton.1 he']
    · rw [Function.update_of_ne hke] at hk
      exact (h.frame hke).2 u m hk

/-- **Every entry taken is counted.** -/
theorem step_counts (h : Counts s es) (hstep : Step s e t) : Counts t (es ++ [e]) := by
  have htotal : total (es ++ [e]) e.key = total es e.key + e.amount := by
    rw [total_append, total_singleton, if_pos rfl]
  cases hstep with
  | bind h0 hcap =>
    have hnone := h.unbound e.key h0
    refine h.update ?_ (fun e' he' hk => absurd hk (hnone e' he')) hcap
    rw [htotal, total_eq_zero hnone, zero_add]
  | count h1 hcap =>
    obtain ⟨hn, htag, -⟩ := h.bound e.key e.tag _ h1
    exact h.update (by rw [htotal, hn]) htag hcap

/-- Entries under one key carry one tag. -/
theorem Counts.tag_eq (h : Counts s es) {e e' : Entry κ τ} (he : e ∈ es) (he' : e' ∈ es) (hk : e'.key = e.key) :
    e'.tag = e.tag := by
  cases hs : s e.key with
  | none => exact absurd rfl (h.unbound _ hs e he)
  | some b =>
    have htag := (h.bound e.key b.1 b.2 hs).2.1
    rw [htag e' he' hk, htag e he rfl]

/-- **Where the entries of a key share one cap, they sum to at most that cap.** -/
theorem Counts.total_le (h : Counts s es) {e : Entry κ τ} (he : e ∈ es)
    (hcap : ∀ e' ∈ es, e'.key = e.key → e'.cap = e.cap) : total es e.key ≤ e.cap := by
  cases hs : s e.key with
  | none => exact absurd rfl (h.unbound _ hs e he)
  | some b =>
    obtain ⟨-, -, e₀, he₀, hkey, hle⟩ := h.bound e.key b.1 b.2 hs
    rwa [hcap e₀ he₀ hkey] at hle

end Tally
