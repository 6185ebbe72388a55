import Mathlib.Data.List.Nodup
import Mathlib.Data.List.Sort
/-!
# Items delivered in order, some more than once

`ingest` takes an item whose key is new, and applies it; an item whose key was seen is skipped.  A delivery of the items of
a list in its order, with any repetitions, takes the list (`ingest_delivered`).
-/
namespace Delivery

universe u v w
variable {α : Type u} {κ : Type v} {τ : Type w} [DecidableEq κ]

/-- Takes and applies an item whose key is new. -/
def ingest (key : α → κ) (apply : τ → α → Option τ) (s : List α × τ) (x : α) : Option (List α × τ) :=
  if key x ∈ s.1.map key then some s else (apply s.2 x).map fun t => (s.1 ++ [x], t)

variable {key : α → κ} {apply : τ → α → Option τ} {s t : List α × τ} {l c : List α} {x : α}

theorem ingest_cases (h : ingest key apply s x = some t) :
    key x ∈ s.1.map key ∧ t = s ∨ key x ∉ s.1.map key ∧ apply s.2 x = some t.2 ∧ t.1 = s.1 ++ [x] := by
  unfold ingest at h
  split at h
  · cases h
    exact .inl ⟨‹_›, rfl⟩
  · obtain ⟨u, hu, rfl⟩ := Option.map_eq_some_iff.1 h
    exact .inr ⟨‹_›, hu, rfl⟩

/-- **What a delivery takes**: a sublist of it with new keys, and every key of it is seen afterwards. -/
theorem foldlM_ingest : ∀ (l : List α) (s t : List α × τ), l.foldlM (ingest key apply) s = some t →
    (s.1.map key).Nodup → ∃ r, t.1 = s.1 ++ r ∧ r.foldlM apply s.2 = some t.2 ∧ r.Sublist l ∧ (t.1.map key).Nodup ∧
      ∀ x ∈ l, key x ∈ t.1.map key
  | [], s, t, h, hs => by
    cases h
    exact ⟨[], (List.append_nil _).symm, rfl, .slnil, hs, fun x hx => absurd hx List.not_mem_nil⟩
  | x :: l, s, t, h, hs => by
    rw [List.foldlM_cons, Option.bind_eq_bind, Option.bind_eq_some_iff] at h
    obtain ⟨u, hu, h⟩ := h
    obtain ⟨hseen, rfl⟩ | ⟨hnew, happly, hu⟩ := ingest_cases hu
    · obtain ⟨r, ht, happlied, hsub, hnodup, hkeys⟩ := foldlM_ingest l u t h hs
      refine ⟨r, ht, happlied, hsub.cons x, hnodup, List.forall_mem_cons.2 ⟨?_, hkeys⟩⟩
      rw [ht, List.map_append]
      exact List.mem_append_left _ hseen
    · have hus : (u.1.map key).Nodup := by
        rw [hu, List.map_append]
        exact hs.append (List.nodup_singleton _) (List.disjoint_singleton.2 hnew)
      obtain ⟨r, ht, happlied, hsub, hnodup, hkeys⟩ := foldlM_ingest l u t h hus
      rw [hu, List.append_assoc] at ht
      refine ⟨x :: r, ht, ?_, hsub.cons_cons x, hnodup, List.forall_mem_cons.2 ⟨?_, hkeys⟩⟩
      · rw [List.foldlM_cons, happly]
        exact happlied
      · rw [ht]
        simp

/-- **A delivery of a list in its order takes the list**, however often it repeats an item. -/
theorem ingest_delivered {le : α → α → Prop} (hl : l.Pairwise le) (hc : c.Pairwise le) (hnodup : (c.map key).Nodup)
    (hanti : ∀ x y, x ∈ c → y ∈ c → le x y → le y x → x = y) (hmem : ∀ x, x ∈ l ↔ x ∈ c) (hs : (s.1.map key).Nodup)
    (hnew : ∀ x ∈ c, key x ∉ s.1.map key) (h : l.foldlM (ingest key apply) s = some t) :
    t.1 = s.1 ++ c ∧ c.foldlM apply s.2 = some t.2 := by
  obtain ⟨r, ht, happlied, hsub, hkeys, hseen⟩ := foldlM_ingest l s t h hs
  have hrl : ∀ x ∈ r, x ∈ c := fun x hx => (hmem x).1 (hsub.subset hx)
  have hcr : ∀ x ∈ c, x ∈ r := by
    intro x hx
    have hkey := hseen x ((hmem x).2 hx)
    rw [ht, List.map_append, List.mem_append] at hkey
    obtain ⟨y, hy, hyx⟩ := List.mem_map.1 (hkey.resolve_left (hnew x hx))
    rwa [← List.inj_on_of_nodup_map hnodup (hrl y hy) hx hyx]
  have hrnodup : r.Nodup := by
    rw [ht, List.map_append] at hkeys
    exact (List.nodup_append'.1 hkeys).2.1.of_map
  have hperm : r.Perm c := (List.perm_ext_iff_of_nodup hrnodup hnodup.of_map).2 fun x => ⟨hrl x, hcr x⟩
  have heq : r = c := hperm.eq_of_pairwise (fun x y hx hy => hanti x y (hrl x hx) hy) (hl.sublist hsub) hc
  rw [← heq]
  exact ⟨ht, happlied⟩

end Delivery
