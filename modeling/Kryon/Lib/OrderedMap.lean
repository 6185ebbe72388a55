import Mathlib.Algebra.BigOperators.Group.List.Basic
import Mathlib.Data.List.Nodup
/-!
# Maps that keep the order of their keys

A map is its entries in the order their keys were first set: setting a key again keeps its place, deleting it gives the place
up.  What a fold groups under a key is the fold of the elements with that key (`get_group`), the keys of a grouping are
those of its elements (`mem_keys_group`), and amounts grouped under any set of keys sum to what was grouped (`sum_group`).
-/
universe u v w

structure OrderedMap (κ : Type u) (ν : Type v) where
  entries : List (κ × ν)
  nodup : (entries.map Prod.fst).Nodup

namespace OrderedMap

variable {κ : Type u} {ν : Type v} {α : Type w} (m : OrderedMap κ ν) {k k' : κ} {v v' : ν}

def empty : OrderedMap κ ν := ⟨[], List.nodup_nil⟩

def keys : List κ := m.entries.map Prod.fst

def values : List ν := m.entries.map Prod.snd

@[simp] theorem keys_empty : (empty : OrderedMap κ ν).keys = [] := rfl

theorem keys_nodup : m.keys.Nodup := m.nodup

/-- Every value changed in place. -/
def mapValues {μ : Type w} (f : κ → ν → μ) (m : OrderedMap κ ν) : OrderedMap κ μ where
  entries := m.entries.map fun e => (e.1, f e.1 e.2)
  nodup := by
    rw [List.map_map]
    exact m.nodup

@[simp] theorem keys_mapValues {μ : Type w} (f : κ → ν → μ) : (m.mapValues f).keys = m.keys := by
  rw [keys, keys, mapValues, List.map_map]
  rfl

section

variable [AddCommMonoid ν] (P : κ → Bool)

/-- The values under the keys with `P`, summed. -/
def sum (es : List (κ × ν)) : ν := ((es.filter fun e => P e.1).map Prod.snd).sum

variable {P}

theorem sum_cons (e : κ × ν) (es : List (κ × ν)) : sum P (e :: es) = (if P e.1 then e.2 else 0) + sum P es := by
  by_cases h : P e.1 = true
  · rw [sum, List.filter_cons_of_pos (by simpa using h), List.map_cons, List.sum_cons, if_pos h, sum]
  · rw [sum, List.filter_cons_of_neg (by simpa using h), if_neg h, zero_add, sum]

theorem sum_perm {es es' : List (κ × ν)} (h : es.Perm es') : sum P es = sum P es' :=
  ((h.filter _).map _).sum_eq

end

variable [DecidableEq κ]

def get (k : κ) : Option ν := (m.entries.find? fun e => decide (e.1 = k)).map Prod.snd

theorem keys_overwrite (es : List (κ × ν)) (k : κ) (v : ν) :
    (es.map fun e => if e.1 = k then (k, v) else e).map Prod.fst = es.map Prod.fst := by
  rw [List.map_map]
  refine List.map_congr_left fun e _ => ?_
  by_cases h : e.1 = k
  · simp [h]
  · simp [h]

def set (k : κ) (v : ν) : OrderedMap κ ν where
  entries :=
    if k ∈ m.keys then m.entries.map fun e => if e.1 = k then (k, v) else e else m.entries ++ [(k, v)]
  nodup := by
    split
    · rw [keys_overwrite]
      exact m.nodup
    · rename_i hk
      rw [List.map_append]
      refine m.nodup.append (List.nodup_singleton k) fun x hx hk' => hk ?_
      rwa [List.mem_singleton.1 hk'] at hx

def delete (k : κ) : OrderedMap κ ν where
  entries := m.entries.filter fun e => decide (e.1 ≠ k)
  nodup := (List.filter_sublist.map Prod.fst).nodup m.nodup

variable {m}

theorem get_eq_some : m.get k = some v ↔ (k, v) ∈ m.entries := by
  rw [get, Option.map_eq_some_iff]
  constructor
  · rintro ⟨e, he, rfl⟩
    have hk : e.1 = k := by simpa using List.find?_some he
    exact hk ▸ List.mem_of_find?_eq_some he
  · intro h
    cases hfind : m.entries.find? fun e => decide (e.1 = k) with
    | none =>
      have hne := List.find?_eq_none.1 hfind (k, v) h
      simp at hne
    | some e =>
      have hk : e.1 = k := by simpa using List.find?_some hfind
      have hsame : e = (k, v) := List.inj_on_of_nodup_map m.nodup (List.mem_of_find?_eq_some hfind) h hk
      exact ⟨e, rfl, by rw [hsame]⟩

theorem mem_keys : k ∈ m.keys ↔ ∃ v, m.get k = some v := by
  simp only [keys, List.mem_map, get_eq_some]
  constructor
  · rintro ⟨e, he, rfl⟩
    exact ⟨e.2, he⟩
  · rintro ⟨v, hv⟩
    exact ⟨(k, v), hv, rfl⟩

theorem mem_values : v ∈ m.values ↔ ∃ k, m.get k = some v := by
  simp only [values, List.mem_map, get_eq_some]
  constructor
  · rintro ⟨e, he, rfl⟩
    exact ⟨e.1, he⟩
  · rintro ⟨k, hk⟩
    exact ⟨(k, v), hk, rfl⟩

theorem get_eq_none : m.get k = none ↔ k ∉ m.keys := by
  rw [mem_keys, Option.eq_none_iff_forall_ne_some]
  exact (not_exists (p := fun v => m.get k = some v)).symm

@[simp] theorem get_empty : (empty : OrderedMap κ ν).get k = none := rfl

theorem mem_entries_set {e : κ × ν} : e ∈ (m.set k v).entries ↔ e = (k, v) ∨ (e ∈ m.entries ∧ e.1 ≠ k) := by
  simp only [set]
  split
  · rename_i hk
    simp only [List.mem_map]
    constructor
    · rintro ⟨d, hd, rfl⟩
      by_cases hdk : d.1 = k
      · exact .inl (if_pos hdk)
      · rw [if_neg hdk]
        exact .inr ⟨hd, hdk⟩
    · rintro (rfl | ⟨he, hne⟩)
      · obtain ⟨d, hd, hdk⟩ := List.mem_map.1 hk
        exact ⟨d, hd, if_pos hdk⟩
      · exact ⟨e, he, if_neg hne⟩
  · rename_i hk
    simp only [List.mem_append, List.mem_singleton]
    constructor
    · rintro (he | rfl)
      · exact .inr ⟨he, fun heq => hk (List.mem_map.2 ⟨e, he, heq⟩)⟩
      · exact .inl rfl
    · rintro (rfl | ⟨he, -⟩)
      · exact .inr rfl
      · exact .inl he

@[simp] theorem get_set : (m.set k v).get k' = if k' = k then some v else m.get k' := by
  refine Option.ext fun v' => ?_
  rw [get_eq_some, mem_entries_set]
  split
  · rename_i h
    subst h
    simp [eq_comm]
  · rename_i h
    simp [h, get_eq_some]

@[simp] theorem get_delete : (m.delete k).get k' = if k' = k then none else m.get k' := by
  refine Option.ext fun v' => ?_
  rw [get_eq_some, delete, List.mem_filter, decide_eq_true_eq]
  split
  · rename_i h
    simp [h]
  · rename_i h
    simp [h, get_eq_some]

theorem keys_set : (m.set k v).keys = if k ∈ m.keys then m.keys else m.keys ++ [k] := by
  by_cases hk : k ∈ m.keys
  · rw [if_pos hk, keys]
    simp only [set]
    rw [if_pos hk, keys_overwrite, keys]
  · rw [if_neg hk, keys]
    simp only [set]
    rw [if_neg hk, List.map_append, List.map_singleton, keys]

theorem mem_keys_set : k' ∈ (m.set k v).keys ↔ k' = k ∨ k' ∈ m.keys := by
  rw [keys_set]
  split
  · rename_i hk
    exact ⟨.inr, fun h => h.elim (fun heq => heq ▸ hk) id⟩
  · rw [List.mem_append, List.mem_singleton, or_comm]

theorem keys_delete : (m.delete k).keys = m.keys.filter fun x => decide (x ≠ k) := by
  rw [keys, keys, delete, List.filter_map]
  rfl

theorem mem_keys_delete : k' ∈ (m.delete k).keys ↔ k' ≠ k ∧ k' ∈ m.keys := by
  rw [keys_delete, List.mem_filter, decide_eq_true_eq, and_comm]

@[simp] theorem get_mapValues {μ : Type w} (f : κ → ν → μ) : (m.mapValues f).get k = (m.get k).map (f k) := by
  refine Option.ext fun u => ?_
  rw [get_eq_some, mapValues, List.mem_map, Option.map_eq_some_iff]
  simp only [Prod.mk.injEq]
  constructor
  · rintro ⟨e, he, rfl, rfl⟩
    exact ⟨e.2, get_eq_some.2 he, rfl⟩
  · rintro ⟨v, hv, rfl⟩
    exact ⟨(k, v), get_eq_some.1 hv, rfl, rfl⟩

theorem delete_mapValues (f : κ → ν → ν) (h : ∀ k', k' ≠ k → ∀ v, f k' v = v) : (m.mapValues f).delete k = m.delete k := by
  simp only [delete, mapValues, mk.injEq, List.filter_map]
  refine (List.map_congr_left fun e he => ?_).trans (List.map_id _)
  have hne : e.1 ≠ k := by simpa using (List.mem_filter.1 he).2
  exact Prod.ext rfl (h e.1 hne e.2)

/-! ## Grouping -/

/-- Elements grouped under their keys, each added to what is there. -/
def group (key : α → κ) (add : Option ν → α → ν) (xs : List α) : OrderedMap κ ν :=
  xs.foldl (fun m x => m.set (key x) (add (m.get (key x)) x)) empty

variable {key : α → κ} {add : Option ν → α → ν} {xs : List α}

theorem foldl_group : (xs.foldl (fun m x => m.set (key x) (add (m.get (key x)) x)) m).get k =
    (xs.filter fun x => decide (key x = k)).foldl (fun acc x => some (add acc x)) (m.get k) := by
  induction xs generalizing m with
  | nil => rfl
  | cons x xs ih =>
    rw [List.foldl_cons, ih, get_set]
    by_cases h : key x = k
    · subst h
      simp
    · rw [if_neg (Ne.symm h), List.filter_cons_of_neg (by simpa using h)]

/-- **A key's group is the fold of its elements**, in their order. -/
theorem get_group : (group key add xs).get k =
    (xs.filter fun x => decide (key x = k)).foldl (fun acc x => some (add acc x)) none := foldl_group

theorem mem_keys_group : k ∈ (group key add xs).keys ↔ ∃ x ∈ xs, key x = k := by
  suffices h : ∀ m : OrderedMap κ ν, k ∈ (xs.foldl (fun m x => m.set (key x) (add (m.get (key x)) x)) m).keys ↔
      k ∈ m.keys ∨ ∃ x ∈ xs, key x = k by
    rw [group, h, keys_empty]
    simp
  induction xs with
  | nil => simp
  | cons x xs ih =>
    intro m
    rw [List.foldl_cons, ih, mem_keys_set]
    simp [or_assoc, or_left_comm, eq_comm]

theorem entries_set_map {μ : Type w} {n : OrderedMap κ μ} {f : ν → μ}
    (h : n.entries = m.entries.map fun e => (e.1, f e.2)) :
    (n.set k (f v)).entries = (m.set k v).entries.map fun e => (e.1, f e.2) := by
  have hkeys : n.keys = m.keys := by
    rw [keys, keys, h, List.map_map]
    rfl
  simp only [set]
  by_cases hk : k ∈ m.keys
  · rw [if_pos hk, if_pos (hkeys ▸ hk), h, List.map_map, List.map_map]
    refine List.map_congr_left fun e _ => ?_
    by_cases he : e.1 = k
    · simp [he]
    · simp [he]
  · rw [if_neg hk, if_neg (hkeys ▸ hk), h, List.map_append, List.map_singleton]

/-- A function of the values groups as they do. -/
theorem entries_group_map {μ : Type w} (key : α → κ) (f : ν → μ) (add : Option ν → α → ν) (add' : Option μ → α → μ)
    (hf : ∀ acc x, f (add acc x) = add' (acc.map f) x) (xs : List α) :
    (group key add' xs).entries = (group key add xs).entries.map fun e => (e.1, f e.2) := by
  suffices h : ∀ (n : OrderedMap κ μ) (m : OrderedMap κ ν), n.entries = m.entries.map (fun e => (e.1, f e.2)) →
      (xs.foldl (fun n x => n.set (key x) (add' (n.get (key x)) x)) n).entries =
        (xs.foldl (fun m x => m.set (key x) (add (m.get (key x)) x)) m).entries.map fun e => (e.1, f e.2) from
    h empty empty rfl
  induction xs with
  | nil => exact fun _ _ h => h
  | cons x xs ih =>
    intro n m h
    have hget : n.get (key x) = (m.get (key x)).map f := by
      refine Option.ext fun u => ?_
      rw [get_eq_some, h, List.mem_map, Option.map_eq_some_iff]
      simp only [Prod.mk.injEq]
      constructor
      · rintro ⟨e, he, hk, hu⟩
        exact ⟨e.2, get_eq_some.2 (hk ▸ he), hu⟩
      · rintro ⟨v, hv, hu⟩
        exact ⟨(key x, v), get_eq_some.1 hv, rfl, hu⟩
    refine ih _ _ ?_
    simp only [hget, ← hf]
    exact entries_set_map h

section Sums

variable [AddCommMonoid ν] {P : κ → Bool} {w : ν}

theorem sum_key {es : List (κ × ν)} (hnd : (es.map Prod.fst).Nodup) (h : (k, v) ∈ es) :
    sum (fun x => decide (x = k)) es = v := by
  induction es with
  | nil => exact absurd h List.not_mem_nil
  | cons e es ih =>
    obtain ⟨hnot, htail⟩ := List.nodup_cons.1 hnd
    rw [sum_cons]
    rcases List.mem_cons.1 h with rfl | hmem
    · have hnone : es.filter (fun e => decide (e.1 = k)) = [] :=
        List.filter_eq_nil_iff.2 fun d hd hdk => hnot (List.mem_map.2 ⟨d, hd, of_decide_eq_true hdk⟩)
      simp [sum, hnone]
    · have hne : e.1 ≠ k := fun hek => hnot (List.mem_map.2 ⟨_, hmem, hek.symm⟩)
      rw [ih htail hmem]
      simp [hne]

theorem sum_overwrite {es : List (κ × ν)} (hnd : (es.map Prod.fst).Nodup) (h : (k, v) ∈ es) :
    sum P (es.map fun e => if e.1 = k then (k, v + w) else e) = sum P es + if P k then w else 0 := by
  induction es with
  | nil => exact absurd h List.not_mem_nil
  | cons e es ih =>
    obtain ⟨hnot, htail⟩ := List.nodup_cons.1 hnd
    rw [List.map_cons, sum_cons, sum_cons]
    by_cases hek : e.1 = k
    · -- The key is at the head, and nowhere behind.
      have he : e = (k, v) := by
        rcases List.mem_cons.1 h with heq | hmem
        · exact heq.symm
        · exact absurd (List.mem_map.2 ⟨_, hmem, hek.symm⟩) hnot
      have hrest : (es.map fun e => if e.1 = k then (k, v + w) else e) = es := by
        refine (List.map_congr_left fun d hd => if_neg fun hdk => hnot ?_).trans (List.map_id es)
        exact List.mem_map.2 ⟨d, hd, hdk.trans hek.symm⟩
      rw [hrest, if_pos hek, he]
      split <;> simp [add_right_comm]
    · have hmem : (k, v) ∈ es := by
        rcases List.mem_cons.1 h with heq | hmem
        · exact absurd (heq ▸ rfl) hek
        · exact hmem
      rw [if_neg hek, ih htail hmem, add_assoc]

theorem sum_set (w : ν) : sum P (m.set k ((m.get k).getD 0 + w)).entries = sum P m.entries + if P k then w else 0 := by
  cases hget : m.get k with
  | none =>
    have hk : k ∉ m.keys := get_eq_none.1 hget
    simp only [set, if_neg hk, Option.getD_none, zero_add]
    rw [sum, List.filter_append, List.map_append, List.sum_append, sum]
    by_cases hP : P k = true
    · simp [hP]
    · simp [hP]
  | some v =>
    have hk : k ∈ m.keys := mem_keys.2 ⟨v, hget⟩
    simp only [set, if_pos hk, Option.getD_some]
    exact sum_overwrite m.nodup (get_eq_some.1 hget)

/-- **Amounts grouped under any keys sum to what was grouped under them.** -/
theorem sum_group (amount : α → ν) : sum P (group key (fun acc x => acc.getD 0 + amount x) xs).entries =
    ((xs.filter fun x => P (key x)).map amount).sum := by
  suffices h : ∀ m : OrderedMap κ ν,
      sum P (xs.foldl (fun m x => m.set (key x) ((m.get (key x)).getD 0 + amount x)) m).entries =
        sum P m.entries + ((xs.filter fun x => P (key x)).map amount).sum by
    rw [group, h]
    simp [sum, empty]
  induction xs with
  | nil => simp
  | cons x xs ih =>
    intro m
    rw [List.foldl_cons, ih, sum_set, add_assoc]
    by_cases hP : P (key x) = true
    · rw [if_pos hP, List.filter_cons_of_pos (by simpa using hP), List.map_cons, List.sum_cons]
    · rw [if_neg hP, List.filter_cons_of_neg (by simpa using hP), zero_add]

end Sums

end OrderedMap
