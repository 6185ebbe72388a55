import Mathlib.Data.List.Basic
import Mathlib.Data.List.TakeWhile
import Mathlib.Data.Nat.ModEq
/-!
# Grouping — digits with separators between groups of a fixed length

A segment is digits, and after them groups of a separator and `k` digits each.  Dropping the separators that are followed
by exactly `k` digits (`strip`) recovers the digits of a segment, and leaves digits alone only of the text of a segment
(`exists_segment`); a segment is determined by its text.  Separating digits from the right in groups of `k` (`group`)
gives a segment with one to `k` digits in front.
-/
namespace Grouping

universe u
variable {α : Type u}

@[ext] structure Segment (α : Type u) where
  first : List α
  groups : List (List α)

namespace Segment

def text (sep : α) (s : Segment α) : List α := s.first ++ s.groups.flatMap fun g => sep :: g

def digits (s : Segment α) : List α := s.first ++ s.groups.flatten

structure Valid (digit : α → Bool) (k : Nat) (s : Segment α) : Prop where
  first : ∀ c ∈ s.first, digit c = true
  groups : ∀ g ∈ s.groups, g.length = k ∧ ∀ c ∈ g, digit c = true

/-- One to `k` digits in front of the groups. -/
def Proper (k : Nat) (s : Segment α) : Prop := s.groups = [] ∨ (1 ≤ s.first.length ∧ s.first.length ≤ k)

end Segment

variable {digit : α → Bool} {sep : α} {k : Nat} {s s' : Segment α}

theorem takeWhile_append_cons (ds : List α) {b : α} (hb : digit b = false) (rest : List α) :
    (ds ++ b :: rest).takeWhile digit = ds.takeWhile digit := by
  induction ds with
  | nil => simp [hb]
  | cons c ds ih =>
    rw [List.cons_append, List.takeWhile_cons, List.takeWhile_cons, ih]

theorem takeWhile_digits {ds : List α} (h : ∀ c ∈ ds, digit c = true) : ds.takeWhile digit = ds :=
  List.takeWhile_eq_self_iff.2 h

/-- The digits in front of what is empty or begins with the separator. -/
theorem takeWhile_groups (hsep : digit sep = false) {ds : List α} (h : ∀ c ∈ ds, digit c = true)
    (gs : List (List α)) : (ds ++ gs.flatMap fun g => sep :: g).takeWhile digit = ds := by
  cases gs with
  | nil => simpa using h
  | cons g gs => rw [List.flatMap_cons, List.cons_append, takeWhile_append_cons ds hsep, takeWhile_digits h]

theorem Segment.Valid.takeWhile_text (hsep : digit sep = false) (hv : s.Valid digit k) :
    (s.text sep).takeWhile digit = s.first := takeWhile_groups hsep hv.first s.groups

/-- **A segment is determined by its text.** -/
theorem Segment.Valid.text_injective (hsep : digit sep = false) (hv : s.Valid digit k) (hv' : s'.Valid digit k)
    (h : s.text sep = s'.text sep) : s = s' := by
  have hfirst : s.first = s'.first := by
    rw [← hv.takeWhile_text hsep, h, hv'.takeWhile_text hsep]
  have hgroups : ∀ gs gs' : List (List α), (∀ g ∈ gs, g.length = k) → (∀ g ∈ gs', g.length = k) →
      (gs.flatMap fun g => sep :: g) = gs'.flatMap (fun g => sep :: g) → gs = gs' := by
    intro gs
    induction gs with
    | nil =>
      intro gs' _ _ heq
      cases gs' with
      | nil => rfl
      | cons g gs' => simp at heq
    | cons g gs ih =>
      intro gs' hlen hlen' heq
      cases gs' with
      | nil => simp at heq
      | cons g' gs' =>
        simp only [List.flatMap_cons, List.cons_append, List.cons.injEq, true_and] at heq
        obtain ⟨rfl, hrest⟩ := List.append_inj heq ((hlen g List.mem_cons_self).trans (hlen' g' List.mem_cons_self).symm)
        rw [ih gs' (fun x hx => hlen x (List.mem_cons_of_mem g hx)) (fun x hx => hlen' x (List.mem_cons_of_mem g hx)) hrest]
  rw [Segment.text, Segment.text, hfirst] at h
  exact Segment.ext hfirst (hgroups _ _ (fun g hg => (hv.groups g hg).1) (fun g hg => (hv'.groups g hg).1)
    (List.append_cancel_left h))

section Strip

variable [DecidableEq α]

/-- The separators followed by exactly `k` digits dropped. -/
def strip (digit : α → Bool) (sep : α) (k : Nat) : List α → List α
  | [] => []
  | c :: cs => if c = sep ∧ (cs.takeWhile digit).length = k then strip digit sep k cs else c :: strip digit sep k cs

theorem strip_digits (hsep : digit sep = false) {ds : List α} (h : ∀ c ∈ ds, digit c = true) (rest : List α) :
    strip digit sep k (ds ++ rest) = ds ++ strip digit sep k rest := by
  induction ds with
  | nil => rfl
  | cons c ds ih =>
    have hc : c ≠ sep := fun heq => by
      have := h c List.mem_cons_self
      rw [heq, hsep] at this
      exact absurd this (by simp)
    rw [List.cons_append, strip, if_neg fun hand => hc hand.1, ih fun x hx => h x (List.mem_cons_of_mem c hx)]
    rfl

/-- **Stripping a segment's text leaves its digits.** -/
theorem Segment.Valid.strip_text (hsep : digit sep = false) (hv : s.Valid digit k) :
    strip digit sep k (s.text sep) = s.digits := by
  have hgroups : ∀ gs : List (List α), (∀ g ∈ gs, g.length = k ∧ ∀ c ∈ g, digit c = true) →
      strip digit sep k (gs.flatMap fun g => sep :: g) = gs.flatten := by
    intro gs
    induction gs with
    | nil => exact fun _ => rfl
    | cons g gs ih =>
      intro hall
      obtain ⟨hlen, hdigits⟩ := hall g List.mem_cons_self
      have hfollowed : ((g ++ gs.flatMap fun g => sep :: g).takeWhile digit).length = k := by
        rw [takeWhile_groups hsep hdigits, hlen]
      rw [List.flatMap_cons, List.cons_append, strip, if_pos ⟨rfl, hfollowed⟩, strip_digits hsep hdigits,
        ih fun x hx => hall x (List.mem_cons_of_mem g hx), List.flatten_cons]
  rw [Segment.text, strip_digits hsep hv.first, hgroups s.groups hv.groups, Segment.digits]

/-- **What strips to digits alone is the text of a segment.** -/
theorem exists_segment (hsep : digit sep = false) : ∀ t : List α, (∀ c ∈ strip digit sep k t, digit c = true) →
    ∃ s : Segment α, s.Valid digit k ∧ s.text sep = t
  | [], _ => ⟨⟨[], []⟩, ⟨fun _ h => absurd h List.not_mem_nil, fun _ h => absurd h List.not_mem_nil⟩, rfl⟩
  | c :: t, h => by
    rw [strip] at h
    split_ifs at h with hdrop
    · obtain ⟨hc, hlen⟩ := hdrop
      obtain ⟨s, hv, rfl⟩ := exists_segment hsep t h
      rw [hv.takeWhile_text hsep] at hlen
      refine ⟨⟨[], s.first :: s.groups⟩, ⟨fun _ hmem => absurd hmem List.not_mem_nil, fun g hg => ?_⟩, hc ▸ rfl⟩
      rcases List.mem_cons.1 hg with rfl | hg
      · exact ⟨hlen, hv.first⟩
      · exact hv.groups g hg
    · obtain ⟨s, hv, rfl⟩ := exists_segment hsep t fun x hx => h x (List.mem_cons_of_mem c hx)
      refine ⟨⟨c :: s.first, s.groups⟩, ⟨fun x hx => ?_, hv.groups⟩, rfl⟩
      rcases List.mem_cons.1 hx with rfl | hx
      · exact h x List.mem_cons_self
      · exact hv.first x hx

/-- A symbol that is neither a digit nor the separator parts what is stripped. -/
theorem strip_append_cons {b : α} (hb : digit b = false) (hne : b ≠ sep) (rest : List α) : ∀ t : List α,
    strip digit sep k (t ++ b :: rest) = strip digit sep k t ++ b :: strip digit sep k rest
  | [] => by
    show strip digit sep k (b :: rest) = b :: strip digit sep k rest
    rw [strip, if_neg fun h => hne h.1]
  | c :: t => by
    rw [List.cons_append, strip, strip, takeWhile_append_cons t hb, strip_append_cons hb hne rest t]
    split_ifs <;> rfl

theorem mem_strip_of_ne {b : α} (hne : b ≠ sep) : ∀ t : List α, b ∈ strip digit sep k t ↔ b ∈ t
  | [] => Iff.rfl
  | c :: t => by
    rw [strip]
    split_ifs with hdrop
    · rw [mem_strip_of_ne hne t, List.mem_cons, hdrop.1]
      exact ⟨Or.inr, fun h => h.resolve_left hne⟩
    · rw [List.mem_cons, List.mem_cons, mem_strip_of_ne hne t]

end Strip

/-! ## Separating -/

/-- The separator before every group of `k` counted from the right. -/
def group (sep : α) (k : Nat) : List α → List α
  | [] => []
  | c :: cs => if cs.length % k = 0 ∧ cs ≠ [] then c :: sep :: group sep k cs else c :: group sep k cs

theorem succ_mod (hk : 0 < k) (n : Nat) : ((n + 1) % k = 0 ∧ n % k + 1 = k) ∨ (n + 1) % k = n % k + 1 := by
  have hlt := Nat.mod_lt n hk
  rcases Nat.lt_or_ge (n % k + 1) k with hless | hge
  · have hone : 1 % k = 1 := Nat.mod_eq_of_lt (by omega)
    right
    rw [Nat.add_mod_of_add_mod_lt (by rwa [hone]), hone]
  · left
    refine ⟨?_, by omega⟩
    have hn := Nat.div_add_mod n k
    have hmul : n + 1 = k * (n / k + 1) := by
      rw [Nat.mul_add, Nat.mul_one]
      omega
    rw [hmul, Nat.mul_mod_right]

/-- **Separated digits are a segment** with one to `k` digits in front. -/
theorem group_segment (sep : α) (hk : 0 < k) : ∀ ds : List α, (∀ c ∈ ds, digit c = true) → ds ≠ [] →
    ∃ s : Segment α, s.Valid digit k ∧ s.text sep = group sep k ds ∧ s.digits = ds ∧
      s.first.length = (ds.length - 1) % k + 1
  | [c], h, _ => by
    refine ⟨⟨[c], []⟩, ⟨h, fun _ hmem => absurd hmem List.not_mem_nil⟩, ?_, rfl, ?_⟩
    · simp [group, Segment.text]
    · simp
  | c :: d :: ds, h, _ => by
    obtain ⟨s, hv, htext, hdigits, hlen⟩ := group_segment sep hk (d :: ds) (fun x hx => h x (List.mem_cons_of_mem c hx))
      (List.cons_ne_nil d ds)
    have hc : digit c = true := h c List.mem_cons_self
    rw [group]
    simp only [List.length_cons, Nat.add_sub_cancel] at hlen ⊢
    split_ifs with hfull
    · -- the digits behind fill their groups
      have hk' : s.first.length = k := by
        rcases succ_mod hk ds.length with ⟨-, hlast⟩ | hnext
        · rw [hlen, hlast]
        · rw [hnext] at hfull
          exact absurd hfull.1 (Nat.succ_ne_zero _)
      refine ⟨⟨[c], s.first :: s.groups⟩, ⟨fun x hx => ?_, fun g hg => ?_⟩, ?_, ?_, ?_⟩
      · rw [List.mem_singleton.1 hx]
        exact hc
      · rcases List.mem_cons.1 hg with rfl | hg
        · exact ⟨hk', hv.first⟩
        · exact hv.groups g hg
      · rw [← htext]
        rfl
      · rw [← hdigits]
        rfl
      · rw [hfull.1]
        rfl
    · have hnext : (ds.length + 1) % k = ds.length % k + 1 :=
        (succ_mod hk ds.length).resolve_left fun h => hfull ⟨h.1, List.cons_ne_nil d ds⟩
      refine ⟨⟨c :: s.first, s.groups⟩, ⟨fun x hx => ?_, hv.groups⟩, ?_, ?_, ?_⟩
      · rcases List.mem_cons.1 hx with rfl | hx
        · exact hc
        · exact hv.first x hx
      · rw [← htext]
        rfl
      · rw [← hdigits]
        rfl
      · rw [List.length_cons, hlen, hnext]

end Grouping
