import Mathlib.Data.List.Basic
import Mathlib.Order.Basic
/-!
# Cursor — reading a keyed log from a position

A log kept in strictly increasing key order is read on from the key of the last entry that was read; no key stands for its
start.  The entries past the position of a prefix are the rest of the log.
-/
namespace Kryon.Cursor

variable {α κ : Type} (key : α → Option κ)

/-- The position after a list of entries. -/
def lastKey (xs : List α) : Option κ := xs.getLast?.bind key

/-- Whether an entry is past a position. -/
def isAfter [LT κ] [DecidableLT κ] (pos : Option κ) (x : α) : Bool :=
  match pos, key x with
  | none, _ => true
  | some a, some k => decide (a < k)
  | some _, none => false

/-- A position of the log: what was read is a prefix of it. -/
def At (log : List α) (pos : Option κ) : Prop := ∃ pre post, log = pre ++ post ∧ lastKey key pre = pos

/-- A segment of the log right after a position. -/
def Next (log : List α) (pos : Option κ) (seg : List α) : Prop :=
  ∃ pre post, log = pre ++ seg ++ post ∧ lastKey key pre = pos

structure Ordered [Preorder κ] (log : List α) : Prop where
  keyed : ∀ x ∈ log, (key x).isSome
  sorted : log.Pairwise fun x y => ∀ a ∈ key x, ∀ b ∈ key y, a < b

variable {key} {log pre pre' post post' seg xs : List α} {pos : Option κ} {x : α} {k : κ}

theorem lastKey_nil : lastKey key ([] : List α) = none := rfl

theorem lastKey_concat (xs : List α) (x : α) : lastKey key (xs ++ [x]) = key x := by simp [lastKey]

theorem lastKey_append (xs : List α) {ys : List α} (h : ys ≠ []) : lastKey key (xs ++ ys) = lastKey key ys := by
  rw [lastKey, lastKey, List.getLast?_append_of_ne_nil xs h]

theorem Next.at (h : Next key log pos seg) : At key log pos := by
  obtain ⟨pre, post, rfl, hpos⟩ := h
  exact ⟨pre, seg ++ post, List.append_assoc .., hpos⟩

/-- A log that grows keeps its positions and segments. -/
theorem At.append (h : At key log pos) (more : List α) : At key (log ++ more) pos := by
  obtain ⟨pre, post, rfl, hpos⟩ := h
  exact ⟨pre, post ++ more, List.append_assoc .., hpos⟩

theorem Next.append (h : Next key log pos seg) (more : List α) : Next key (log ++ more) pos seg := by
  obtain ⟨pre, post, rfl, hpos⟩ := h
  exact ⟨pre, post ++ more, List.append_assoc .., hpos⟩

theorem at_lastKey (log : List α) : At key log (lastKey key log) := ⟨log, [], (List.append_nil log).symm, rfl⟩

/-- The position a segment leads to. -/
theorem Next.last (h : Next key log pos seg) (hseg : seg ≠ []) : At key log (lastKey key seg) := by
  obtain ⟨pre, post, rfl, -⟩ := h
  exact ⟨pre ++ seg, post, rfl, lastKey_append pre hseg⟩

section Order

variable [Preorder κ]

theorem ordered_nil : Ordered key ([] : List α) := ⟨by simp, List.Pairwise.nil⟩

theorem Ordered.left (h : Ordered key (pre ++ post)) : Ordered key pre :=
  ⟨fun x hx => h.keyed x (List.mem_append_left _ hx), (List.pairwise_append.1 h.sorted).1⟩

/-- Nothing in a log is past its last key. -/
theorem Ordered.le_last (h : Ordered key log) (hx : x ∈ log) (hk : key x = some k) :
    ∃ last, lastKey key log = some last ∧ k ≤ last := by
  obtain ⟨xs, y, rfl⟩ := List.eq_nil_or_concat log |>.resolve_left (List.ne_nil_of_mem hx)
  rw [List.concat_eq_append] at *
  obtain ⟨last, hlast⟩ := Option.isSome_iff_exists.1 (h.keyed y (by simp))
  refine ⟨last, by rw [lastKey_concat, hlast], ?_⟩
  rcases List.mem_append.1 hx with hx | hx
  · exact ((List.pairwise_append.1 h.sorted).2.2 x hx y (by simp) k hk last hlast).le
  · have hxy := List.mem_singleton.1 hx
    rw [hxy, hlast, Option.some.injEq] at hk
    exact hk.ge

/-- An entry with a key past the last one goes at the end. -/
theorem Ordered.push (h : Ordered key log) (hk : key x = some k) (hlast : ∀ last ∈ lastKey key log, last < k) :
    Ordered key (log ++ [x]) := by
  refine ⟨fun y hy => ?_, List.pairwise_append.2 ⟨h.sorted, List.pairwise_singleton _ x, fun y hy z hz a ha b hb => ?_⟩⟩
  · rcases List.mem_append.1 hy with hy | hy
    · exact h.keyed y hy
    · rw [List.mem_singleton.1 hy, hk]
      rfl
  · have hzx := List.mem_singleton.1 hz
    obtain ⟨last, hl, hle⟩ := h.le_last hy ha
    have hb' : key x = some b := hzx ▸ hb
    rw [hk, Option.some.injEq] at hb'
    exact hb' ▸ hle.trans_lt (hlast last hl)

variable [DecidableLT κ]

/-- **What is past the position of a prefix is the rest of the log.** -/
theorem Ordered.read (h : Ordered key (pre ++ post)) : (pre ++ post).filter (isAfter key (lastKey key pre)) = post := by
  have hpre : ∀ x ∈ pre, isAfter key (lastKey key pre) x = false := by
    intro x hx
    obtain ⟨k, hk⟩ := Option.isSome_iff_exists.1 (h.left.keyed x hx)
    obtain ⟨last, hlast, hle⟩ := h.left.le_last hx hk
    simpa [isAfter, hlast, hk] using hle.not_gt
  have hpost : ∀ x ∈ post, isAfter key (lastKey key pre) x = true := by
    intro x hx
    obtain ⟨k, hk⟩ := Option.isSome_iff_exists.1 (h.keyed x (List.mem_append_right _ hx))
    rcases List.eq_nil_or_concat pre with rfl | ⟨ys, y, rfl⟩
    · rfl
    · rw [List.concat_eq_append] at *
      obtain ⟨last, hlast⟩ := Option.isSome_iff_exists.1 (h.left.keyed y (by simp))
      have hlt := (List.pairwise_append.1 h.sorted).2.2 y (by simp) x hx last hlast k hk
      simpa [isAfter, lastKey_concat, hlast, hk] using hlt
  rw [List.filter_append, List.filter_eq_nil_iff.2 fun x hx => by simp [hpre x hx], List.nil_append,
    List.filter_eq_self.2 hpost]

/-- A read from a position is the segment of the log right after it. -/
theorem Ordered.next (h : Ordered key log) (hat : At key log pos) (limit : Nat) :
    Next key log pos ((log.filter (isAfter key pos)).take limit) := by
  obtain ⟨pre, post, rfl, rfl⟩ := hat
  rw [h.read]
  exact ⟨pre, post.drop limit, by rw [List.append_assoc, List.take_append_drop], rfl⟩

/-- A position is that of one prefix only. -/
theorem Ordered.unique (h : Ordered key (pre ++ post)) (heq : pre ++ post = pre' ++ post')
    (hpos : lastKey key pre = lastKey key pre') : pre = pre' := by
  have hread := h.read
  rw [heq, hpos, Ordered.read (heq ▸ h)] at hread
  rw [hread] at heq
  exact List.append_cancel_right heq

end Order

end Kryon.Cursor
