import Mathlib.Data.Nat.Digits.Lemmas
/-!
# DER — the distinguished encoding of tagged values and of unsigned integers

A number has one shortest big-endian spelling (`toNat_spell`, `spell_toNat`), and an integer one canonical encoding: that
spelling, behind a zero where its first bit is set (`canonical_iff`).  A tagged value is its tag, its length and its bytes.
-/
namespace Der

/-- The number that big-endian bytes spell. -/
def toNat (b : List UInt8) : Nat := b.foldl (fun n x => n * 256 + x.toNat) 0

/-- The shortest big-endian bytes of a number, none for zero. -/
def spell (n : Nat) : List UInt8 := ((Nat.digits 256 n).map UInt8.ofNat).reverse

/-- The bytes of an unsigned integer. -/
def integer (n : Nat) : List UInt8 :=
  match spell n with
  | [] => [0]
  | x :: xs => if x.toNat < 128 then x :: xs else 0 :: x :: xs

/-- A length: one byte below 128, and otherwise the number of its bytes and these. -/
def length (n : Nat) : List UInt8 :=
  if n < 128 then [UInt8.ofNat n] else UInt8.ofNat (128 + (spell n).length) :: spell n

def tagged (tag : UInt8) (value : List UInt8) : List UInt8 := tag :: (length value.length ++ value)

/-- The bytes of an unsigned integer have no sign bit and no zero in front that the sign does not need. -/
structure Canonical (b : List UInt8) : Prop where
  ne_nil : b ≠ []
  unsigned : ∀ x ∈ b.head?, x.toNat < 128
  minimal : ∀ x xs, b = 0 :: x :: xs → 128 ≤ x.toNat

variable {b : List UInt8} {n k : Nat}

theorem toNat_ofNat_byte (h : n < 256) : (UInt8.ofNat n).toNat = n := UInt8.toNat_ofNat_of_lt' h

theorem foldl_toNat (b : List UInt8) : ∀ m : Nat,
    b.foldl (fun n x => n * 256 + x.toNat) m = m * 256 ^ b.length + toNat b := by
  induction b with
  | nil => intro m; simp [toNat]
  | cons x b ih =>
    intro m
    change b.foldl _ (m * 256 + x.toNat) = m * 256 ^ (b.length + 1) + b.foldl _ (0 * 256 + x.toNat)
    rw [ih, ih (0 * 256 + x.toNat), Nat.pow_succ]
    ring

theorem toNat_cons (x : UInt8) (b : List UInt8) : toNat (x :: b) = x.toNat * 256 ^ b.length + toNat b := by
  rw [toNat, List.foldl_cons, foldl_toNat, Nat.zero_mul, Nat.zero_add]

/-- Read from its end, a list of bytes is a list of digits. -/
theorem toNat_eq (b : List UInt8) : toNat b = Nat.ofDigits 256 (b.reverse.map UInt8.toNat) := by
  induction b with
  | nil => rfl
  | cons x b ih =>
    rw [toNat_cons, ih, List.reverse_cons, List.map_append, Nat.ofDigits_append]
    simp only [List.map_cons, List.map_nil, Nat.ofDigits_singleton, List.length_map, List.length_reverse]
    ring

theorem spell_reverse (n : Nat) : (spell n).reverse.map UInt8.toNat = Nat.digits 256 n := by
  rw [spell, List.reverse_reverse, List.map_map]
  conv_rhs => rw [← List.map_id (Nat.digits 256 n)]
  exact List.map_congr_left fun d hd => toNat_ofNat_byte (Nat.digits_lt_base (by decide) hd)

/-- **A number is read back from its spelling.** -/
theorem toNat_spell (n : Nat) : toNat (spell n) = n := by
  rw [toNat_eq, spell_reverse, Nat.ofDigits_digits]

/-- **Bytes without a zero in front are the spelling of their number.** -/
theorem spell_toNat (h : ∀ x ∈ b.head?, x ≠ 0) : spell (toNat b) = b := by
  have hdigits : Nat.digits 256 (toNat b) = b.reverse.map UInt8.toNat := by
    rw [toNat_eq]
    refine Nat.digits_ofDigits 256 (by decide) _ ?_ ?_
    · intro d hd
      obtain ⟨x, -, rfl⟩ := List.mem_map.1 hd
      exact x.toNat_lt
    · intro hne
      cases b with
      | nil => exact absurd rfl hne
      | cons x b =>
        have hlast : ((x :: b).reverse.map UInt8.toNat).getLast hne = x.toNat := by simp
        rw [hlast]
        intro hzero
        exact h x (by simp) (UInt8.toNat_inj.1 hzero)
  rw [spell, hdigits, List.map_map, ← List.map_reverse, List.reverse_reverse]
  conv_rhs => rw [← List.map_id b]
  exact List.map_congr_left fun x _ => UInt8.ofNat_toNat

theorem spell_zero : spell 0 = [] := by simp [spell]

/-- A spelling has no zero in front. -/
theorem spell_head {n : Nat} {x : UInt8} {xs : List UInt8} (h : spell n = x :: xs) : x ≠ 0 := by
  rintro rfl
  have hdigits := spell_reverse n
  rw [h, List.reverse_cons, List.map_append] at hdigits
  have hne : n ≠ 0 := by
    rintro rfl
    rw [spell_zero] at h
    cases h
  have hlast := Nat.getLast_digit_ne_zero 256 hne
  simp [← hdigits] at hlast

theorem length_spell_le (h : n < 256 ^ k) : (spell n).length ≤ k := by
  rw [spell, List.length_reverse, List.length_map]
  exact (Nat.digits_length_le_iff (by decide) n).2 h

/-! ## Integers -/

theorem toNat_zero_cons (b : List UInt8) : toNat (0 :: b) = toNat b := by
  rw [toNat_cons]
  simp

theorem toNat_integer (n : Nat) : toNat (integer n) = n := by
  have hspell := toNat_spell n
  unfold integer
  split
  · rename_i h
    rw [h] at hspell
    exact hspell
  · rename_i x xs h
    rw [h] at hspell
    split
    · exact hspell
    · rw [toNat_zero_cons]
      exact hspell

theorem integer_canonical (n : Nat) : Canonical (integer n) := by
  unfold integer
  split
  · exact ⟨by simp, by simp, by simp⟩
  · rename_i x xs h
    have hx := spell_head h
    split
    · rename_i hsmall
      exact ⟨by simp, by simpa using hsmall, fun y ys hy => absurd (List.cons.inj hy).1 hx⟩
    · rename_i hlarge
      refine ⟨by simp, by simp, fun y ys hy => ?_⟩
      rw [← (List.cons.inj (List.cons.inj hy).2).1]
      exact not_lt.1 hlarge

/-- **Canonical bytes are the encoding of their number.** -/
theorem integer_toNat (h : Canonical b) : integer (toNat b) = b := by
  cases b with
  | nil => exact absurd rfl h.ne_nil
  | cons x xs =>
    have hsmall : x.toNat < 128 := h.unsigned x (by simp)
    by_cases hx : x = 0
    · subst hx
      rw [toNat_zero_cons]
      cases xs with
      | nil => rfl
      | cons y ys =>
        have hlarge := h.minimal y ys rfl
        have hy : y ≠ 0 := by
          rintro rfl
          exact absurd hlarge (by decide)
        rw [integer, spell_toNat (by simpa using hy)]
        simp only
        rw [if_neg (not_lt.2 hlarge)]
    · rw [integer, spell_toNat (by simpa using hx)]
      simp only
      rw [if_pos hsmall]

theorem canonical_iff : Canonical b ∧ toNat b = n ↔ b = integer n := by
  constructor
  · rintro ⟨h, rfl⟩
    exact (integer_toNat h).symm
  · rintro rfl
    exact ⟨integer_canonical n, toNat_integer n⟩

theorem length_integer_le (h : n < 256 ^ k) (hk : 0 < k) : (integer n).length ≤ k + 1 := by
  have hspell := length_spell_le h
  unfold integer
  split
  · rw [List.length_singleton]
    omega
  · rename_i x xs heq
    rw [heq] at hspell
    split
    · omega
    · rw [List.length_cons]
      omega

/-! ## Tagged values -/

theorem tagged_short {tag : UInt8} (h : b.length < 128) : tagged tag b = tag :: UInt8.ofNat b.length :: b := by
  rw [tagged, length, if_pos h]
  rfl

end Der
