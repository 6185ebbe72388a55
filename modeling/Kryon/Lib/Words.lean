import Kryon.Lib.Der
import Mathlib.Tactic.Ring
/-!
# Words — numbers in a fixed number of bytes, and 32-byte words one after another

A number below `256 ^ k` is what its `k` big-endian bytes spell (`toNat_bytes`), so a list of words is read back from its
bytes (`words_injective`) and each of them from its own place (`word_at`).
-/
namespace Words

open Der (toNat)

/-- The last `k` big-endian bytes of a number. -/
def bytes : Nat → Nat → List UInt8
  | 0, _ => []
  | k + 1, n => bytes k (n / 256) ++ [UInt8.ofNat (n % 256)]

def word (n : Nat) : List UInt8 := bytes 32 n

/-- Numbers, a word each. -/
def words (ns : List Nat) : List UInt8 := ns.flatMap word

/-- Bytes behind their length, filled up with zeros to whole words. -/
def counted (b : List UInt8) : List UInt8 := word b.length ++ (b ++ List.replicate ((32 - b.length % 32) % 32) 0)

variable {k m n : Nat} {ms ns : List Nat} {b rest : List UInt8}

@[simp] theorem length_bytes : ∀ k n : Nat, (bytes k n).length = k
  | 0, _ => rfl
  | k + 1, n => by rw [bytes, List.length_append, length_bytes k, List.length_singleton]

@[simp] theorem length_word (n : Nat) : (word n).length = 32 := length_bytes 32 n

@[simp] theorem length_words (ns : List Nat) : (words ns).length = 32 * ns.length := by
  induction ns with
  | nil => rfl
  | cons n ns ih =>
    rw [words, List.flatMap_cons, List.length_append, length_word]
    change 32 + (words ns).length = _
    rw [ih, List.length_cons]
    ring

theorem toNat_append_byte (b : List UInt8) (x : UInt8) : toNat (b ++ [x]) = toNat b * 256 + x.toNat := by
  rw [Der.toNat, List.foldl_append]
  rfl

theorem toNat_bytes : ∀ {k n : Nat}, n < 256 ^ k → toNat (bytes k n) = n
  | 0, n, h => by
    have hn : n = 0 := by simpa using h
    rw [hn]
    rfl
  | k + 1, n, h => by
    have hdiv : n / 256 < 256 ^ k := Nat.div_lt_of_lt_mul (by rwa [← Nat.pow_succ'])
    rw [bytes, toNat_append_byte, toNat_bytes hdiv, Der.toNat_ofNat_byte (Nat.mod_lt n (by decide))]
    omega

theorem toNat_word (h : n < 2 ^ 256) : toNat (word n) = n := toNat_bytes h

theorem word_injective (hm : m < 2 ^ 256) (hn : n < 2 ^ 256) (h : word m = word n) : m = n := by
  rw [← toNat_word hm, h, toNat_word hn]

theorem words_cons (n : Nat) (ns : List Nat) : words (n :: ns) = word n ++ words ns := List.flatMap_cons

/-- **Words are read back from their bytes.** -/
theorem words_injective (hm : ∀ m ∈ ms, m < 2 ^ 256) (hn : ∀ n ∈ ns, n < 2 ^ 256) (h : words ms = words ns) : ms = ns := by
  induction ms generalizing ns with
  | nil =>
    cases ns with
    | nil => rfl
    | cons n ns => simpa using congrArg List.length h
  | cons m ms ih =>
    cases ns with
    | nil => simpa using congrArg List.length h
    | cons n ns =>
      rw [List.forall_mem_cons] at hm hn
      rw [words_cons, words_cons] at h
      obtain ⟨hhead, htail⟩ := List.append_inj h (by rw [length_word, length_word])
      rw [word_injective hm.1 hn.1 hhead, ih hm.2 hn.2 htail]

/-- The word at its place. -/
theorem word_at {i : Nat} (hi : i < ns.length) (h : ns[i] < 2 ^ 256) :
    toNat (((words ns ++ rest).drop (32 * i)).take 32) = ns[i] := by
  induction ns generalizing i with
  | nil => exact absurd hi (Nat.not_lt_zero i)
  | cons n ns ih =>
    cases i with
    | zero =>
      rw [Nat.mul_zero, List.drop_zero, words_cons, List.append_assoc, List.take_left' (length_word n)]
      exact toNat_word h
    | succ i =>
      rw [Nat.mul_succ, Nat.add_comm, ← List.drop_drop, words_cons, List.append_assoc, List.drop_left' (length_word n)]
      exact ih (Nat.lt_of_succ_lt_succ hi) h

theorem length_counted (b : List UInt8) :
    (counted b).length = 32 + (b.length + (32 - b.length % 32) % 32) := by
  rw [counted, List.length_append, length_word, List.length_append, List.length_replicate]

end Words
