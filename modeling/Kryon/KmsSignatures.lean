import Kryon.Types
import Kryon.Lib.Der
import Kryon.Lib.Program
/-!
# KmsSignatures — the signatures a hosted key returns

The signer reads an ECDSA signature as DER with a reader of its own.  The reader accepts a few long lengths that are not
the shortest, but no value inside a signature is that long (`pair_short`), so what it accepts is exactly the canonical
encoding of a pair in the curve's range (`parseDerSignature_ok_iff`).
-/
namespace Kryon.Kms

open Program

def SECP256K1_N : Nat := 0xfffffffffffffffffffffffffffffffebaaedce6af48a03bbfd25e8cd0364141

/-- The bytes a reader has not read yet. -/
abbrev DerReader := Bytes

def DerReader.done (d : DerReader) : Bool := d.isEmpty

/-- The length that starts with the byte `len`, and the bytes behind it. -/
def DerReader.readLength (len : UInt8) (d : DerReader) : Except String (Nat × DerReader) := do
  if len &&& 0x80 ≠ 0 then
    let n := (len &&& 0x7f).toNat
    revertIf (n = 0 ∨ n > 2 ∨ n > d.length) "DER: bad length"
    let long := (d.take n).foldl (fun l x => l <<< 8 ||| x.toNat) 0
    revertIf (long < 0x80) "DER: non-minimal length"
    pure (long, d.drop n)
  else pure (len.toNat, d)

/-- One tagged value with the expected tag. -/
def DerReader.read (tag : UInt8) : DerReader → Except String (Bytes × DerReader)
  | x :: len :: d => do
    revertIf (x ≠ tag) ("DER: expected tag 0x" ++ String.ofList (Nat.toDigits 16 tag.toNat))
    let (l, rest) ← readLength len d
    revertIf (l > rest.length) "DER: truncated"
    pure (rest.take l, rest.drop l)
  | _ => .error "DER: truncated"

def derInteger (v : Bytes) : Except String Nat := do
  revertIf (v.length = 0 ∨ v.length > 33) "DER: bad integer length"
  revertIf (v.getD 0 0 &&& 0x80 ≠ 0) "DER: negative integer"
  revertIf (v.length > 1 ∧ v.getD 0 0 = 0 ∧ v.getD 1 0 &&& 0x80 = 0) "DER: non-minimal integer"
  pure (Der.toNat v)

def parseDerSignature (der : Bytes) : Except String (Nat × Nat) := do
  let (seq, outer) ← DerReader.read 0x30 der
  revertIf (¬ outer.done) "DER: trailing bytes after signature"
  let (v, inner) ← DerReader.read 0x02 seq
  let r ← derInteger v
  let (w, inner) ← DerReader.read 0x02 inner
  let s ← derInteger w
  revertIf (¬ inner.done) "DER: trailing bytes in signature"
  revertIf (r ≤ 0 ∨ r ≥ SECP256K1_N ∨ s ≤ 0 ∨ s ≥ SECP256K1_N) "DER: r or s out of range"
  pure (r, s)

/-! ## What a signature is -/

/-- A signature of the curve: both numbers from one to below its order. -/
def InRange (rs : Nat × Nat) : Prop := (1 ≤ rs.1 ∧ rs.1 < SECP256K1_N) ∧ 1 ≤ rs.2 ∧ rs.2 < SECP256K1_N

/-- The bytes are a sequence of two integers in canonical bytes, and these are the pair. -/
def Encodes (der : Bytes) (rs : Nat × Nat) : Prop :=
  ∃ v w, der = Der.tagged 0x30 (Der.tagged 0x02 v ++ Der.tagged 0x02 w) ∧ (Der.Canonical v ∧ Der.toNat v = rs.1) ∧
    Der.Canonical w ∧ Der.toNat w = rs.2

def encodeDerSignature (rs : Nat × Nat) : Bytes :=
  Der.tagged 0x30 (Der.tagged 0x02 (Der.integer rs.1) ++ Der.tagged 0x02 (Der.integer rs.2))

variable {tag len : UInt8} {v w der : Bytes} {d rest : DerReader} {n l : Nat} {rs : Nat × Nat}

theorem encodes_iff : Encodes der rs ↔ der = encodeDerSignature rs := by
  constructor
  · rintro ⟨v, w, rfl, hv, hw⟩
    rw [encodeDerSignature, ← Der.canonical_iff.1 hv, ← Der.canonical_iff.1 hw]
  · rintro rfl
    exact ⟨_, _, rfl, Der.canonical_iff.2 rfl, Der.canonical_iff.2 rfl⟩

/-! ## The reader -/

theorem sign_bit (x : UInt8) : x &&& 0x80 = 0 ↔ x.toNat < 128 := by
  have hbyte : ∀ n < 256, (n &&& 128 = 0 ↔ n < 128) := by decide +kernel
  rw [← UInt8.toNat_inj, UInt8.toNat_and]
  exact hbyte x.toNat x.toNat_lt

/-- A length below 128 stands in its one byte; the long form starts at 128. -/
theorem readLength_ok (h : DerReader.readLength len d = .ok (l, rest)) : l = len.toNat ∧ rest = d ∧ l < 128 ∨ 128 ≤ l := by
  unfold DerReader.readLength at h
  split at h
  · simp only [bind_ok_iff, revertIf_ok, pure_ok, Prod.mk.injEq] at h
    obtain ⟨-, -, -, hlong, rfl, -⟩ := h
    exact .inr (not_lt.1 hlong)
  · rename_i hbit
    simp only [pure_ok, Prod.mk.injEq] at h
    obtain ⟨rfl, rfl⟩ := h
    exact .inl ⟨rfl, rfl, (sign_bit len).1 (not_not.1 hbit)⟩

theorem readLength_short (h : len.toNat < 128) : DerReader.readLength len d = .ok (len.toNat, d) := by
  rw [DerReader.readLength, if_neg (not_not.2 ((sign_bit len).2 h))]
  rfl

/-- **A value of fewer than 128 bytes is read exactly from its canonical bytes.** -/
theorem read_ok_iff (hv : v.length < 128) : DerReader.read tag d = .ok (v, rest) ↔ d = Der.tagged tag v ++ rest := by
  rw [Der.tagged_short hv]
  constructor
  · intro h
    match d, h with
    | x :: len :: d, h =>
      simp only [DerReader.read, bind_ok_iff, revertIf_ok, pure_ok, Prod.mk.injEq, not_not] at h
      obtain ⟨-, rfl, ⟨l, tail⟩, hlength, -, hl, rfl, rfl⟩ := h
      have htake : (tail.take l).length = l := by
        rw [List.length_take]
        exact min_eq_left (not_lt.1 hl)
      rw [htake] at hv
      rcases readLength_ok hlength with ⟨rfl, rfl, -⟩ | hlong
      · rw [htake, UInt8.ofNat_toNat, List.cons_append, List.cons_append, List.take_append_drop]
      · exact absurd hlong (not_le.2 hv)
  · rintro rfl
    have hbyte := Der.toNat_ofNat_byte (lt_trans hv (by decide))
    simp only [List.cons_append, DerReader.read, bind_ok_iff, revertIf_ok, pure_ok, Prod.mk.injEq, not_not]
    refine ⟨⟨⟩, trivial, (v.length, v ++ rest), ?_, ⟨⟩, ?_, ?_, ?_⟩
    · rw [readLength_short (by rwa [hbyte]), hbyte]
    · rw [List.length_append]
      omega
    · exact List.take_left
    · exact List.drop_left

/-! ## Integers -/

theorem canonical_bytes : Der.Canonical v ↔
    v.length ≠ 0 ∧ v.getD 0 0 &&& 0x80 = 0 ∧ ¬ (v.length > 1 ∧ v.getD 0 0 = 0 ∧ v.getD 1 0 &&& 0x80 = 0) := by
  simp only [sign_bit]
  constructor
  · rintro ⟨hne, hsign, hmin⟩
    cases v with
    | nil => exact absurd rfl hne
    | cons x xs =>
      refine ⟨by simp, hsign x (by simp), ?_⟩
      rintro ⟨hlen, hzero, hsecond⟩
      cases xs with
      | nil => simp at hlen
      | cons y ys =>
        have hx : x = 0 := hzero
        exact absurd (hmin y ys (by rw [hx])) (not_le.2 hsecond)
  · rintro ⟨hne, hsign, hmin⟩
    refine ⟨fun h => hne (by rw [h]; rfl), ?_, ?_⟩
    · intro x hx
      cases v with
      | nil => cases hx
      | cons y ys =>
        obtain rfl : y = x := by simpa using hx
        exact hsign
    · rintro x xs rfl
      by_contra hsmall
      exact hmin ⟨by simp, rfl, not_le.1 hsmall⟩

theorem derInteger_ok_iff : derInteger v = .ok n ↔ v.length ≤ 33 ∧ v = Der.integer n := by
  rw [← Der.canonical_iff, canonical_bytes]
  simp only [derInteger, bind_ok_iff, revertIf_ok, pure_ok, not_or, not_lt, not_not]
  constructor
  · rintro ⟨-, ⟨hne, hlen⟩, -, hsign, -, hmin, hn⟩
    exact ⟨hlen, ⟨hne, hsign, hmin⟩, hn⟩
  · rintro ⟨hlen, ⟨hne, hsign, hmin⟩, hn⟩
    exact ⟨⟨⟩, ⟨hne, hlen⟩, ⟨⟩, hsign, ⟨⟩, hmin, hn⟩

/-! ## Signatures -/

/-- Two integers of at most 33 bytes leave no room for a long length around them. -/
theorem pair_short (hv : v.length ≤ 33) (hw : w.length ≤ 33) : (Der.tagged tag v ++ Der.tagged tag w).length < 128 := by
  rw [Der.tagged_short (by omega), Der.tagged_short (by omega), List.length_append]
  simp only [List.length_cons]
  omega

theorem done_iff : d.done = true ↔ d = [] := List.isEmpty_iff

theorem inRange_iff : InRange rs ↔
    ¬ (rs.1 ≤ 0 ∨ rs.1 ≥ SECP256K1_N ∨ rs.2 ≤ 0 ∨ rs.2 ≥ SECP256K1_N) := by
  unfold InRange
  omega

theorem length_integer_of_lt (h : n < SECP256K1_N) : (Der.integer n).length ≤ 33 :=
  Der.length_integer_le (lt_trans h (by decide +kernel)) (by decide)

/-- **What the signer accepts is the canonical encoding of a pair in range, and it reads that pair.** -/
theorem parseDerSignature_ok_iff : parseDerSignature der = .ok rs ↔ InRange rs ∧ der = encodeDerSignature rs := by
  obtain ⟨r, s⟩ := rs
  rw [inRange_iff]
  simp only [parseDerSignature, bind_ok_iff, revertIf_ok, pure_ok, not_not, done_iff, Prod.exists, Prod.mk.injEq]
  constructor
  · rintro ⟨seq, outer, hseq, -, rfl, v, inner, hv, r, hr, w, inner', hw, s, hs, -, rfl, -, hrange, rfl, rfl⟩
    obtain ⟨hlenv, rfl⟩ := derInteger_ok_iff.1 hr
    obtain ⟨hlenw, rfl⟩ := derInteger_ok_iff.1 hs
    have hv' := (read_ok_iff (by omega)).1 hv
    have hw' := (read_ok_iff (by omega)).1 hw
    rw [List.append_nil] at hw'
    subst hw' hv'
    have hder := (read_ok_iff (pair_short hlenv hlenw)).1 hseq
    rw [List.append_nil] at hder
    exact ⟨hrange, hder⟩
  · rintro ⟨hrange, rfl⟩
    have hlenv : (Der.integer r).length ≤ 33 := length_integer_of_lt (by omega)
    have hlenw : (Der.integer s).length ≤ 33 := length_integer_of_lt (by omega)
    refine ⟨_, [], (read_ok_iff (pair_short hlenv hlenw)).2 (List.append_nil _).symm, ⟨⟩, rfl, Der.integer r, Der.tagged 2 (Der.integer s),
      (read_ok_iff (by omega)).2 rfl, r, derInteger_ok_iff.2 ⟨hlenv, rfl⟩, Der.integer s, [],
      (read_ok_iff (by omega)).2 (List.append_nil _).symm, s, derInteger_ok_iff.2 ⟨hlenw, rfl⟩, ⟨⟩, rfl, ⟨⟩, hrange, rfl, rfl⟩

/-- **Reading signatures is exact**: the accepted bytes are the canonical encodings of the pairs in range, encoding what
was read gives the bytes back, and every such pair is read from its encoding. -/
theorem parseDerSignature_exact :
    (∀ der, (∃ rs, parseDerSignature der = .ok rs) ↔ ∃ rs, InRange rs ∧ Encodes der rs) ∧
    (∀ der rs, parseDerSignature der = .ok rs → encodeDerSignature rs = der) ∧
    ∀ rs, InRange rs → parseDerSignature (encodeDerSignature rs) = .ok rs := by
  refine ⟨fun der => ?_, fun der rs h => ?_, fun rs h => ?_⟩
  · simp only [parseDerSignature_ok_iff, encodes_iff]
  · exact (parseDerSignature_ok_iff.1 h).2.symm
  · exact parseDerSignature_ok_iff.2 ⟨h, rfl⟩

/-- A zero in front that the sign does not need is turned away. -/
example : parseDerSignature [0x30, 7, 2, 2, 0, 1, 2, 1, 1] = .error "DER: non-minimal integer" := rfl

end Kryon.Kms
