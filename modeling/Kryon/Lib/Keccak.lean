import Mathlib.Algebra.Ring.Nat
/-!
# Keccak — Keccak-256, the hash of the EVM

The 1600-bit state is five planes of five 64-bit lanes.  A message is padded to whole blocks of 136 bytes, the blocks are
absorbed one after another, and the digest is the first 32 bytes of the state.
-/
namespace Keccak

/-- A 64-bit lane, turned left. -/
def rotl (x n : Nat) : Nat := (x <<< n ||| x >>> (64 - n)) % 2 ^ 64

/-- Five lanes, by their first coordinate. -/
structure Plane where
  a : Nat
  b : Nat
  c : Nat
  d : Nat
  e : Nat

/-- Five planes, by their second coordinate. -/
structure State where
  p : Plane
  q : Plane
  r : Plane
  s : Plane
  t : Plane

def Plane.xor (x y : Plane) : Plane := ⟨x.a ^^^ y.a, x.b ^^^ y.b, x.c ^^^ y.c, x.d ^^^ y.d, x.e ^^^ y.e⟩

def State.xor (x y : State) : State := ⟨x.p.xor y.p, x.q.xor y.q, x.r.xor y.r, x.s.xor y.s, x.t.xor y.t⟩

/-! ## The permutation -/

/-- Each lane, with the parities of the column before it and of the one after it turned by one. -/
def theta (x : State) : State :=
  let c := (((x.p.xor x.q).xor x.r).xor x.s).xor x.t
  let d : Plane := ⟨c.e ^^^ rotl c.b 1, c.a ^^^ rotl c.c 1, c.b ^^^ rotl c.d 1, c.c ^^^ rotl c.e 1, c.d ^^^ rotl c.a 1⟩
  ⟨x.p.xor d, x.q.xor d, x.r.xor d, x.s.xor d, x.t.xor d⟩

/-- Every lane turned by its own offset, and moved. -/
def rhoPi (x : State) : State :=
  ⟨⟨x.p.a, rotl x.q.b 44, rotl x.r.c 43, rotl x.s.d 21, rotl x.t.e 14⟩,
   ⟨rotl x.p.d 28, rotl x.q.e 20, rotl x.r.a 3, rotl x.s.b 45, rotl x.t.c 61⟩,
   ⟨rotl x.p.b 1, rotl x.q.c 6, rotl x.r.d 25, rotl x.s.e 8, rotl x.t.a 18⟩,
   ⟨rotl x.p.e 27, rotl x.q.a 36, rotl x.r.b 10, rotl x.s.c 15, rotl x.t.d 56⟩,
   ⟨rotl x.p.c 62, rotl x.q.d 55, rotl x.r.e 39, rotl x.s.a 41, rotl x.t.b 2⟩⟩

def chiLane (x y z : Nat) : Nat := x ^^^ ((2 ^ 64 - 1 - y) &&& z)

def chiPlane (x : Plane) : Plane :=
  ⟨chiLane x.a x.b x.c, chiLane x.b x.c x.d, chiLane x.c x.d x.e, chiLane x.d x.e x.a, chiLane x.e x.a x.b⟩

def chi (x : State) : State := ⟨chiPlane x.p, chiPlane x.q, chiPlane x.r, chiPlane x.s, chiPlane x.t⟩

def iota (rc : Nat) (x : State) : State := { x with p := { x.p with a := x.p.a ^^^ rc } }

def roundConstants : List Nat := [
  0x0000000000000001, 0x0000000000008082, 0x800000000000808a, 0x8000000080008000, 0x000000000000808b, 0x0000000080000001,
  0x8000000080008081, 0x8000000000008009, 0x000000000000008a, 0x0000000000000088, 0x0000000080008009, 0x000000008000000a,
  0x000000008000808b, 0x800000000000008b, 0x8000000000008089, 0x8000000000008003, 0x8000000000008002, 0x8000000000000080,
  0x000000000000800a, 0x800000008000000a, 0x8000000080008081, 0x8000000000008080, 0x0000000080000001, 0x8000000080008008]

def permute (x : State) : State := roundConstants.foldl (fun x rc => iota rc (chi (rhoPi (theta x)))) x

/-! ## The sponge -/

/-- Bytes absorbed at a time. -/
def rate : Nat := 136

/-- The message, a one bit, zeros up to the last bit of a block, and a one bit there. -/
def pad (msg : List UInt8) : List UInt8 :=
  let n := rate - msg.length % rate
  if n = 1 then msg ++ [0x81] else msg ++ 0x01 :: (List.replicate (n - 2) 0 ++ [0x80])

/-- The little-endian lane at place `i` of a block. -/
def lane (block : List UInt8) (i : Nat) : Nat := ((block.drop (8 * i)).take 8).foldr (fun b n => n * 256 + b.toNat) 0

def plane (block : List UInt8) (i : Nat) : Plane :=
  ⟨lane block i, lane block (i + 1), lane block (i + 2), lane block (i + 3), lane block (i + 4)⟩

/-- A block's lanes, and zeros in the capacity. -/
def ofBlock (block : List UInt8) : State :=
  ⟨plane block 0, plane block 5, plane block 10, plane block 15, plane block 20⟩

def absorb : Nat → State → List UInt8 → State
  | 0, x, _ => x
  | k + 1, x, msg => absorb k (permute (x.xor (ofBlock (msg.take rate)))) (msg.drop rate)

/-- The big-endian number that a lane's little-endian bytes spell. -/
def swap : Nat → Nat → Nat
  | 0, _ => 0
  | k + 1, n => n % 256 * 256 ^ k + swap k (n / 256)

/-- The digest of a message, as a big-endian number. -/
def hash (msg : List UInt8) : Nat :=
  let zero : Plane := ⟨0, 0, 0, 0, 0⟩
  let x := absorb ((pad msg).length / rate) ⟨zero, zero, zero, zero, zero⟩ (pad msg)
  ((swap 8 x.p.a * 2 ^ 64 + swap 8 x.p.b) * 2 ^ 64 + swap 8 x.p.c) * 2 ^ 64 + swap 8 x.p.d

-- The digest of no bytes at all.
example : hash [] = 0xc5d2460186f7233c927e7db2dcc703c0e500b653ca82273b7bfad8045d85a470 := by decide +kernel

end Keccak
