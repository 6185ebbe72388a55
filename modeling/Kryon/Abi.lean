import Kryon.Types
/-!
# Abi — the decoder of the signatures the backstop accepts

The compiler's strict decoder for `(bytes, bytes)` and for a nine-word `Order`: offsets and lengths must stay inside the
data, and every narrow field must fit its type.  `none` is a revert.
-/
namespace Kryon.Abi

/-- The big-endian number a list of bytes spells. -/
def toNat (b : Bytes) : Nat := b.foldl (fun n x => n * 256 + x.toNat) 0

/-- The word at byte offset `i`. -/
def word (data : Bytes) (i : Nat) : Nat := toNat ((data.drop i).take 32)

def MAX_OFFSET : Nat := 2 ^ 64 - 1

/-- The `bytes` whose length word stands at `offset`. -/
def decodeBytes (data : Bytes) (offset : Nat) : Option Bytes :=
  if offset > MAX_OFFSET ∨ offset + 31 ≥ data.length then none
  else
    let length := word data offset
    if length > MAX_OFFSET ∨ offset + 32 + length > data.length then none
    else some ((data.drop (offset + 32)).take length)

def decodeBytesPair (data : Bytes) : Option (Bytes × Bytes) :=
  if data.length < 64 then none
  else do
    let a ← decodeBytes data (word data 0)
    let b ← decodeBytes data (word data 32)
    pure (a, b)

def decodeAddress (n : Nat) : Option Address := if n < 2 ^ 160 then some (Fin.ofNat (2 ^ 160) n) else none

def decodeBool (n : Nat) : Option Bool := if n = 0 then some false else if n = 1 then some true else none

def decodeUint (bits n : Nat) : Option Nat := if n < 2 ^ bits then some n else none

def decodeOrder (data : Bytes) : Option Order :=
  if data.length < 9 * 32 then none
  else do
    let owner ← decodeAddress (word data 0)
    let marketId ← decodeUint 32 (word data 32)
    let isLong ← decodeBool (word data 64)
    let reduceOnly ← decodeBool (word data 160)
    let expiry ← decodeUint 64 (word data 224)
    let referrer ← decodeAddress (word data 256)
    pure {
      owner := owner
      marketId := MarketId.ofNat marketId
      isLong := isLong
      size := word data 96
      limitPrice := word data 128
      reduceOnly := reduceOnly
      nonce := word data 192
      expiry := expiry
      referrer := referrer }

end Kryon.Abi
