import Kryon.Lib.Words
/-!
# TypedData — the digests of typed structures

A structure is hashed as a word for its type and one for each member, and signed under the hash of a domain, itself such a
structure.  What a digest says of the two is known as far as the hash has no collision among the strings it was given.
-/
namespace TypedData

open Words

/-- The types of a member. -/
inductive Kind where
  | address
  | bool
  | string
  | uint (bits : Nat)

def Kind.text : Kind → List Char
  | .address => "address".toList
  | .bool => "bool".toList
  | .string => "string".toList
  | .uint bits => "uint".toList ++ Nat.toDigits 10 bits

structure Member where
  name : String
  type : Kind

/-- A structure's name and its members, in order. -/
structure Schema where
  name : String
  members : List Member

/-- The text that stands for a type, for example `Cancel(address owner,uint256 nonce,uint64 deadline)`. -/
def Schema.encodeType (s : Schema) : List Char :=
  s.name.toList ++ '(' :: ([','].intercalate (s.members.map fun m => m.type.text ++ ' ' :: m.name.toList) ++ [')'])

inductive Value where
  | number (n : Nat)
  | text (s : String)

def utf8 (s : List Char) : List UInt8 := s.flatMap String.utf8EncodeChar

section
variable (hash : List UInt8 → Fin (2 ^ 256))

/-- A number is its own word, and a text the hash of it. -/
def Value.encode : Value → Nat
  | .number n => n
  | .text s => (hash (utf8 s.toList)).val

def encodeData (s : Schema) (values : List Value) : List UInt8 :=
  words ((hash (utf8 s.encodeType)).val :: values.map (Value.encode hash))

def hashStruct (s : Schema) (values : List Value) : Fin (2 ^ 256) := hash (encodeData hash s values)

end

/-- What is signed, before it is hashed. -/
def envelope (domain message : Fin (2 ^ 256)) : List UInt8 := 0x19 :: 0x01 :: words [domain.val, message.val]

section
variable (hash : List UInt8 → Fin (2 ^ 256))

/-- The digest of a structure under a domain. -/
def hashTypedData (domain : Schema) (domainValues : List Value) (s : Schema) (values : List Value) : Fin (2 ^ 256) :=
  hash (envelope (hashStruct hash domain domainValues) (hashStruct hash s values))

/-- The hash has no collision among these strings. -/
def Separates (strings : List (List UInt8)) : Prop := ∀ x ∈ strings, ∀ y ∈ strings, hash x = hash y → x = y

instance (strings : List (List UInt8)) : Decidable (Separates hash strings) :=
  inferInstanceAs (Decidable (∀ _ ∈ _, ∀ _ ∈ _, _ → _))

end

/-- An envelope holds the hashes of its domain and of its message. -/
theorem envelope_injective {d d' m m' : Fin (2 ^ 256)} (h : envelope d m = envelope d' m') : d = d' ∧ m = m' := by
  have hwords := (List.cons_inj_right 0x01).1 ((List.cons_inj_right 0x19).1 h)
  have hlist : [d.val, m.val] = [d'.val, m'.val] := by
    exact words_injective (by simp) (by simp) hwords
  injection hlist with hd hm
  injection hm with hm
  exact ⟨Fin.ext hd, Fin.ext hm⟩

end TypedData
