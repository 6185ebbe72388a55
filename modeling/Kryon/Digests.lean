import Kryon.Types
import Kryon.Lib.Keccak
import Kryon.Lib.TypedData
/-!
# Digests — what a trader signs

The gateway hashes an order or a cancel by `abi.encode`, the clients by their typed-data schemas, and both arrive at one
digest (`digests_agree`).  A digest binds the chain, the gateway, and every field of the message (`digests_bind`): no
signature for one of them is a signature for another.
-/
namespace Kryon

open Words TypedData

def keccak256 (b : Bytes) : Bytes32 := Fin.ofNat (2 ^ 256) (Keccak.hash b)

/-! ## The contracts -/

namespace OrderLib

def ORDER_TYPEHASH : Bytes32 := keccak256 (utf8 ("Order(address owner,uint32 marketId,bool isLong,uint256 size," ++
  "uint256 limitPrice,bool reduceOnly,uint256 nonce,uint64 expiry,address referrer)").toList)

def CANCEL_TYPEHASH : Bytes32 := keccak256 (utf8 "Cancel(address owner,uint256 nonce,uint64 deadline)".toList)

/-- `abi.encode` of a `bool`. -/
def boolWord (b : Bool) : Nat := if b then 1 else 0

/-- The words of `abi.encode` of an order. -/
def orderWords (o : Order) : List Nat := [Fin.val o.owner, o.marketId.toNat, boolWord o.isLong, o.size, o.limitPrice,
  boolWord o.reduceOnly, o.nonce, o.expiry, Fin.val o.referrer]

def cancelWords (c : Cancel) : List Nat := [Fin.val c.owner, c.nonce, c.deadline]

end OrderLib

/-- What an account signs off-chain. -/
inductive Message where
  | order (o : Order)
  | cancel (c : Cancel)
  deriving DecidableEq

/-- The words that `hashStruct` hashes. -/
def Message.words : Message → List Nat
  | .order o => OrderLib.ORDER_TYPEHASH.val :: OrderLib.orderWords o
  | .cancel c => OrderLib.CANCEL_TYPEHASH.val :: OrderLib.cancelWords c

def OrderLib.hashStruct (m : Message) : Bytes32 := keccak256 (Words.words m.words)

namespace OrderGateway

/-- The words of the domain, for the name and version the gateway is initialized with. -/
def domainWords (chainId : Nat) (gateway : Address) : List Nat := [
  (keccak256 (utf8 "EIP712Domain(string name,string version,uint256 chainId,address verifyingContract)".toList)).val,
  (keccak256 (utf8 "Kryon".toList)).val, (keccak256 (utf8 "1".toList)).val, chainId, Fin.val gateway]

def domainSeparator (chainId : Nat) (gateway : Address) : Bytes32 := keccak256 (words (domainWords chainId gateway))

/-- OpenZeppelin's `_hashTypedDataV4`. -/
def hashTypedDataV4 (chainId : Nat) (gateway : Address) (structHash : Bytes32) : Bytes32 :=
  keccak256 (0x19 :: 0x01 :: words [(domainSeparator chainId gateway).val, structHash.val])

def hashOrder (chainId : Nat) (gateway : Address) (o : Order) : Bytes32 :=
  hashTypedDataV4 chainId gateway (OrderLib.hashStruct (.order o))

def hashCancel (chainId : Nat) (gateway : Address) (c : Cancel) : Bytes32 :=
  hashTypedDataV4 chainId gateway (OrderLib.hashStruct (.cancel c))

end OrderGateway

/-! ## The clients -/

namespace Eip712

def EIP712_NAME : String := "Kryon"

def EIP712_VERSION : String := "1"

def ORDER_TYPES : Schema := ⟨"Order", [⟨"owner", .address⟩, ⟨"marketId", .uint 32⟩, ⟨"isLong", .bool⟩,
  ⟨"size", .uint 256⟩, ⟨"limitPrice", .uint 256⟩, ⟨"reduceOnly", .bool⟩, ⟨"nonce", .uint 256⟩, ⟨"expiry", .uint 64⟩,
  ⟨"referrer", .address⟩]⟩

def CANCEL_TYPES : Schema := ⟨"Cancel", [⟨"owner", .address⟩, ⟨"nonce", .uint 256⟩, ⟨"deadline", .uint 64⟩]⟩

/-- The schema that the wallet library gives the members of a domain that are set. -/
def DOMAIN_TYPES : Schema := ⟨"EIP712Domain", [⟨"name", .string⟩, ⟨"version", .string⟩, ⟨"chainId", .uint 256⟩,
  ⟨"verifyingContract", .address⟩]⟩

def kryonDomain (chainId : Nat) (gateway : Address) : List Value :=
  [.text EIP712_NAME, .text EIP712_VERSION, .number chainId, .number (Fin.val gateway)]

def boolValue (b : Bool) : Value := .number (if b then 1 else 0)

/-- An order's values, in the order of `ORDER_TYPES`. -/
def orderTypedData (o : Order) : List Value := [.number (Fin.val o.owner), .number o.marketId.toNat, boolValue o.isLong,
  .number o.size, .number o.limitPrice, boolValue o.reduceOnly, .number o.nonce, .number o.expiry,
  .number (Fin.val o.referrer)]

def cancelTypedData (c : Cancel) : List Value := [.number (Fin.val c.owner), .number c.nonce, .number c.deadline]

def hashOrder (chainId : Nat) (gateway : Address) (o : Order) : Bytes32 :=
  hashTypedData keccak256 DOMAIN_TYPES (kryonDomain chainId gateway) ORDER_TYPES (orderTypedData o)

def hashCancel (chainId : Nat) (gateway : Address) (c : Cancel) : Bytes32 :=
  hashTypedData keccak256 DOMAIN_TYPES (kryonDomain chainId gateway) CANCEL_TYPES (cancelTypedData c)

end Eip712

/-! ## One digest -/

section Agreement

-- Where both sides hash one string, they are equal whatever the hash does.
attribute [local irreducible] keccak256

variable (chainId : Nat) (gateway : Address)

theorem domain_agrees : hashStruct keccak256 Eip712.DOMAIN_TYPES (Eip712.kryonDomain chainId gateway) =
    OrderGateway.domainSeparator chainId gateway := by
  have htype : Eip712.DOMAIN_TYPES.encodeType =
      "EIP712Domain(string name,string version,uint256 chainId,address verifyingContract)".toList := by decide +kernel
  rw [hashStruct, encodeData, htype]
  rfl

theorem order_agrees (o : Order) :
    hashStruct keccak256 Eip712.ORDER_TYPES (Eip712.orderTypedData o) = OrderLib.hashStruct (.order o) := by
  have htype : Eip712.ORDER_TYPES.encodeType = ("Order(address owner,uint32 marketId,bool isLong,uint256 size," ++
      "uint256 limitPrice,bool reduceOnly,uint256 nonce,uint64 expiry,address referrer)").toList := by decide +kernel
  rw [hashStruct, encodeData, htype]
  rfl

theorem cancel_agrees (c : Cancel) :
    hashStruct keccak256 Eip712.CANCEL_TYPES (Eip712.cancelTypedData c) = OrderLib.hashStruct (.cancel c) := by
  have htype : Eip712.CANCEL_TYPES.encodeType = "Cancel(address owner,uint256 nonce,uint64 deadline)".toList := by
    decide +kernel
  rw [hashStruct, encodeData, htype]
  rfl

theorem hashOrder_agrees (o : Order) :
    Eip712.hashOrder chainId gateway o = OrderGateway.hashOrder chainId gateway o := by
  rw [Eip712.hashOrder, hashTypedData, domain_agrees, order_agrees]
  rfl

theorem hashCancel_agrees (c : Cancel) :
    Eip712.hashCancel chainId gateway c = OrderGateway.hashCancel chainId gateway c := by
  rw [Eip712.hashCancel, hashTypedData, domain_agrees, cancel_agrees]
  rfl

/-- **The clients' digests are the gateway's**, of every order and of every cancel. -/
theorem digests_agree : (∀ o, Eip712.hashOrder chainId gateway o = OrderGateway.hashOrder chainId gateway o) ∧
    ∀ c, Eip712.hashCancel chainId gateway c = OrderGateway.hashCancel chainId gateway c := by
  refine ⟨fun o => ?_, fun c => ?_⟩
  · exact hashOrder_agrees chainId gateway o
  · exact hashCancel_agrees chainId gateway c

end Agreement

namespace Sample

/-- The order of the repository's golden digest. -/
def goldenOrder : Order where
  owner := (0x1111111111111111111111111111111111111111 : Address)
  marketId := 2
  isLong := true
  size := 3 * 10 ^ 18 / 2
  limitPrice := 65000 * 10 ^ 18
  reduceOnly := false
  nonce := 42
  expiry := 1790000000
  referrer := 0

end Sample

example : Eip712.hashOrder 5042002 0xC0FFEE Sample.goldenOrder =
    0x3743031a08c230b780fb7de256d4133060df6d15605dd1d497e009f92b05895e := by decide +kernel

/-! ## What a digest binds -/

namespace Message

/-- Every field is of its type. -/
def Fits : Message → Prop
  | .order o => o.size < 2 ^ 256 ∧ o.limitPrice < 2 ^ 256 ∧ o.nonce < 2 ^ 256 ∧ o.expiry < 2 ^ 64
  | .cancel c => c.nonce < 2 ^ 256 ∧ c.deadline < 2 ^ 64

instance : (m : Message) → Decidable m.Fits
  | .order _ => instDecidableAnd
  | .cancel _ => instDecidableAnd

/-- The digest an account signs on a chain, for a gateway. -/
def digest (chainId : Nat) (gateway : Address) : Message → Bytes32
  | .order o => OrderGateway.hashOrder chainId gateway o
  | .cancel c => OrderGateway.hashCancel chainId gateway c

/-- The strings hashed on the way to a digest. -/
def hashed (chainId : Nat) (gateway : Address) (m : Message) : List Bytes :=
  [Words.words (OrderGateway.domainWords chainId gateway), Words.words m.words,
    envelope (OrderGateway.domainSeparator chainId gateway) (OrderLib.hashStruct m)]

section
attribute [local irreducible] keccak256

variable {m m' : Message} {chainId chainId' : Nat} {gateway gateway' : Address}

theorem digest_eq (m : Message) : m.digest chainId gateway =
    keccak256 (envelope (OrderGateway.domainSeparator chainId gateway) (OrderLib.hashStruct m)) := by
  cases m <;> rfl

theorem boolWord_injective {a b : Bool} (h : OrderLib.boolWord a = OrderLib.boolWord b) : a = b := by
  cases a <;> cases b <;> simp_all [OrderLib.boolWord]

/-- The words of a message that fits are words. -/
theorem Fits.words (h : m.Fits) : ∀ n ∈ m.words, n < 2 ^ 256 := by
  have haddress : ∀ a : Address, Fin.val a < 2 ^ 256 := fun a => lt_trans a.isLt (by decide)
  cases m with
  | order o =>
    obtain ⟨hsize, hlimit, hnonce, hexpiry⟩ := h
    have hmarket : o.marketId.toNat < 2 ^ 256 := lt_trans o.marketId.isLt (by decide)
    have hbool : ∀ b, OrderLib.boolWord b < 2 ^ 256 := by decide
    simp only [Message.words, OrderLib.orderWords, List.forall_mem_cons, List.not_mem_nil, false_implies,
      implies_true, and_true]
    exact ⟨Fin.isLt _, haddress _, hmarket, hbool _, hsize, hlimit, hbool _, hnonce,
      lt_trans hexpiry (by decide), haddress _⟩
  | cancel c =>
    obtain ⟨hnonce, hdeadline⟩ := h
    simp only [Message.words, OrderLib.cancelWords, List.forall_mem_cons, List.not_mem_nil, false_implies,
      implies_true, and_true]
    exact ⟨Fin.isLt _, haddress _, hnonce, lt_trans hdeadline (by decide)⟩

/-- A message is known by its words: the two kinds have not as many of them. -/
theorem words_eq (h : m.words = m'.words) : m = m' := by
  cases m with
  | order o =>
    cases m' with
    | order o' =>
      simp only [Message.words, OrderLib.orderWords, List.cons.injEq, and_true, true_and] at h
      obtain ⟨howner, hmarket, hlong, hsize, hlimit, hreduce, hnonce, hexpiry, hreferrer⟩ := h
      cases o
      cases o'
      rw [Message.order.injEq, Order.mk.injEq]
      exact ⟨Fin.ext howner, MarketId.toNat_injective hmarket, boolWord_injective hlong, hsize, hlimit,
        boolWord_injective hreduce, hnonce, hexpiry, Fin.ext hreferrer⟩
    | cancel c => simpa [Message.words, OrderLib.orderWords, OrderLib.cancelWords] using congrArg List.length h
  | cancel c =>
    cases m' with
    | order o => simpa [Message.words, OrderLib.orderWords, OrderLib.cancelWords] using congrArg List.length h
    | cancel c' =>
      simp only [Message.words, OrderLib.cancelWords, List.cons.injEq, and_true, true_and] at h
      obtain ⟨howner, hnonce, hdeadline⟩ := h
      cases c
      cases c'
      rw [Message.cancel.injEq, Cancel.mk.injEq]
      exact ⟨Fin.ext howner, hnonce, hdeadline⟩

theorem domainWords_lt (hc : chainId < 2 ^ 256) : ∀ n ∈ OrderGateway.domainWords chainId gateway, n < 2 ^ 256 := by
  simp only [OrderGateway.domainWords, List.forall_mem_cons, List.not_mem_nil, false_implies, implies_true, and_true]
  exact ⟨Fin.isLt _, Fin.isLt _, Fin.isLt _, hc, lt_trans gateway.isLt (by decide)⟩

/-- **Equal digests are of one message in one domain**, where Keccak has no collision among the strings hashed for them. -/
theorem digest_injective (hm : m.Fits) (hm' : m'.Fits) (hc : chainId < 2 ^ 256) (hc' : chainId' < 2 ^ 256)
    (hsep : Separates keccak256 (m.hashed chainId gateway ++ m'.hashed chainId' gateway'))
    (h : m.digest chainId gateway = m'.digest chainId' gateway') : chainId = chainId' ∧ gateway = gateway' ∧ m = m' := by
  rw [digest_eq, digest_eq] at h
  obtain ⟨hdomain, hstruct⟩ := envelope_injective (hsep _ (by simp [hashed]) _ (by simp [hashed]) h)
  have hdomains := words_injective (domainWords_lt hc) (domainWords_lt hc')
    (hsep _ (by simp [hashed]) _ (by simp [hashed]) hdomain)
  have hmessages := words_injective hm.words hm'.words (hsep _ (by simp [hashed]) _ (by simp [hashed]) hstruct)
  simp only [OrderGateway.domainWords, List.cons.injEq, and_true, true_and] at hdomains
  exact ⟨hdomains.1, Fin.ext hdomains.2, words_eq hmessages⟩

end

end Message

/-- **A digest binds** the chain, the gateway and the whole message: wherever Keccak has no collision among the six strings
that two digests were hashed from, they are equal only when all of these are. -/
theorem digests_bind {m m' : Message} {chainId chainId' : Nat} {gateway gateway' : Address} (hm : m.Fits) (hm' : m'.Fits)
    (hc : chainId < 2 ^ 256) (hc' : chainId' < 2 ^ 256)
    (hsep : Separates keccak256 (m.hashed chainId gateway ++ m'.hashed chainId' gateway')) :
    m.digest chainId gateway = m'.digest chainId' gateway' ↔ chainId = chainId' ∧ gateway = gateway' ∧ m = m' := by
  constructor
  · exact Message.digest_injective hm hm' hc hc' hsep
  · rintro ⟨rfl, rfl, rfl⟩
    rfl

/-- The golden order is another digest on another chain. -/
theorem digests_bind_golden : ¬ (Message.order Sample.goldenOrder).digest 5042002 0xC0FFEE =
    (Message.order Sample.goldenOrder).digest 5042 0xC0FFEE := by
  rw [digests_bind (by decide) (by decide) (by decide) (by decide) (by decide +kernel)]
  rintro ⟨hchain, -⟩
  exact absurd hchain (by decide)

end Kryon
