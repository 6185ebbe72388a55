import Kryon.Sample
/-!
# UnwindSignatures — which byte strings the backstop's signature check can read

`isValidSignature` decodes the bytes it is given with the compiler's strict decoder, and only a signature shorter than two
empty byte strings is turned away first.  So the check returns exactly on the well-formed signatures and on those it does
not read (`signature_check_total_iff`), and where it returns it accepts only what the backstop's signer signed.
-/
namespace Kryon

open Program

namespace Abi

variable {data : Bytes} {offset : Nat}

/-- The length word at the offset and the bytes it counts lie inside the data. -/
structure Holds (data : Bytes) (offset : Nat) : Prop where
  offset_le : offset ≤ MAX_OFFSET
  word_le : offset + 32 ≤ data.length
  length_le : word data offset ≤ MAX_OFFSET
  payload_le : offset + 32 + word data offset ≤ data.length

def payload (data : Bytes) (offset : Nat) : Bytes := (data.drop (offset + 32)).take (word data offset)

/-- Every narrow word of an order fits its field. -/
structure FitsOrder (data : Bytes) : Prop where
  owner : word data 0 < 2 ^ 160
  marketId : word data 32 < 2 ^ 32
  isLong : word data 64 ≤ 1
  reduceOnly : word data 160 ≤ 1
  expiry : word data 224 < 2 ^ 64
  referrer : word data 256 < 2 ^ 160

theorem decodeBytes_iff {b : Bytes} : decodeBytes data offset = some b ↔ Holds data offset ∧ payload data offset = b := by
  unfold decodeBytes
  constructor
  · intro h
    split at h
    · exact absurd h (by simp)
    · rename_i hword
      simp only at h
      split at h
      · exact absurd h (by simp)
      · rename_i hlength
        rw [not_or, not_lt, not_le] at hword
        rw [not_or, not_lt, not_lt] at hlength
        exact ⟨⟨hword.1, hword.2, hlength.1, hlength.2⟩, Option.some.inj h⟩
  · rintro ⟨⟨hoffset, hword, hlength, hpayload⟩, rfl⟩
    rw [if_neg (by omega)]
    simp only
    rw [if_neg (by omega)]
    rfl

theorem decodeBytesPair_iff (hlen : 64 ≤ data.length) {a b : Bytes} :
    decodeBytesPair data = some (a, b) ↔
      (Holds data (word data 0) ∧ payload data (word data 0) = a) ∧
        (Holds data (word data 32) ∧ payload data (word data 32) = b) := by
  rw [decodeBytesPair, if_neg (not_lt.2 hlen), ← decodeBytes_iff, ← decodeBytes_iff]
  simp [Option.bind_eq_some_iff]

theorem exists_decodeBool {n : Nat} : (∃ b, decodeBool n = some b) ↔ n ≤ 1 := by
  unfold decodeBool
  split
  · rename_i hzero
    exact ⟨fun _ => hzero ▸ Nat.zero_le 1, fun _ => ⟨false, rfl⟩⟩
  · split
    · rename_i hone
      exact ⟨fun _ => hone.le, fun _ => ⟨true, rfl⟩⟩
    · constructor
      · rintro ⟨b, hb⟩
        exact absurd hb (by simp)
      · omega

theorem exists_decodeAddress {n : Nat} : (∃ a, decodeAddress n = some a) ↔ n < 2 ^ 160 := by
  unfold decodeAddress
  split
  · rename_i hlt
    exact ⟨fun _ => hlt, fun _ => ⟨_, rfl⟩⟩
  · rename_i hge
    exact ⟨fun ⟨_, h⟩ => absurd h (by simp), fun h => absurd h hge⟩

theorem exists_decodeUint {bits n : Nat} : (∃ m, decodeUint bits n = some m) ↔ n < 2 ^ bits := by
  simp [decodeUint]

theorem exists_decodeOrder (hlen : 9 * 32 ≤ data.length) : (∃ o, decodeOrder data = some o) ↔ FitsOrder data := by
  rw [decodeOrder, if_neg (not_lt.2 hlen)]
  constructor
  · rintro ⟨o, ho⟩
    simp only [Option.bind_eq_bind, Option.bind_eq_some_iff] at ho
    obtain ⟨owner, howner, marketId, hmarketId, isLong, hisLong, reduceOnly, hreduceOnly, expiry, hexpiry, referrer,
      hreferrer, -⟩ := ho
    exact ⟨exists_decodeAddress.1 ⟨_, howner⟩, exists_decodeUint.1 ⟨_, hmarketId⟩, exists_decodeBool.1 ⟨_, hisLong⟩,
      exists_decodeBool.1 ⟨_, hreduceOnly⟩, exists_decodeUint.1 ⟨_, hexpiry⟩, exists_decodeAddress.1 ⟨_, hreferrer⟩⟩
  · intro h
    obtain ⟨owner, howner⟩ := exists_decodeAddress.2 h.owner
    obtain ⟨marketId, hmarketId⟩ := exists_decodeUint.2 h.marketId
    obtain ⟨isLong, hisLong⟩ := exists_decodeBool.2 h.isLong
    obtain ⟨reduceOnly, hreduceOnly⟩ := exists_decodeBool.2 h.reduceOnly
    obtain ⟨expiry, hexpiry⟩ := exists_decodeUint.2 h.expiry
    obtain ⟨referrer, hreferrer⟩ := exists_decodeAddress.2 h.referrer
    simp only [howner, hmarketId, hisLong, hreduceOnly, hexpiry, hreferrer, Option.bind_eq_bind, Option.bind_some]
    exact ⟨_, rfl⟩

end Abi

variable {D : Deployment} {env : Env} {w : World} {hash : Bytes32} {signature : Bytes}

def orderAbi (signature : Bytes) : Bytes := Abi.payload signature (Abi.word signature 0)

def signerSig (signature : Bytes) : Bytes := Abi.payload signature (Abi.word signature 32)

/-- Both byte strings lie inside the signature, and a first one of the length of an order is an order. -/
structure WellFormed (signature : Bytes) : Prop where
  orderAbi : Abi.Holds signature (Abi.word signature 0)
  signerSig : Abi.Holds signature (Abi.word signature 32)
  order : (Kryon.orderAbi signature).length = 9 * 32 → Abi.FitsOrder (Kryon.orderAbi signature)

/-- The signature carries a reduce-only order of Insurance's own with the digest, signed by a backstop signer. -/
structure Authorised (D : Deployment) (env : Env) (w : World) (hash : Bytes32) (signature : Bytes) (o : Order)
    (signer : Address) : Prop where
  decoded : Abi.decodeOrder (orderAbi signature) = some o
  digest : env.hashOrder o = hash
  reduceOnly : o.reduceOnly = true
  owner : o.owner = D.insurance
  signed : env.tryRecover hash (signerSig signature) = some signer
  role : w.hasRole .insurance .backstopSigner signer = true

theorem validUnwindOrder_iff {o : Order} {sig : Bytes} :
    Insurance.validUnwindOrder D env w hash o sig = true ↔
      (o.owner = D.insurance ∧ o.reduceOnly = true) ∧ o.expiry ≤ w.timestamp + Insurance.MAX_UNWIND_ORDER_TTL ∧
        env.hashOrder o = hash ∧
        ∃ signer, env.tryRecover hash sig = some signer ∧ w.hasRole .insurance .backstopSigner signer = true := by
  unfold Insurance.validUnwindOrder
  by_cases hown : o.owner ≠ D.insurance ∨ o.reduceOnly = false
  · rw [if_pos hown]
    simp only [Bool.false_eq_true, false_iff]
    rintro ⟨⟨howner, hreduce⟩, -⟩
    rcases hown with h | h
    · exact h howner
    · exact absurd (hreduce.symm.trans h) (by decide)
  · rw [if_neg hown]
    rw [not_or, ne_eq, not_not, Bool.not_eq_false] at hown
    by_cases hexp : o.expiry > w.timestamp + Insurance.MAX_UNWIND_ORDER_TTL
    · simp [hexp]
    · by_cases hhash : env.hashOrder o = hash
      · cases env.tryRecover hash sig with
        | none => simp [hexp, hhash]
        | some signer => simp [hown, hexp, hhash, not_lt.1 hexp]
      · simp [hexp, hhash]

/-- What the check turns away before it decodes anything. -/
def Unread (D : Deployment) (w : World) (signature : Bytes) : Prop :=
  w.insurance.maxUnwindDeviationBps = 0 ∨ D.insuranceGateway = 0 ∨ signature.length < 128

theorem isValidSignature_unread (h : Unread D w signature) :
    Insurance.isValidSignature D env w hash signature = .ok false := by
  unfold Insurance.isValidSignature
  split
  · rfl
  · rename_i hread
    rw [if_pos (by
      rcases h with h | h | h
      · exact absurd (Or.inl h) hread
      · exact absurd (Or.inr h) hread
      · exact h)]
    rfl

/-- **What is read is decoded, and judged by the order it carries.** -/
theorem isValidSignature_read (h : ¬ Unread D w signature) {valid : Bool} :
    Insurance.isValidSignature D env w hash signature = .ok valid ↔
      Abi.Holds signature (Abi.word signature 0) ∧ Abi.Holds signature (Abi.word signature 32) ∧
        if (orderAbi signature).length = 9 * 32 then
          ∃ o, Abi.decodeOrder (orderAbi signature) = some o ∧
            Insurance.validUnwindOrder D env w hash o (signerSig signature) = valid
        else valid = false := by
  rw [Unread, not_or, not_or, not_lt] at h
  obtain ⟨henabled, hgateway, hlen⟩ := h
  have hpair : 64 ≤ signature.length := by omega
  unfold Insurance.isValidSignature
  rw [if_neg (by simp [henabled, hgateway]), if_neg (not_lt.2 hlen)]
  cases hd : Abi.decodeBytesPair signature with
  | none =>
    simp only [reduceCtorEq, false_iff]
    rintro ⟨hfirst, hsecond, -⟩
    rw [(Abi.decodeBytesPair_iff hpair).2 ⟨⟨hfirst, rfl⟩, hsecond, rfl⟩] at hd
    cases hd
  | some p =>
    obtain ⟨a, b⟩ := p
    obtain ⟨⟨hfirst, rfl⟩, hsecond, rfl⟩ := (Abi.decodeBytesPair_iff hpair).1 hd
    simp only [hfirst, hsecond, true_and]
    change (if (orderAbi signature).length ≠ 9 * 32 then _ else _) = _ ↔ _
    by_cases hsize : (orderAbi signature).length = 9 * 32
    · rw [if_neg (not_not.2 hsize), if_pos hsize]
      cases ho : Abi.decodeOrder (orderAbi signature) with
      | none => simp [show Abi.decodeOrder (Abi.payload signature (Abi.word signature 0)) = none from ho]
      | some o =>
        simp only [show Abi.decodeOrder (Abi.payload signature (Abi.word signature 0)) = some o from ho, pure_ok]
        constructor
        · intro hvalid
          exact ⟨o, rfl, hvalid⟩
        · rintro ⟨o', ho', hvalid⟩
          rw [Option.some.inj ho']
          exact hvalid
    · rw [if_pos hsize, if_neg hsize, pure_ok]
      exact eq_comm

theorem isValidSignature_returns (h : ¬ Unread D w signature) :
    (∃ valid, Insurance.isValidSignature D env w hash signature = .ok valid) ↔ WellFormed signature := by
  constructor
  · rintro ⟨valid, hvalid⟩
    obtain ⟨hfirst, hsecond, horder⟩ := (isValidSignature_read h).1 hvalid
    refine ⟨hfirst, hsecond, fun hsize => ?_⟩
    rw [if_pos hsize] at horder
    obtain ⟨o, ho, -⟩ := horder
    exact (Abi.exists_decodeOrder hsize.ge).1 ⟨o, ho⟩
  · rintro ⟨hfirst, hsecond, horder⟩
    by_cases hsize : (orderAbi signature).length = 9 * 32
    · obtain ⟨o, ho⟩ := (Abi.exists_decodeOrder hsize.ge).2 (horder hsize)
      refine ⟨Insurance.validUnwindOrder D env w hash o (signerSig signature),
        (isValidSignature_read h).2 ⟨hfirst, hsecond, ?_⟩⟩
      rw [if_pos hsize]
      exact ⟨o, ho, rfl⟩
    · refine ⟨false, (isValidSignature_read h).2 ⟨hfirst, hsecond, ?_⟩⟩
      rw [if_neg hsize]

/-- **What is accepted is authorised.** -/
theorem isValidSignature_authorised (h : Insurance.isValidSignature D env w hash signature = .ok true) :
    ∃ o signer, Authorised D env w hash signature o signer := by
  have hread : ¬ Unread D w signature := fun hunread => by
    rw [isValidSignature_unread hunread] at h
    cases h
  obtain ⟨hfirst, hsecond, horder⟩ := (isValidSignature_read hread).1 h
  by_cases hsize : (orderAbi signature).length = 9 * 32
  · rw [if_pos hsize] at horder
    obtain ⟨o, ho, hvalid⟩ := horder
    obtain ⟨⟨howner, hreduce⟩, -, hhash, signer, hsigned, hrole⟩ := validUnwindOrder_iff.1 hvalid
    exact ⟨o, signer, ho, hhash, hreduce, howner, hsigned, hrole⟩
  · rw [if_neg hsize] at horder
    cases horder

/-- **The check is total exactly on well-formed signatures and on those it does not read.** It returns, and accepts only
what is authorised, if and only if unwinds are disabled, the signature is shorter than 128 bytes, or both byte strings it
points to lie inside it and a first one of nine words fits an order's fields. -/
theorem signature_check_total_iff (D : Deployment) (env : Env) (w : World) (hash : Bytes32) (signature : Bytes) :
    ((∃ valid, Insurance.isValidSignature D env w hash signature = .ok valid) ∧
      (Insurance.isValidSignature D env w hash signature = .ok true →
        ∃ o signer, Authorised D env w hash signature o signer)) ↔
      (Unread D w signature ∨ WellFormed signature) := by
  rw [and_iff_left isValidSignature_authorised]
  by_cases hread : Unread D w signature
  · exact iff_of_true ⟨false, isValidSignature_unread hread⟩ (Or.inl hread)
  · rw [isValidSignature_returns hread, or_iff_right hread]

/-- 128 bytes of 255: the first offset points beyond them, and the decoder reverts. -/
theorem signature_check_reverts :
    let w := Sample.outcome Sample.unwinding
    let signature : Bytes := List.replicate 128 255
    Insurance.isValidSignature Sample.deployment Sample.env w 0 signature = .error .abiDecoding ∧
      ¬ ∃ valid, Insurance.isValidSignature Sample.deployment Sample.env w 0 signature = .ok valid := by
  intro w signature
  have hreverts : Insurance.isValidSignature Sample.deployment Sample.env w 0 signature = .error .abiDecoding := by
    decide +kernel
  refine ⟨hreverts, ?_⟩
  rintro ⟨valid, hvalid⟩
  rw [hreverts] at hvalid
  cases hvalid

end Kryon
