import Kryon.Digests
import Kryon.UnwindSignatures
/-!
# UnwindEnvelope — the signature the backstop's keeper sends

The keeper signs the clients' digest of an unwind order and sends the order and the signature in one byte string.  The
backstop's check reads back exactly these two (`backstopSignature_read`), whatever the signature's bytes are, and so it
accepts the order on its own terms and never reverts on it (`unwind_order_accepted`).
-/
namespace Kryon

open Words

namespace Unwinder

/-- `abi.encode` of two byte strings: where each begins, and then the two. -/
def encodeBytesPair (a b : Bytes) : Bytes := words [64, 64 + (counted a).length] ++ (counted a ++ counted b)

/-- `abi.encode(abi.encode(order), signerSignature)`. -/
def backstopSignature (o : Order) (signerSignature : Bytes) : Bytes :=
  encodeBytesPair (words (OrderLib.orderWords o)) signerSignature

def signUnwindOrder (signTypedData : Bytes32 → Bytes) (chainId : Nat) (gateway : Address) (o : Order) : Bytes :=
  backstopSignature o (signTypedData (Eip712.hashOrder chainId gateway o))

end Unwinder

namespace Abi

variable {before after a b : Bytes}

theorem word_words {ns : List Nat} {i : Nat} (hi : i < ns.length) (h : ns[i] < 2 ^ 256) :
    word (words ns ++ after) (32 * i) = ns[i] := word_at hi h

/-- A counted byte string at its place. -/
theorem word_counted (hb : b.length < 2 ^ 256) : word (before ++ (counted b ++ after)) before.length = b.length := by
  rw [word, List.drop_left, counted, List.append_assoc, List.take_left' (length_word _)]
  exact toNat_word hb

theorem payload_counted (hb : b.length < 2 ^ 256) : payload (before ++ (counted b ++ after)) before.length = b := by
  rw [payload, word_counted hb, ← List.drop_drop, List.drop_left, counted, List.append_assoc,
    List.drop_left' (length_word _), List.append_assoc, List.take_left]

theorem holds_counted (hbefore : before.length ≤ MAX_OFFSET) (hb : b.length ≤ MAX_OFFSET) :
    Holds (before ++ (counted b ++ after)) before.length := by
  have hword : word (before ++ (counted b ++ after)) before.length = b.length :=
    word_counted (lt_of_le_of_lt hb (by decide))
  have hlen : (before ++ (counted b ++ after)).length =
      before.length + (32 + (b.length + (32 - b.length % 32) % 32) + after.length) := by
    rw [List.length_append, List.length_append, length_counted]
  refine ⟨hbefore, ?_, ?_, ?_⟩
  · omega
  · rw [hword]
    exact hb
  · rw [hword]
    omega

/-- **Two byte strings are read back from their encoding.** -/
theorem decodeBytesPair_encode (hab : 64 + (counted a).length ≤ MAX_OFFSET) (hb : b.length ≤ MAX_OFFSET) :
    let data := Unwinder.encodeBytesPair a b
    (Holds data (word data 0) ∧ payload data (word data 0) = a) ∧
      (Holds data (word data 32) ∧ payload data (word data 32) = b) := by
  intro data
  have hMAX : MAX_OFFSET < 2 ^ 256 := by decide
  have hhead : (words [64, 64 + (counted a).length]).length = 64 := length_words _
  have ha : a.length ≤ MAX_OFFSET := by
    have := length_counted a
    omega
  -- The first string lies behind the two offsets, the second behind the first.
  have hzero : word data 0 = (words [64, 64 + (counted a).length]).length := by
    rw [hhead]
    exact word_words (i := 0) (by simp) (by simp)
  have hone : word data 32 = (words [64, 64 + (counted a).length] ++ counted a).length := by
    rw [List.length_append, hhead]
    exact word_words (i := 1) (by simp) (lt_of_le_of_lt hab hMAX)
  have hfirst : data = words [64, 64 + (counted a).length] ++ (counted a ++ counted b) := rfl
  have hsecond : data = words [64, 64 + (counted a).length] ++ counted a ++ (counted b ++ []) := by
    rw [List.append_nil, List.append_assoc]
    rfl
  refine ⟨?_, ?_⟩
  · rw [hzero, hfirst]
    exact ⟨holds_counted (by rw [hhead]; decide) ha, payload_counted (lt_of_le_of_lt ha hMAX)⟩
  · rw [hone, hsecond]
    exact ⟨holds_counted (by rw [List.length_append, hhead]; exact hab) hb, payload_counted (lt_of_le_of_lt hb hMAX)⟩

theorem decodeAddress_val (a : Address) : decodeAddress (Fin.val a) = some a := by
  rw [decodeAddress, if_pos a.isLt]
  exact congrArg some (Fin.ext (Nat.mod_eq_of_lt a.isLt))

theorem decodeBool_boolWord (b : Bool) : decodeBool (OrderLib.boolWord b) = some b := by
  cases b <;> rfl

theorem decodeUint_of_lt {bits n : Nat} (h : n < 2 ^ bits) : decodeUint bits n = some n := if_pos h

/-- **An order is read back from its words.** -/
theorem decodeOrder_words {o : Order} (h : (Message.order o).Fits) :
    decodeOrder (words (OrderLib.orderWords o)) = some o := by
  have hlt : ∀ n ∈ OrderLib.orderWords o, n < 2 ^ 256 := fun n hn => h.words n (List.mem_cons_of_mem _ hn)
  have hat : ∀ i (hi : i < (OrderLib.orderWords o).length),
      word (words (OrderLib.orderWords o)) (32 * i) = (OrderLib.orderWords o)[i] := fun i hi => by
    have hword : word (words (OrderLib.orderWords o) ++ []) (32 * i) = (OrderLib.orderWords o)[i] :=
      word_words hi (hlt _ (List.getElem_mem hi))
    rwa [List.append_nil] at hword
  generalize hdata : words (OrderLib.orderWords o) = data at hat ⊢
  have hlen : data.length = 9 * 32 := by
    rw [← hdata]
    exact length_words _
  have howner : word data 0 = Fin.val o.owner := hat 0 (show 0 < 9 by decide)
  have hmarket : word data 32 = o.marketId.toNat := hat 1 (show 1 < 9 by decide)
  have hlong : word data 64 = OrderLib.boolWord o.isLong := hat 2 (show 2 < 9 by decide)
  have hsize : word data 96 = o.size := hat 3 (show 3 < 9 by decide)
  have hlimit : word data 128 = o.limitPrice := hat 4 (show 4 < 9 by decide)
  have hreduce : word data 160 = OrderLib.boolWord o.reduceOnly := hat 5 (show 5 < 9 by decide)
  have hnonce : word data 192 = o.nonce := hat 6 (show 6 < 9 by decide)
  have hexpiry : word data 224 = o.expiry := hat 7 (show 7 < 9 by decide)
  have hreferrer : word data 256 = Fin.val o.referrer := hat 8 (show 8 < 9 by decide)
  rw [decodeOrder, if_neg (by omega), howner, hmarket, hlong, hsize, hlimit, hreduce, hnonce, hexpiry, hreferrer,
    decodeAddress_val, decodeUint_of_lt (show o.marketId.toNat < 2 ^ 32 from o.marketId.isLt), decodeBool_boolWord,
    decodeBool_boolWord, decodeUint_of_lt h.2.2.2, decodeAddress_val]
  simp only [Option.bind_eq_bind, Option.bind_some, Option.pure_def, MarketId.ofNat_toNat]

end Abi

/-! ## The check -/

variable {D : Deployment} {env : Env} {w : World} {hash : Bytes32} {o : Order} {sig : Bytes}

namespace Unwinder

/-- **The backstop reads what the keeper sent.** -/
theorem backstopSignature_read (hfits : (Message.order o).Fits) (hsig : sig.length < 2 ^ 64)
    (henabled : w.insurance.maxUnwindDeviationBps ≠ 0) (hgateway : D.insuranceGateway ≠ 0) :
    Insurance.isValidSignature D env w hash (backstopSignature o sig) =
      .ok (Insurance.validUnwindOrder D env w hash o sig) := by
  have hwords : (words (OrderLib.orderWords o)).length = 9 * 32 := length_words _
  have hcounted : (counted (words (OrderLib.orderWords o))).length = 320 := by rw [length_counted, hwords]
  obtain ⟨⟨hfirst, horder⟩, hsecond, hsigner⟩ :=
    Abi.decodeBytesPair_encode (a := words (OrderLib.orderWords o)) (b := sig) (by rw [hcounted]; decide)
      (Nat.le_sub_one_of_lt hsig)
  have hread : ¬ Unread D w (backstopSignature o sig) := by
    rintro (h | h | h)
    · exact henabled h
    · exact hgateway h
    · rw [backstopSignature, encodeBytesPair, List.length_append, List.length_append, length_words, hcounted] at h
      omega
  refine (isValidSignature_read hread).2 ⟨hfirst, hsecond, ?_⟩
  rw [if_pos (show (orderAbi (backstopSignature o sig)).length = 9 * 32 from (congrArg List.length horder).trans hwords)]
  refine ⟨o, (congrArg Abi.decodeOrder horder).trans (Abi.decodeOrder_words hfits), ?_⟩
  exact congrArg (Insurance.validUnwindOrder D env w hash o) hsigner

end Unwinder

/-- **The backstop accepts its keeper's orders.** Of an order that the keeper signed with the clients' digest, the check never
reverts; and it returns the magic word exactly while unwinds are enabled and a gateway is set, where the order is
Insurance's own, reduce-only and expires within the longest time that is allowed, and the signer has the role. -/
theorem unwind_order_accepted {signTypedData : Bytes32 → Bytes} {signer : Address} {chainId : Nat} {gateway : Address}
    (henv : ∀ o, env.hashOrder o = OrderGateway.hashOrder chainId gateway o)
    (hsign : ∀ d, env.tryRecover d (signTypedData d) = some signer) (hlen : ∀ d, (signTypedData d).length < 2 ^ 64)
    (hfits : (Message.order o).Fits) :
    let signature := Unwinder.signUnwindOrder signTypedData chainId gateway o
    (∃ valid, Insurance.isValidSignature D env w (env.hashOrder o) signature = .ok valid) ∧
      (Insurance.isValidSignature D env w (env.hashOrder o) signature = .ok true ↔
        (w.insurance.maxUnwindDeviationBps ≠ 0 ∧ D.insuranceGateway ≠ 0) ∧
          (o.owner = D.insurance ∧ o.reduceOnly = true ∧ o.expiry ≤ w.timestamp + Insurance.MAX_UNWIND_ORDER_TTL) ∧
          w.hasRole .insurance .backstopSigner signer = true) := by
  intro signature
  by_cases henabled : w.insurance.maxUnwindDeviationBps ≠ 0 ∧ D.insuranceGateway ≠ 0
  · have hread : Insurance.isValidSignature D env w (env.hashOrder o) signature =
        .ok (Insurance.validUnwindOrder D env w (env.hashOrder o) o (signTypedData (env.hashOrder o))) := by
      rw [show signature = Unwinder.backstopSignature o (signTypedData (env.hashOrder o)) by
        rw [henv, ← hashOrder_agrees]
        rfl]
      exact Unwinder.backstopSignature_read hfits (hlen _) henabled.1 henabled.2
    refine ⟨⟨_, hread⟩, ?_⟩
    rw [hread, Except.ok.injEq, validUnwindOrder_iff, hsign]
    constructor
    · rintro ⟨⟨howner, hreduce⟩, hexpiry, -, s, hs, hrole⟩
      rw [← Option.some.inj hs] at hrole
      exact ⟨henabled, ⟨howner, hreduce, hexpiry⟩, hrole⟩
    · rintro ⟨-, ⟨howner, hreduce, hexpiry⟩, hrole⟩
      exact ⟨⟨howner, hreduce⟩, hexpiry, rfl, signer, rfl, hrole⟩
  · have hunread : Unread D w signature := by
      rw [not_and_or, not_not, not_not] at henabled
      exact henabled.imp_right Or.inl
    rw [isValidSignature_unread hunread]
    exact ⟨⟨false, rfl⟩, iff_of_false (by simp) fun h => henabled h.1⟩

namespace Sample

/-- The sample's environment, with the digests of a gateway on a chain. -/
def digestEnv : Env := { Sample.env with hashOrder := OrderGateway.hashOrder 5042002 0xC0FFEE }

/-- An unwind order of the sample's Insurance. -/
def unwindOrder (now : Nat) : Order where
  owner := deployment.insurance
  marketId := 1
  isLong := false
  size := 10 ^ 18
  limitPrice := 10 ^ 18
  reduceOnly := true
  nonce := 7
  expiry := now + 1800
  referrer := 0

end Sample

theorem unwind_order_accepted_unwinding :
    let w := Sample.outcome Sample.unwinding
    let o := Sample.unwindOrder w.timestamp
    Insurance.isValidSignature Sample.deployment Sample.digestEnv w (Sample.digestEnv.hashOrder o)
      (Unwinder.signUnwindOrder (fun _ => [10]) 5042002 0xC0FFEE o) = .ok true :=
  (unwind_order_accepted (fun _ => rfl) (show ∀ d, Sample.digestEnv.tryRecover d [10] = some Sample.admin from fun _ => rfl)
    (fun _ => by decide) (by decide +kernel)).2.2 ⟨by decide +kernel, by decide +kernel, by decide +kernel⟩

end Kryon
