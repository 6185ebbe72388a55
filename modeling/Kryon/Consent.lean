import Kryon.Custody
import Kryon.Digests
import Kryon.Orders
/-!
# Consent — a trader is held only to what it signed for this gateway

Signatures are anyone's to submit: those for other chains and other gateways, and a cancel's where an order's is wanted.
An account without code is nevertheless a side of a fill, or has a nonce voided by a signed cancel, only where its key
signed that very message for this gateway on this chain (`only_signed`).
-/
namespace Kryon

open Program Transition TypedData

variable {D : Deployment} {env : Env} {w w' : World} {a : Address} {l : Label} {ls : List Label}

/-! ## Signing -/

/-- A message that a key signed, with the domain it was signed for. -/
structure Signing where
  chainId : Nat
  gateway : Address
  message : Message

/-- The digest that the clients have the key sign. -/
def Signing.digest (s : Signing) : Bytes32 :=
  match s.message with
  | .order o => Eip712.hashOrder s.chainId s.gateway o
  | .cancel c => Eip712.hashCancel s.chainId s.gateway c

theorem Signing.digest_eq (s : Signing) : s.digest = s.message.digest s.chainId s.gateway := by
  obtain ⟨chainId, gateway, message⟩ := s
  cases message with
  | order o => exact hashOrder_agrees chainId gateway o
  | cancel c => exact hashCancel_agrees chainId gateway c

/-- The account's key gave no signatures but these. -/
def Unforged (env : Env) (a : Address) (signed : List Signing) : Prop :=
  ∀ digest signature, env.tryRecover digest signature = some a → ∃ s ∈ signed, s.digest = digest

/-! ## What a step carries out -/

def Message.owner : Message → Address
  | .order o => o.owner
  | .cancel c => c.owner

def Env.digest (env : Env) : Message → Bytes32
  | .order o => env.hashOrder o
  | .cancel c => env.hashCancel c

/-- An account's messages that a step carried out: the orders that it filled, and the cancel that it was given. -/
def Label.carried (l : Label) (a : Address) : List Message :=
  ((l.settled.flatMap OrderGateway.Settled.orders).map .order ++
    match l.call.tx with
    | .cancelSigned c _ => [.cancel c]
    | _ => []).filter fun m => m.owner = a

/-- **What a step carries out, its owner signed.** -/
theorem step_carried (ha : ¬ D.IsProtocol a) (h : (machine D env).step w l w') {m : Message} (hm : m ∈ l.carried a) :
    ∃ wallet signature, SignedBy env l.call.msg wallet a (env.digest m) signature := by
  obtain ⟨hm, howner⟩ := List.mem_filter.1 hm
  replace howner : m.owner = a := of_decide_eq_true howner
  rcases List.mem_append.1 hm with hm | hm
  · obtain ⟨o, ho, rfl⟩ := List.mem_map.1 hm
    obtain ⟨x, hx, ho⟩ := List.mem_flatMap.1 ho
    obtain ⟨p, hp, rfl⟩ : ∃ p ∈ x.signed, p.1 = o := List.mem_map.1 (show o ∈ x.signed.map Prod.fst from ho)
    have hchain := step_chain h (List.ne_nil_of_mem hx)
    obtain ⟨pre, post, hsplit⟩ := List.append_of_mem hx
    rw [hsplit] at hchain
    obtain ⟨-, wallet, hone⟩ := hchain.split
    exact ⟨wallet, p.2, settleOne_signed ha hone p hp howner⟩
  · obtain ⟨⟨msg, tx⟩, settled⟩ := l
    obtain ⟨-, hexec⟩ := h
    cases tx with
    | cancelSigned c signature =>
      obtain rfl : m = .cancel c := List.mem_singleton.1 hm
      have hcancel := (unsettled_ok.1 hexec).1
      simp only [OrderGateway.cancelSigned, bind_ok_iff, revertIf_ok, Bool.not_eq_false, exists_const] at hcancel
      obtain ⟨-, hvalid, -⟩ := hcancel
      rw [show c.owner = a from howner] at hvalid
      exact ⟨msg.wallet, signature, isValidSignature_signedBy ha hvalid⟩
    | _ => exact absurd hm List.not_mem_nil

/-! ## Runs -/

/-- **A trader is held only to what it signed.** Whatever a run of the protocol carries out for an account without code,
filling an order or making a cancel final, its key signed that very message, for this gateway and this chain: what it
signed for others, or of the other kind, serves for nothing here. -/
theorem only_signed {signed : List Signing} {chainId : Nat} (ha : ¬ D.IsProtocol a)
    (hdigests : ∀ m, env.digest m = m.digest chainId D.gateway) (hkey : Unforged env a signed)
    (hchain : chainId < 2 ^ 256) (hsigned : ∀ s ∈ signed, s.chainId < 2 ^ 256 ∧ s.message.Fits)
    (h : Run (machine D env) w ls w') (hcode : ∀ l ∈ ls, l.call.msg.hasCode a = false)
    (hfits : ∀ l ∈ ls, ∀ m ∈ l.carried a, m.Fits)
    (hsep : ∀ l ∈ ls, ∀ m ∈ l.carried a, ∀ s ∈ signed,
      Separates keccak256 (m.hashed chainId D.gateway ++ s.message.hashed s.chainId s.gateway)) :
    ∀ l ∈ ls, ∀ m ∈ l.carried a, ⟨chainId, D.gateway, m⟩ ∈ signed := by
  intro l hl m hm
  obtain ⟨u, v, before, -, hstep⟩ := h.mem hl
  obtain ⟨wallet, signature, hrecovered | ⟨hhas, -⟩⟩ := step_carried ha hstep hm
  · obtain ⟨s, hs, hdigest⟩ := hkey _ _ hrecovered
    rw [s.digest_eq, hdigests] at hdigest
    obtain ⟨hc, hg, hmessage⟩ := Message.digest_injective (hfits l hl m hm) (hsigned s hs).2 hchain (hsigned s hs).1
      (hsep l hl m hm s hs) hdigest.symm
    rwa [hc, hg, hmessage]
  · rw [hcode l hl] at hhas
    exact absurd hhas Bool.false_ne_true

namespace Sample

/-- Alice's order of `trading`. -/
def signedOrder : Message := .order (order alice 1 true (10 * 10 ^ 18) (100 * 10 ^ 18) 1)

/-- What Alice's key signed: her order, and a larger one with the same nonce for another chain. -/
def signings : List Signing := [
  ⟨5042002, deployment.gateway, signedOrder⟩,
  ⟨5042, deployment.gateway, .order (order alice 1 true (20 * 10 ^ 18) (100 * 10 ^ 18) 1)⟩]

/-- The gateway's own digests, of which Alice's signature is for those that her key signed. -/
def signingEnv : Env where
  tryRecover digest signature :=
    if signature = sign alice then
      if digest ∈ signings.map Signing.digest then some alice else none
    else if signature = sign bob then some bob else none
  hashOrder := OrderGateway.hashOrder 5042002 deployment.gateway
  hashCancel := OrderGateway.hashCancel 5042002 deployment.gateway

theorem signings_unforged : Unforged signingEnv alice signings := by
  intro digest signature h
  simp only [signingEnv] at h
  split at h
  · split at h
    · rename_i hmem
      exact List.mem_map.1 hmem
    · cases h
  · split at h
    · exact absurd (Option.some.inj h) (by decide)
    · cases h

attribute [local irreducible] keccak256 in
theorem signingEnv_digest : ∀ m, signingEnv.digest m = m.digest 5042002 deployment.gateway
  | .order _ => rfl
  | .cancel _ => rfl

/-- The steps of `trading` under these digests. -/
def signedSteps : List Label := trace deployment signingEnv genesis trading

theorem signedSteps_run : ∃ w, Run (machine deployment signingEnv) genesis signedSteps w := by
  obtain ⟨w, hw⟩ : ∃ w, script deployment signingEnv genesis trading = .ok w := ok_of_isOk (by decide +kernel)
  exact ⟨w, script_run _ _ _ hw⟩

theorem signedSteps_carried : (signedSteps.flatMap fun l => l.carried alice) = [signedOrder] := by decide +kernel

theorem signings_separated : ∀ s ∈ signings, Separates keccak256
    (signedOrder.hashed 5042002 deployment.gateway ++ s.message.hashed s.chainId s.gateway) := by decide +kernel

end Sample

theorem only_signed_trading :
    (Sample.signedSteps.flatMap fun l => l.carried Sample.alice) = [Sample.signedOrder] ∧
      ∀ l ∈ Sample.signedSteps, ∀ m ∈ l.carried Sample.alice,
        ⟨5042002, Sample.deployment.gateway, m⟩ ∈ Sample.signings := by
  obtain ⟨w, hrun⟩ := Sample.signedSteps_run
  have hcarried : ∀ l ∈ Sample.signedSteps, ∀ m ∈ l.carried Sample.alice, m = Sample.signedOrder := fun l hl m hm => by
    rw [← List.mem_singleton, ← Sample.signedSteps_carried]
    exact List.mem_flatMap.2 ⟨l, hl, hm⟩
  refine ⟨Sample.signedSteps_carried, only_signed (by decide) Sample.signingEnv_digest Sample.signings_unforged
    (by decide) (by decide +kernel) hrun (by decide +kernel) (fun l hl m hm => ?_) fun l hl m hm => ?_⟩
  · rw [hcarried l hl m hm]
    decide +kernel
  · rw [hcarried l hl m hm]
    exact Sample.signings_separated

end Kryon
