import Kryon.Settlement
import Kryon.Sample
/-!
# Intake — what the API checks of a submitted order

`validateOrderSubmission` parses the body against the Solidity types, then mirrors the checks of `OrderGateway._consume`
and `_checkNotional` over what the database knows of the chain: the market's row and the account's nonce floor.
-/
namespace Kryon.Intake

open Program
open Transition (Reachable)

def UINT32_MAX : Nat := 2 ^ 32 - 1
def UINT64_MAX : Nat := 2 ^ 64 - 1
def UINT256_MAX : Nat := 2 ^ 256 - 1
def INT128_MAX : Nat := 2 ^ 127 - 1
def E18 : Nat := 10 ^ 18
/-- Half the order of the curve. -/
def HALF_N : Nat := 0x7fffffffffffffffffffffffffffffff5d576e7357a4501ddfe92f46681b20a0
def MAX_SAFE_INTEGER : Int := 2 ^ 53 - 1

/-- An order must outlive the trip to a block. -/
def MIN_TTL_SECONDS : Nat := 5
def MAX_TTL_SECONDS : Nat := 7 * 86400
def MAX_SIGNATURE_BYTES : Nat := 1024

/-! ## Rejections -/

inductive RejectCode where
  | invalidBody
  | invalidField
  | wrongChain
  | badSignature
  | signatureUnverifiable
  | expired
  | expiryTooFar
  | nonceCancelled
  | unknownMarket
  | marketInactive
  | marketNotConfigured
  | belowMinNotional
  | overflow
deriving DecidableEq

structure Rejection where
  code : RejectCode
  error : String
  status : Nat
  /-- The revert this rejection stands in for. -/
  contractError : Option String

def REJECTIONS : RejectCode → Nat × Option String
  | .invalidBody => (400, none)
  | .invalidField => (400, some "ZeroAddress / InvalidAmount (ABI bounds)")
  | .wrongChain => (400, some "InvalidSignature (domain chainId)")
  | .badSignature => (401, some "InvalidSignature")
  | .signatureUnverifiable => (503, none)
  | .expired => (400, some "OrderExpired (block.timestamp > expiry)")
  | .expiryTooFar => (400, some "OrderExpired (expiry > now + MAX_ORDER_TTL)")
  | .nonceCancelled => (400, some "OrderCancelled (nonce < minNonce)")
  | .unknownMarket => (400, some "UnknownMarket")
  | .marketInactive => (400, some "MarketInactive")
  | .marketNotConfigured => (400, some "UnknownMarket (no MarketParamsSet indexed)")
  | .belowMinNotional => (400, some "FillBelowMinNotional")
  | .overflow => (400, some "MathOverflow")

def reject (code : RejectCode) (error : String) : Rejection := ⟨code, error, (REJECTIONS code).1, (REJECTIONS code).2⟩

/-- A value a check requires, or its rejection. -/
def require {α : Type} (x : Option α) (code : RejectCode) (error : String) : Except Rejection α :=
  match x with
  | some a => .ok a
  | none => .error (reject code error)

def rejectIf (c : Prop) [Decidable c] (code : RejectCode) (error : String) : Except Rejection Unit :=
  revertIf c (reject code error)

/-- The outcome of a check that returns the rejection, if any. -/
def passes : Option Rejection → Except Rejection Unit
  | some r => .error r
  | none => .ok ()

/-! ## Field parsing -/

/-- A field's value, as far as the checks tell values apart. -/
inductive Json where
  | null
  | bool (b : Bool)
  | num (v : ℚ)
  | str (s : List Char)
  | other

/-- The fields read of a body; `none` is undefined. -/
structure OrderBody where
  owner : Option Json
  marketId : Option Json
  isLong : Option Json
  size : Option Json
  limitPrice : Option Json
  reduceOnly : Option Json
  nonce : Option Json
  expiry : Option Json
  referrer : Option Json
  signature : Option Json
  chainId : Option Json

/-- One to 78 decimal digits. -/
def decimal (s : List Char) : Option Nat :=
  if 1 ≤ s.length ∧ s.length ≤ 78 ∧ s.all Char.isDigit = true then
    some (s.foldl (fun n c => 10 * n + (c.toNat - '0'.toNat)) 0)
  else none

/-- A non-negative integer as a decimal string or a safe JSON integer, at most `max`. -/
def uint (v : Option Json) (max : Nat) : Option Nat :=
  let n := match v with
    | some (.str s) => decimal s
    | some (.num q) => if q.den = 1 ∧ 0 ≤ q.num ∧ q.num ≤ MAX_SAFE_INTEGER then some q.num.toNat else none
    | _ => none
  n.filter fun n => decide (n ≤ max)

def hexDigit (c : Char) : Option Nat :=
  if c.isDigit = true then some (c.toNat - '0'.toNat)
  else if 'a' ≤ c ∧ c ≤ 'f' then some (c.toNat - 'a'.toNat + 10)
  else if 'A' ≤ c ∧ c ≤ 'F' then some (c.toNat - 'A'.toNat + 10)
  else none

def hexBytes : List Char → Option Bytes
  | [] => some []
  | [_] => none
  | high :: low :: rest => do
    let high ← hexDigit high
    let low ← hexDigit low
    let bytes ← hexBytes rest
    pure (UInt8.ofNat (16 * high + low) :: bytes)

/-- The big-endian number of some bytes. -/
def word (bytes : Bytes) : Nat := bytes.foldl (fun n b => 256 * n + b.toNat) 0

/-- `0x` and 40 hex digits. -/
def address : Option Json → Option Address
  | some (.str ('0' :: 'x' :: digits)) =>
    if digits.length = 40 then (hexBytes digits).map fun bytes => Fin.ofNat (2 ^ 160) (word bytes) else none
  | _ => none

/-- `0x` and at least one byte. -/
def signatureHex : Option Json → Option Bytes
  | some (.str ('0' :: 'x' :: digits)) =>
    (hexBytes digits).filter fun bytes => decide (bytes ≠ [] ∧ bytes.length ≤ MAX_SIGNATURE_BYTES)
  | _ => none

def boolean : Option Json → Option Bool
  | some (.bool b) => some b
  | _ => none

structure ParsedOrder where
  order : Order
  signature : Bytes
  chainId : Option Nat

def requireChainId (v : Option Json) : Except Rejection (Option Nat) :=
  match v with
  | none => .ok none
  | some _ => some <$> require (uint v (2 ^ 53)) .invalidField "chainId must be an integer"

/-- Parses and bounds every field against its Solidity type. -/
def parseOrder (body : Option OrderBody) : Except Rejection ParsedOrder := do
  let b ← require body .invalidBody "Body must be a JSON object"
  let owner ← require ((address b.owner).filter fun a => decide (a ≠ 0)) .invalidField "owner must be a non-zero address"
  let marketId ← require ((uint b.marketId UINT32_MAX).filter fun m => decide (m ≠ 0)) .invalidField
    "marketId must be a uint32 > 0"
  let isLong ← require (boolean b.isLong) .invalidField "isLong must be a boolean"
  let reduceOnly ← require (boolean b.reduceOnly) .invalidField "reduceOnly must be a boolean"
  let size ← require (uint b.size UINT256_MAX) .invalidField
    "size must be a uint256 (1e18 fixed point, as a decimal string)"
  let limitPrice ← require (uint b.limitPrice UINT256_MAX) .invalidField
    "limitPrice must be a uint256 (1e18, as a decimal string)"
  rejectIf (size = 0 ∨ limitPrice = 0) .invalidField
    "size and limitPrice must be > 0; for a market order send an aggressive crossing limit"
  let nonce ← require (uint b.nonce UINT256_MAX) .invalidField "nonce must be a uint256"
  let expiry ← require (uint b.expiry UINT64_MAX) .invalidField "expiry must be a uint64 (unix seconds)"
  let referrer ← require (match b.referrer with
    | none => some 0
    | some .null => some 0
    | some _ => address b.referrer) .invalidField "referrer must be an address (or omitted)"
  let signature ← require (signatureHex b.signature) .invalidField
    s!"signature must be 0x hex, at most {MAX_SIGNATURE_BYTES} bytes"
  let chainId ← requireChainId b.chainId
  -- `toInt` and the notional are int128-bounded, and the per-nonce fill counter is a uint128.
  rejectIf (size > INT128_MAX ∨ limitPrice > INT128_MAX ∨ size * limitPrice / E18 > INT128_MAX) .overflow
    "size, limitPrice or their notional exceed the contract's int128 range"
  pure {
    order := {
      owner := owner
      marketId := MarketId.ofNat marketId
      isLong := isLong
      size := size
      limitPrice := limitPrice
      reduceOnly := reduceOnly
      nonce := nonce
      expiry := expiry
      referrer := referrer }
    signature := signature
    chainId := chainId }

/-! ## Signatures -/

structure TypedDataDomain where
  name : String
  version : String
  chainId : Nat
  verifyingContract : Address

def kryonDomain (chainId : Nat) (gateway : Address) : TypedDataDomain := ⟨"Kryon", "1", chainId, gateway⟩

/-- What the library the client is written over computes. -/
structure Viem where
  /-- The EIP-712 digest of an order. -/
  hashTypedData : TypedDataDomain → Order → Bytes32
  /-- The account whose key signed a digest; `none` where it throws. -/
  recoverAddress : Bytes32 → Bytes → Option Address

def hashOrder (viem : Viem) (chainId : Nat) (gateway : Address) (order : Order) : Bytes32 :=
  viem.hashTypedData (kryonDomain chainId gateway) order

/-- The recovered signer under OpenZeppelin's rules: 65 bytes, low `s`, `v` of 27 or 28. -/
def recoverStrict (viem : Viem) (digest : Bytes32) (signature : Bytes) : Option Address :=
  if signature.length ≠ 65 then none
  else
    let s := word ((signature.drop 32).take 32)
    let v := word (signature.drop 64)
    if s > HALF_N ∨ (v ≠ 27 ∧ v ≠ 28) then none else viem.recoverAddress digest signature

/-- ECDSA, then, only if that fails, ERC-1271; a check that could not be made is a rejection. -/
def verifySignature (viem : Viem) (owner : Address) (digest : Bytes32) (signature : Bytes)
    (erc1271 : Address → Bytes32 → Bytes → Option Bool) : Option Rejection :=
  if recoverStrict viem digest signature = some owner then none
  else
    match erc1271 owner digest signature with
    | none => some (reject .signatureUnverifiable
      "The signature is not a valid EOA signature for owner, and the ERC-1271 check could not be completed. Retry.")
    | some valid => if valid = true then none else some (reject .badSignature "Signature does not verify for owner")

/-! ## Orders -/

/-- The risk parameters stored with a market, as far as intake reads them. -/
structure StoredMarketParams where
  minFillNotional : Option Int

structure MarketRow where
  active : Bool
  params : StoredMarketParams

/-- The rows intake queries: a market's, and an account's `minValidNonce`. -/
structure Queryable where
  market : MarketId → Option MarketRow
  minValidNonce : Address → Option Nat

structure IntakeContext where
  network : String
  chainId : Nat
  gateway : Address
  nowSec : Nat
  /-- `none` where the answer could not be obtained. -/
  erc1271 : Address → Bytes32 → Bytes → Option Bool
  q : Queryable

structure ValidatedOrder where
  order : Order
  orderHash : Bytes32
  signature : Bytes

def checkExpiry (expiry nowSec : Nat) : Option Rejection :=
  if expiry ≤ nowSec + MIN_TTL_SECONDS then
    some (reject .expired
      s!"expiry must be more than {MIN_TTL_SECONDS}s in the future; check your clock against GET /api/time")
  else if expiry > nowSec + MAX_TTL_SECONDS then
    some (reject .expiryTooFar s!"expiry must be within {MAX_TTL_SECONDS}s (OrderGateway.MAX_ORDER_TTL)")
  else none

/-- Fields, chain, expiry and signature, then the state the gateway checks at settlement. -/
def validateOrderSubmission (viem : Viem) (body : Option OrderBody) (ctx : IntakeContext) :
    Except Rejection ValidatedOrder := do
  let ⟨order, signature, chainId⟩ ← parseOrder body
  rejectIf (chainId.isSome = true ∧ chainId ≠ some ctx.chainId) .wrongChain
    s!"chainId {chainId.getD 0} is not {ctx.network} ({ctx.chainId})"
  passes (checkExpiry order.expiry ctx.nowSec)
  let orderHash := hashOrder viem ctx.chainId ctx.gateway order
  passes (verifySignature viem order.owner orderHash signature ctx.erc1271)
  let market ← require (ctx.q.market order.marketId) .unknownMarket
    s!"market {order.marketId.toNat} does not exist on {ctx.network}"
  rejectIf (market.active = false) .marketInactive s!"market {order.marketId.toNat} is not active"
  -- The matcher refuses to trade a market whose parameters it has not seen.
  let minFillNotional ← require market.params.minFillNotional .marketNotConfigured
    s!"market {order.marketId.toNat} has no risk parameters yet"
  let notional := order.size * order.limitPrice / E18
  rejectIf ((notional : Int) < minFillNotional) .belowMinNotional
    s!"order notional {notional} is below the market's minFillNotional {minFillNotional} (1e18 USDC)"
  let minValidNonce := (ctx.q.minValidNonce order.owner).getD 0
  rejectIf (order.nonce < minValidNonce) .nonceCancelled
    s!"nonce {order.nonce} is below the account's cancelUpTo floor {minValidNonce}"
  pure ⟨order, orderHash, signature⟩

/-! ## What an accepted order passed -/

@[simp] theorem require_ok {α : Type} (x : Option α) (code : RejectCode) (error : String) (a : α) :
    require x code error = .ok a ↔ x = some a := by
  cases x <;> simp [require]

@[simp] theorem rejectIf_ok (c : Prop) [Decidable c] (code : RejectCode) (error : String) (u : Unit) :
    rejectIf c code error = .ok u ↔ ¬ c :=
  revertIf_ok c _ u

@[simp] theorem passes_ok (r : Option Rejection) (u : Unit) : passes r = .ok u ↔ r = none := by
  cases r <;> simp [passes]

/-- What parsing checks of an order's amounts. -/
structure Bounded (o : Order) : Prop where
  owner : o.owner ≠ 0
  size : o.size ≠ 0
  limitPrice : o.limitPrice ≠ 0
  size_le : o.size ≤ INT128_MAX
  price_le : o.limitPrice ≤ INT128_MAX
  notional_le : o.size * o.limitPrice / E18 ≤ INT128_MAX

section Accepted
variable {viem : Viem} {body : Option OrderBody} {p : ParsedOrder} {ctx : IntakeContext} {v : ValidatedOrder}

theorem parseOrder_ok (h : parseOrder body = .ok p) : Bounded p.order := by
  simp only [parseOrder, bind_ok_iff, require_ok, rejectIf_ok, pure_ok, exists_const] at h
  obtain ⟨b, -, owner, howner, _, -, _, -, _, -, size, -, price, -, hpos, _, -, _, -, _, -, _, -, _, -, hmax, rfl⟩ := h
  obtain ⟨-, hzero⟩ := Option.filter_eq_some_iff.1 howner
  rw [not_or] at hpos
  simp only [gt_iff_lt, not_or, not_lt] at hmax
  exact ⟨of_decide_eq_true hzero, hpos.1, hpos.2, hmax.1, hmax.2.1, hmax.2.2⟩

/-- What an accepted order passed. -/
structure Admitted (viem : Viem) (ctx : IntakeContext) (v : ValidatedOrder) : Prop where
  bounded : Bounded v.order
  orderHash : v.orderHash = hashOrder viem ctx.chainId ctx.gateway v.order
  expiry : ctx.nowSec + MIN_TTL_SECONDS < v.order.expiry
  lifetime : v.order.expiry ≤ ctx.nowSec + MAX_TTL_SECONDS
  signature : recoverStrict viem v.orderHash v.signature = some v.order.owner ∨
    ctx.erc1271 v.order.owner v.orderHash v.signature = some true
  market : ∃ row minFillNotional, ctx.q.market v.order.marketId = some row ∧ row.active = true ∧
    row.params.minFillNotional = some minFillNotional ∧
    minFillNotional ≤ (v.order.size * v.order.limitPrice / E18 : Nat)
  nonce : (ctx.q.minValidNonce v.order.owner).getD 0 ≤ v.order.nonce

theorem verifySignature_none {owner : Address} {digest : Bytes32} {signature : Bytes}
    {erc1271 : Address → Bytes32 → Bytes → Option Bool}
    (h : verifySignature viem owner digest signature erc1271 = none) :
    recoverStrict viem digest signature = some owner ∨ erc1271 owner digest signature = some true := by
  unfold verifySignature at h
  split at h
  · exact .inl ‹_›
  · split at h
    · cases h
    · rename_i valid heq
      cases valid with
      | true => exact .inr heq
      | false => cases h

theorem checkExpiry_none {expiry nowSec : Nat} (h : checkExpiry expiry nowSec = none) :
    nowSec + MIN_TTL_SECONDS < expiry ∧ expiry ≤ nowSec + MAX_TTL_SECONDS := by
  unfold checkExpiry at h
  split at h
  · cases h
  · split at h
    · cases h
    · omega

theorem validateOrderSubmission_ok (h : validateOrderSubmission viem body ctx = .ok v) : Admitted viem ctx v := by
  simp only [validateOrderSubmission, bind_ok_iff, require_ok, rejectIf_ok, passes_ok, pure_ok, exists_const] at h
  obtain ⟨p, hparse, -, hexpiry, hsig, row, hrow, hactive, min, hmin, hnotional, hnonce, rfl⟩ := h
  obtain ⟨hexp, hlife⟩ := checkExpiry_none hexpiry
  exact ⟨parseOrder_ok hparse, rfl, hexp, hlife, verifySignature_none hsig,
    ⟨row, min, hrow, Bool.of_not_eq_false hactive, hmin, not_lt.1 hnotional⟩, not_lt.1 hnonce⟩

/-! ## What the gateway then checks -/

variable {D : Deployment} {env : Env} {w : World} {msg : Msg} {wallet : Address → Bytes32 → Bytes → Bool}

/-- The rows the chain's events leave: a market once it is listed, an account's nonce floor. -/
structure InSync (q : Queryable) (w : World) : Prop where
  market : ∀ m, q.market m = if (w.risk.markets m).listed = true then
    some ⟨(w.risk.markets m).active, ⟨some (w.risk.markets m).minFillNotional⟩⟩ else none
  minValidNonce : ∀ a, (q.minValidNonce a).getD 0 = w.gateway.minNonce a

/-- Intake asks at the chain's time: the database is in sync, digests and recovered keys are the contract's, and an
`eth_call` that answers the magic word is one the contract's own call would. -/
structure Asks (D : Deployment) (env : Env) (w : World) (msg : Msg) (wallet : Address → Bytes32 → Bytes → Bool)
    (viem : Viem) (ctx : IntakeContext) : Prop where
  nowSec : ctx.nowSec = w.timestamp
  q : InSync ctx.q w
  digest : ∀ o, hashOrder viem ctx.chainId ctx.gateway o = env.hashOrder o
  recovered : ∀ digest signature a, recoverStrict viem digest signature = some a →
    env.tryRecover digest signature = some a
  answered : ∀ a digest signature, ctx.erc1271 a digest signature = some true →
    (D.IsProtocol a ∨ msg.hasCode a = true) ∧ OrderLib.isValidERC1271Signature D env w wallet a digest signature = true

/-- The gateway consumes the order at its full size and limit price, and its notional reaches the market's minimum. -/
structure Settles (D : Deployment) (env : Env) (w : World) (msg : Msg) (wallet : Address → Bytes32 → Bytes → Bool)
    (v : ValidatedOrder) : Prop where
  consumed : ∃ w', OrderGateway.consume D env w msg wallet v.order (env.hashOrder v.order) v.signature v.order.size
    v.order.limitPrice = .ok w'
  notional : ∀ f : Fill, f.maker.marketId = v.order.marketId → f.size = v.order.size → f.price = v.order.limitPrice →
    ∃ n, OrderGateway.checkNotional w f = .ok n

theorem Asks.signature (h : Asks D env w msg wallet viem ctx) (hv : Admitted viem ctx v) :
    OrderLib.isValidSignature D env w msg wallet v.order.owner (env.hashOrder v.order) v.signature = true := by
  have hsig := hv.signature
  rw [hv.orderHash, h.digest] at hsig
  unfold OrderLib.isValidSignature
  split
  · rfl
  · rename_i hkey
    obtain hrecovered | hanswered := hsig
    · exact absurd (h.recovered _ _ _ hrecovered) hkey
    · obtain ⟨hcode, hvalid⟩ := h.answered _ _ _ hanswered
      rw [if_neg fun hno => hcode.elim hno.1 fun hc => Bool.false_ne_true (hno.2.symm.trans hc)]
      exact hvalid

theorem Asks.notional (h : Asks D env w msg wallet viem ctx) (hv : Admitted viem ctx v) {f : Fill}
    (hmarket : f.maker.marketId = v.order.marketId) (hsize : f.size = v.order.size)
    (hprice : f.price = v.order.limitPrice) :
    ∃ n, OrderGateway.checkNotional w f = .ok n := by
  obtain ⟨row, min, hrow, -, hmin, hle⟩ := hv.market
  have hb := hv.bounded
  have hsize_le := hb.size_le
  have hprice_le := hb.price_le
  have hnotional_le := hb.notional_le
  have hdiv : ((f.size : Int) * f.price).tdiv PRECISION = (f.size * f.price / E18 : Nat) := by
    rw [Int.tdiv_eq_ediv_of_nonneg (by positivity)]
    rfl
  rw [h.q.market] at hrow
  split at hrow
  · rename_i hlisted
    cases hrow
    cases hmin
    rw [← hsize, ← hprice] at hnotional_le hle
    rw [← hsize] at hsize_le
    rw [← hprice] at hprice_le
    refine ⟨(f.size * f.price / E18 : Nat), ?_⟩
    generalize f.size * f.price / E18 = notional at hdiv hnotional_le hle ⊢
    simp only [INT128_MAX] at hsize_le hprice_le hnotional_le
    simp only [OrderGateway.checkNotional, RiskParams.market, bind_ok_iff, M.toInt_ok, M.mulPrecision_ok, revertIf_ok,
      pure_ok, exists_const, hmarket, M.InRange, I128_MAX, I128_MIN]
    refine ⟨f.size, ⟨by omega, rfl⟩, f.price, ⟨by omega, rfl⟩, notional, ⟨⟨by omega, by omega, ?_⟩, hdiv⟩, _,
      ⟨by rw [hlisted]; decide, rfl⟩, not_lt.2 hle, rfl⟩
    rw [hdiv]
    omega
  · cases hrow

theorem consume_of {o : Order} {digest : Bytes32} {signature : Bytes} {fillSize fillPrice : Nat} (hsize : o.size ≠ 0)
    (hprice : o.limitPrice ≠ 0) (hc : Consumable D env w msg wallet o digest signature fillSize fillPrice) :
    ∃ w', OrderGateway.consume D env w msg wallet o digest signature fillSize fillPrice = .ok w' := by
  have hle := hc.size
  have hfits := hc.fits
  simp only [OrderGateway.filled] at hle hfits
  simp only [OrderGateway.consume, bind_ok_iff, revertIf_ok, Vault.addU256, pure_ok, exists_const]
  refine ⟨_, hc.owner, not_or.2 ⟨hsize, hprice⟩, not_lt.2 hc.unexpired, not_lt.2 hc.lifetime,
    not_or.2 ⟨not_lt.2 hc.nonce, ?_⟩, fun hbad => hbad.2 (hc.bound hbad.1), _, ⟨?_, rfl⟩, not_lt.2 hle, ?_, ?_, ?_, rfl⟩
  · rw [hc.uncancelled]
    decide
  · simp only [U256_MAX]
    omega
  · omega
  · rw [hc.limit]
    decide
  · rw [hc.signature]
    decide

/-- **An accepted order settles exactly when its nonce is free**: not cancelled on its own, and its slot empty or bound to
this order with nothing filled.  Intake reads neither. -/
theorem intake_settles (hask : Asks D env w msg wallet viem ctx) (h : validateOrderSubmission viem body ctx = .ok v) :
    Settles D env w msg wallet v ↔ w.gateway.cancelled (v.order.owner, v.order.nonce) = false ∧
      OrderGateway.filled w.gateway v.order.owner v.order.nonce = 0 ∧
      (w.gateway.orderState (v.order.owner, v.order.nonce) ≠ 0 →
        OrderGateway.orderPrefixForNonce w.gateway v.order.owner v.order.nonce =
          OrderGateway.digestPrefix (env.hashOrder v.order)) := by
  have hv := validateOrderSubmission_ok h
  constructor
  · rintro ⟨⟨w', hconsume⟩, -⟩
    obtain ⟨hc, -⟩ := consume_ok hconsume
    exact ⟨hc.uncancelled, by have := hc.size; omega, hc.bound⟩
  · rintro ⟨huncancelled, hfilled, hbound⟩
    have hb := hv.bounded
    have hsize := hb.size_le
    have hexpiry := hv.expiry
    have hlifetime := hv.lifetime
    have hnonce := hv.nonce
    rw [hask.nowSec] at hexpiry hlifetime
    rw [hask.q.minValidNonce] at hnonce
    refine ⟨consume_of hb.size hb.limitPrice ⟨hb.owner, by omega, hlifetime, hnonce, huncancelled, hbound, ?_, ?_, ?_,
      hask.signature hv⟩, fun f => hask.notional hv⟩
    · omega
    · simp only [INT128_MAX] at hsize
      omega
    · simp [OrderGateway.outsideLimit]

end Accepted

namespace Sample

/-- The rows the chain's events leave. -/
def rows (w : World) : Queryable where
  market m := if (w.risk.markets m).listed = true then
    some ⟨(w.risk.markets m).active, ⟨some (w.risk.markets m).minFillNotional⟩⟩ else none
  minValidNonce a := if w.gateway.minNonce a = 0 then none else some (w.gateway.minNonce a)

theorem rows_inSync (w : World) : InSync (rows w) w where
  market _ := rfl
  minValidNonce a := by
    simp only [rows]
    split <;> simp [*]

/-- A key is the first byte of what it signs. -/
def viem : Viem where
  hashTypedData _ o := Kryon.Sample.env.hashOrder o
  recoverAddress _ signature := signature.head?.map fun b => Fin.ofNat (2 ^ 160) b.toNat

def env : Env := { Kryon.Sample.env with tryRecover := recoverStrict viem }

/-- Alice buys one unit at one dollar under the nonce 5. -/
def body : OrderBody where
  owner := some (.str ('0' :: 'x' :: List.replicate 39 '0' ++ ['b']))
  marketId := some (.str ['1'])
  isLong := some (.bool true)
  size := some (.str ('1' :: List.replicate 18 '0'))
  limitPrice := some (.str ('1' :: List.replicate 18 '0'))
  reduceOnly := some (.bool false)
  nonce := some (.str ['5'])
  expiry := some (.str ('1' :: List.replicate 5 '0'))
  referrer := none
  signature := some (.str ('0' :: 'x' :: '0' :: 'b' :: List.replicate 126 '0' ++ ['1', 'b']))
  chainId := none

/-- No account has code, so none answers the magic word. -/
def context (w : World) : IntakeContext where
  network := "testnet"
  chainId := 5042002
  gateway := 3
  nowSec := w.timestamp
  erc1271 := fun _ _ _ => some false
  q := rows w

theorem context_asks (w : World) (msg : Msg) (wallet : Address → Bytes32 → Bytes → Bool) :
    Asks Kryon.Sample.deployment env w msg wallet viem (context w) where
  nowSec := rfl
  q := rows_inSync w
  digest _ := rfl
  recovered _ _ _ h := h
  answered _ _ _ h := by cases h

/-- The fills of the gateway's operator, with no wallet answering. -/
def settling : Msg := (Kryon.Sample.call Kryon.Sample.admin (.settleFillsSigned [])).msg

def listed : List Kryon.Call := Kryon.Sample.configure (Kryon.Sample.market 1000 500 100) (2 * 10 ^ 18)

/-- Alice cancels the nonce 5 on the chain before she submits the order. -/
def cancelled : List Kryon.Call := listed ++ [Kryon.Sample.call Kryon.Sample.alice (.cancelOrder 5)]

def accepts (w : World) : Bool :=
  returnsWith (fun v => decide (v.order.owner = Kryon.Sample.alice ∧ v.order.nonce = 5))
    (validateOrderSubmission viem (some body) (context w))

/-- Intake accepts the order, and its nonce is cancelled or not and unfilled. -/
def accepted (cancelled : Bool) (w : World) : Bool :=
  accepts w && decide (w.gateway.cancelled (Kryon.Sample.alice, 5) = cancelled ∧
    w.gateway.orderState (Kryon.Sample.alice, 5) = 0)

end Sample

theorem intake_settles_fresh : ∃ w v, Reachable (machine Sample.deployment Sample.env) w ∧
    validateOrderSubmission Sample.viem (some Sample.body) (Sample.context w) = .ok v ∧
    Settles Sample.deployment Sample.env w Sample.settling (fun _ _ _ => false) v := by
  have hrun : returnsWith (Sample.accepted false)
      (script Sample.deployment Sample.env Sample.genesis Sample.listed) = true := by decide +kernel
  obtain ⟨w, hscript, haccepted⟩ := ok_of_returnsWith hrun
  obtain ⟨haccepts, hstate⟩ := Bool.and_eq_true_iff.1 haccepted
  obtain ⟨v, hv, hkey⟩ := ok_of_returnsWith haccepts
  obtain ⟨howner, hnonce⟩ := of_decide_eq_true hkey
  obtain ⟨hcancelled, hslot⟩ := of_decide_eq_true hstate
  refine ⟨w, v, ⟨_, _, Sample.genesis_ok, script_run _ _ _ hscript⟩, hv,
    (intake_settles (Sample.context_asks _ _ _) hv).2 ?_⟩
  rw [howner, hnonce]
  refine ⟨hcancelled, ?_, fun hne => absurd hslot hne⟩
  rw [OrderGateway.filled, hslot, Nat.zero_mod]

/-- **A nonce cancelled on the chain before its order reaches intake**: the order is accepted, and the gateway reverts it as
cancelled. -/
theorem intake_accepts_cancelled : ∃ w ctx body v, Reachable (machine Sample.deployment Sample.env) w ∧
    Asks Sample.deployment Sample.env w Sample.settling (fun _ _ _ => false) Sample.viem ctx ∧
    validateOrderSubmission Sample.viem body ctx = .ok v ∧ w.gateway.cancelled (v.order.owner, v.order.nonce) = true ∧
    ¬ Settles Sample.deployment Sample.env w Sample.settling (fun _ _ _ => false) v := by
  have hrun : returnsWith (Sample.accepted true)
      (script Sample.deployment Sample.env Sample.genesis Sample.cancelled) = true := by decide +kernel
  obtain ⟨w, hscript, haccepted⟩ := ok_of_returnsWith hrun
  obtain ⟨haccepts, hstate⟩ := Bool.and_eq_true_iff.1 haccepted
  obtain ⟨v, hv, hkey⟩ := ok_of_returnsWith haccepts
  obtain ⟨howner, hnonce⟩ := of_decide_eq_true hkey
  have hcancelled : w.gateway.cancelled (v.order.owner, v.order.nonce) = true := by
    rw [howner, hnonce]
    exact (of_decide_eq_true hstate).1
  refine ⟨w, Sample.context w, some Sample.body, v, ⟨_, _, Sample.genesis_ok, script_run _ _ _ hscript⟩,
    Sample.context_asks _ _ _, hv, hcancelled, ?_⟩
  rintro ⟨⟨w', hconsume⟩, -⟩
  rw [(consume_ok hconsume).1.uncancelled] at hcancelled
  cases hcancelled

end Kryon.Intake
