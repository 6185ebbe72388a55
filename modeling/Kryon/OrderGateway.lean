import Kryon.Insurance
import Kryon.Liquidation
/-!
# OrderGateway — signed orders, their fill progress and the settlement batch

A fill is checked against both signed orders, consumes them, and is applied to the engine and the fee router.  A batch
settles each fill in a call of its own: a fill that reverts is skipped and leaves no trace, and a gas shortfall reverts
the whole batch.
-/
namespace Kryon

open Program
open Function (update)

namespace OrderLib

/-- `isValidERC1271Signature` on an account with code: Insurance answers for the backstop, every other protocol contract
rejects the call, and any other account is a wallet.  A revert is an invalid signature. -/
def isValidERC1271Signature (D : Deployment) (env : Env) (w : World) (wallet : Address → Bytes32 → Bytes → Bool)
    (signer : Address) (digest : Bytes32) (signature : Bytes) : Bool :=
  if signer = D.insurance then
    match Insurance.isValidSignature D env w digest signature with
    | .ok valid => valid
    | .error _ => false
  else if D.IsProtocol signer then false
  else wallet signer digest signature

/-- ECDSA first, then ERC-1271 for any account with code. -/
def isValidSignature (D : Deployment) (env : Env) (w : World) (msg : Msg) (wallet : Address → Bytes32 → Bytes → Bool)
    (signer : Address) (digest : Bytes32) (signature : Bytes) : Bool :=
  if env.tryRecover digest signature = some signer then true
  else if ¬ D.IsProtocol signer ∧ msg.hasCode signer = false then false
  else isValidERC1271Signature D env w wallet signer digest signature

end OrderLib

namespace OrderGateway

def MAX_ORDER_TTL : Nat := 7 * 86400
def MAX_BATCH : Nat := 40

/-! ## Orders -/

def validateFill (f : Fill) : Except Error Unit := do
  revertIf (f.size = 0 ∨ f.price = 0) .invalidAmount
  revertIf (f.maker.owner = f.taker.owner) .selfTrade
  revertIf (f.maker.marketId = 0 ∨ f.maker.marketId ≠ f.taker.marketId) .invalidConfig
  revertIf (f.maker.isLong = f.taker.isLong) .directionMismatch

/-- The high 128 bits of a digest, which a nonce is bound to. -/
def digestPrefix (digest : Bytes32) : Nat := digest.val >>> 128

/-- The amount filled so far under a nonce. -/
def filled (s : GatewayStorage) (owner : Address) (nonce : Nat) : Nat := s.orderState (owner, nonce) % 2 ^ 128

/-- The digest prefix a nonce is bound to, zero if unused. -/
def orderPrefixForNonce (s : GatewayStorage) (owner : Address) (nonce : Nat) : Nat :=
  s.orderState (owner, nonce) >>> 128

/-- Whether an order's fill price is outside its limit. -/
def outsideLimit (o : Order) (fillPrice : Nat) : Bool :=
  if o.isLong then decide (fillPrice > o.limitPrice) else decide (fillPrice < o.limitPrice)

/-- Checks one side's order against the fill and books its progress. -/
def consume (D : Deployment) (env : Env) (w : World) (msg : Msg) (wallet : Address → Bytes32 → Bytes → Bool)
    (o : Order) (digest : Bytes32) (signature : Bytes) (fillSize fillPrice : Nat) : Except Error World := do
  revertIf (o.owner = 0) .zeroAddress
  revertIf (o.size = 0 ∨ o.limitPrice = 0) .invalidAmount
  revertIf (w.timestamp > o.expiry) .orderExpired
  revertIf (o.expiry > w.timestamp + MAX_ORDER_TTL) .orderExpired
  revertIf (o.nonce < w.gateway.minNonce o.owner ∨ w.gateway.cancelled (o.owner, o.nonce) = true) .orderCancelled
  -- One nonce, one order: the first fill binds the nonce to this digest.
  let state := w.gateway.orderState (o.owner, o.nonce)
  let filledSoFar := state % 2 ^ 128
  revertIf (state ≠ 0 ∧ state >>> 128 ≠ digestPrefix digest) .nonceReused
  let next ← Vault.addU256 filledSoFar fillSize
  revertIf (next > o.size) .orderOverfilled
  revertIf (next > 2 ^ 128 - 1) .mathOverflow
  revertIf (outsideLimit o fillPrice = true) .priceOutsideBand
  revertIf (OrderLib.isValidSignature D env w msg wallet o.owner digest signature = false) .invalidSignature
  pure { w with gateway := { w.gateway with
    orderState := update w.gateway.orderState (o.owner, o.nonce) (digestPrefix digest <<< 128 ||| next) } }

def checkNotional (w : World) (f : Fill) : Except Error Int := do
  let size ← M.toInt f.size
  let price ← M.toInt f.price
  let notional ← M.mulPrecision size price
  let m ← RiskParams.market w f.maker.marketId
  revertIf (notional < m.minFillNotional) .fillBelowMinNotional
  pure notional

/-- Holds a backstop fill to Insurance's unwind limits. -/
def backstopHook (D : Deployment) (w : World) (f : Fill) : Except Error World :=
  if D.backstop ≠ 0 ∧ (f.maker.owner = D.backstop ∨ f.taker.owner = D.backstop) then
    Insurance.onBackstopFill D w D.gateway f.maker.marketId f.size f.price
  else pure w

/-- Positions, then fees, then margin: the margin check sees the fees. -/
def apply (D : Deployment) (w : World) (f : Fill) (notional : Int) : Except Error (World × FeeRouter.Quote) := do
  let size ← M.toInt f.size
  let price ← M.toInt f.price
  let (w, makerIncreased) ← Engine.applyFill D w D.gateway f.maker.owner f.maker.marketId f.maker.isLong size price
    notional f.maker.reduceOnly
  let (w, takerIncreased) ← Engine.applyFill D w D.gateway f.taker.owner f.taker.marketId f.taker.isLong size price
    notional f.taker.reduceOnly
  let (w, q) ← FeeRouter.chargeFill D w D.gateway f.maker.marketId f.maker.owner f.taker.owner notional
    f.maker.referrer f.taker.referrer
  Engine.requireMargin D w f.maker.owner makerIncreased
  Engine.requireMargin D w f.taker.owner takerIncreased
  pure (w, q)

/-- What `FillSettled` reports of a fill, with the fill's notional. -/
structure Settlement where
  fill : Fill
  makerHash : Bytes32
  takerHash : Bytes32
  notional : Int
  quote : FeeRouter.Quote

def settleOne (D : Deployment) (env : Env) (w : World) (msg : Msg) (wallet : Address → Bytes32 → Bytes → Bool)
    (f : Fill) : Except Error (World × Settlement) := do
  let makerHash := env.hashOrder f.maker
  let takerHash := env.hashOrder f.taker
  validateFill f
  let w ← consume D env w msg wallet f.maker makerHash f.makerSignature f.size f.price
  let w ← consume D env w msg wallet f.taker takerHash f.takerSignature f.size f.price
  let notional ← checkNotional w f
  let w ← backstopHook D w f
  let (w, q) ← apply D w f notional
  pure (w, ⟨f, makerHash, takerHash, notional, q⟩)

/-! ## Batches -/

/-- How the gas of one fill's call turns out. -/
inductive FillGas where
  /-- Enough for the call to end by its own logic. -/
  | enough
  /-- Less than a fill must be able to start with. -/
  | starved
  /-- The call used all it was forwarded. -/
  | exhausted
  /-- A call inside the fill ran out and reverted it with more than the reserve left. -/
  | innerOutOfGas

/-- What the chain decides about one fill: its gas, and the answers of the wallets it asks. -/
structure FillContext where
  gas : FillGas
  wallet : Address → Bytes32 → Bytes → Bool

/-- A settled fill with the worlds around its call. -/
structure Settled where
  before : World
  settlement : Settlement
  after : World

def settleFills (D : Deployment) (env : Env) (msg : Msg) :
    World → List (Fill × FillContext) → Except Error (World × List Settled)
  | w, [] => pure (w, [])
  | w, (f, ctx) :: fills =>
    match ctx.gas with
    | .starved => .error .insufficientBatchGas
    | .exhausted => .error .insufficientBatchGas
    | .innerOutOfGas => settleFills D env msg w fills
    | .enough =>
      match settleOne D env w msg ctx.wallet f with
      | .error _ => settleFills D env msg w fills
      | .ok (w', st) => do
        let (w'', settled) ← settleFills D env msg w' fills
        pure (w'', ⟨w, st, w'⟩ :: settled)

def settleFillsSigned (D : Deployment) (env : Env) (w : World) (msg : Msg) (fills : List (Fill × FillContext)) :
    Except Error (World × List Settled) := do
  w.onlyRole .gateway .operator msg.sender
  w.whenNotPaused .gateway
  revertIf (fills.length = 0 ∨ fills.length > MAX_BATCH) .batchTooLarge
  settleFills D env msg w fills

/-! ## Cancels -/

def cancel (w : World) (owner : Address) (nonce : Nat) : World :=
  { w with gateway := { w.gateway with cancelled := update w.gateway.cancelled (owner, nonce) true } }

def cancelOrder (w : World) (msg : Msg) (nonce : Nat) : World := cancel w msg.sender nonce

def cancelOrders (w : World) (msg : Msg) (nonces : List Nat) : World :=
  nonces.foldl (fun w nonce => cancel w msg.sender nonce) w

/-- Voids every order with a nonce below `newMinNonce`; it can only move up. -/
def cancelUpTo (w : World) (msg : Msg) (newMinNonce : Nat) : Except Error World := do
  revertIf (newMinNonce ≤ w.gateway.minNonce msg.sender) .invalidConfig
  pure { w with gateway := { w.gateway with minNonce := update w.gateway.minNonce msg.sender newMinNonce } }

/-- Makes a signed off-chain cancel final.  Anyone may submit it. -/
def cancelSigned (D : Deployment) (env : Env) (w : World) (msg : Msg) (c : Cancel) (signature : Bytes) :
    Except Error World := do
  revertIf (w.timestamp > c.deadline) .orderExpired
  revertIf (OrderLib.isValidSignature D env w msg msg.wallet c.owner (env.hashCancel c) signature = false)
    .invalidSignature
  pure (cancel w c.owner c.nonce)

end OrderGateway
end Kryon
