import Kryon.Vault
import Kryon.Abi
/-!
# Insurance — the backstop's unwind signatures and limits, and the staking pool

The fund's USDC is one vault balance split into staked capital, redeemable through share epochs, and operating capital.
A sweep that empties the staked capital retires the epoch, and with it every share.
-/
namespace Kryon.Insurance

open Program
open Function (update)

def UNSTAKE_COOLDOWN : Nat := 7 * 86400
def MAX_UNWIND_ORDER_TTL : Nat := 3600
def MAX_UNWIND_DEVIATION_BPS : Nat := 500
def MAX_UNWIND_FILL_NOTIONAL : Int := 1000000 * 10 ^ 18
def MAX_UNWIND_DAILY_NOTIONAL : Int := 10000000 * 10 ^ 18
def DAY : Nat := 86400

def setUnwindLimits (w : World) (msg : Msg) (maxDeviationBps : Nat) (maxFillNotional maxDailyNotional : Int) :
    Except Error World := do
  w.onlyRole .insurance .riskAdmin msg.sender
  revertIf (maxDeviationBps > MAX_UNWIND_DEVIATION_BPS) .invalidConfig
  revertIf (maxFillNotional < 0 ∨ maxFillNotional > MAX_UNWIND_FILL_NOTIONAL) .invalidConfig
  revertIf (maxDailyNotional < maxFillNotional ∨ maxDailyNotional > MAX_UNWIND_DAILY_NOTIONAL) .invalidConfig
  pure { w with insurance := { w.insurance with
    maxUnwindDeviationBps := maxDeviationBps
    maxUnwindFillNotional := maxFillNotional
    maxUnwindDailyNotional := maxDailyNotional } }

/-! ## The backstop's orders -/

def validUnwindOrder (D : Deployment) (env : Env) (w : World) (hash : Bytes32) (o : Order) (signerSig : Bytes) : Bool :=
  if o.owner ≠ D.insurance ∨ o.reduceOnly = false then false
  else if o.expiry > w.timestamp + MAX_UNWIND_ORDER_TTL then false
  else if env.hashOrder o ≠ hash then false
  else
    match env.tryRecover hash signerSig with
    | some signer => w.hasRole .insurance .backstopSigner signer
    | none => false

/-- ERC-1271 for the backstop's own orders; the magic word is `true`. -/
def isValidSignature (D : Deployment) (env : Env) (w : World) (hash : Bytes32) (signature : Bytes) :
    Except Error Bool :=
  if w.insurance.maxUnwindDeviationBps = 0 ∨ D.insuranceGateway = 0 then pure false
  else if signature.length < 128 then pure false
  else
    match Abi.decodeBytesPair signature with
    | none => .error .abiDecoding
    | some (orderAbi, signerSig) =>
      if orderAbi.length ≠ 9 * 32 then pure false
      else
        match Abi.decodeOrder orderAbi with
        | none => .error .abiDecoding
        | some o => pure (validUnwindOrder D env w hash o signerSig)

/-- Holds a fill of a backstop order to the price band and to the per-fill and daily caps. -/
def onBackstopFill (D : Deployment) (w : World) (caller : Address) (marketId : MarketId) (size price : Nat) :
    Except Error World := do
  revertIf (caller ≠ D.insuranceGateway) .unauthorized
  revertIf (w.insurance.maxUnwindDeviationBps = 0) .backstopUnwindDisabled
  let p ← M.toInt price
  let index ← Engine.indexPrice w marketId
  let band ← M.applyBps index w.insurance.maxUnwindDeviationBps
  revertIf (M.abs (p - index) > band) .priceOutsideBand
  let size ← M.toInt size
  let notional ← M.mulPrecision size p
  revertIf (notional > w.insurance.maxUnwindFillNotional) .backstopLimitExceeded
  let day := w.timestamp / DAY
  let total := w.insurance.unwoundOnDay day + notional
  revertIf (total > w.insurance.maxUnwindDailyNotional) .backstopLimitExceeded
  pure { w with insurance := { w.insurance with unwoundOnDay := update w.insurance.unwoundOnDay day total } }

/-! ## Staking -/

/-- The caller's tokens go to this contract and from it into the vault, under this contract's account. -/
def pullIntoVault (D : Deployment) (w : World) (msg : Msg) (amount : Nat) : Except Error World := do
  let w ← w.usdcTransfer msg msg.sender D.insurance amount
  Vault.depositFor D w msg D.insurance D.insurance amount

def donate (D : Deployment) (w : World) (msg : Msg) (amount : Nat) : Except Error World := do
  w.whenNotPaused .insurance
  revertIf (amount = 0) .invalidAmount
  pullIntoVault D w msg amount

/-- Shares are priced against staked capital only. -/
def sharesFor (value total nav : Int) : Except Error Int :=
  if total ≤ 0 ∨ nav ≤ 0 then pure value else M.mulDiv value total nav

def stake (D : Deployment) (w : World) (msg : Msg) (amount : Nat) : Except Error World := do
  w.whenNotPaused .insurance
  revertIf (amount = 0) .invalidAmount
  let value ← Decimals.toInternal amount
  let nav := w.insurance.stakedBalance
  let total := w.insurance.totalShares
  let w ← pullIntoVault D w msg amount
  let minted ← sharesFor value total nav
  revertIf (minted ≤ 0) .invalidAmount
  let stakedBalance ← M.add nav value
  let totalShares ← M.add total minted
  let shares ← M.add (sharesOf w msg.sender) minted
  pure { w with insurance := { w.insurance with
    stakedBalance := stakedBalance
    totalShares := totalShares
    shares := update w.insurance.shares msg.sender ⟨w.insurance.epoch, shares⟩ } }

/-- Starts the cooldown on `shares`; one request at a time in an epoch. -/
def requestUnstake (w : World) (msg : Msg) (shares : Int) : Except Error World := do
  w.whenNotPaused .insurance
  revertIf (shares ≤ 0) .invalidAmount
  revertIf (shares > sharesOf w msg.sender) .insufficientCollateral
  let req := w.insurance.pending msg.sender
  revertIf (req.shares > 0 ∧ req.epoch = w.insurance.epoch) .unstakePending
  pure { w with insurance := { w.insurance with
    pending := update w.insurance.pending msg.sender
      ⟨shares, w.timestamp + UNSTAKE_COOLDOWN, w.insurance.epoch⟩ } }

/-- What `shares` redeem for: the pro-rata part of the smaller of redeemable and staked capital. -/
def payoutFor (shares redeemable total nav : Int) : Except Error Int :=
  if total ≤ 0 then pure 0
  else do
    let v ← M.mulDiv shares redeemable total
    pure (M.min v nav)

/-- Redeems a matured request at the current share price. -/
def withdrawUnstaked (D : Deployment) (w : World) (msg : Msg) : Except Error World := do
  w.whenNotPaused .insurance
  let req := w.insurance.pending msg.sender
  revertIf (req.shares ≤ 0) .noPendingUnstake
  revertIf (w.timestamp < req.unlockTime) .cooldownActive
  let w := { w with insurance := { w.insurance with
    pending := update w.insurance.pending msg.sender ⟨0, 0, 0⟩ } }
  -- A request that outlived its epoch redeems shares a loss wrote off.
  if req.epoch ≠ w.insurance.epoch then
    pure { w with insurance := { w.insurance with shares := update w.insurance.shares msg.sender ⟨0, 0⟩ } }
  else do
    let b := w.insurance.shares msg.sender
    let held := b.shares
    let shares := M.min req.shares held
    let total := w.insurance.totalShares
    let nav := w.insurance.stakedBalance
    let redeemable ← redeemableStake D w
    let payout ← payoutFor shares redeemable total nav
    let amount ← (if payout > 0 then Decimals.toTokenDown payout else pure 0)
    let paid ← Decimals.toInternal amount
    let w := { w with insurance := { w.insurance with
      stakedBalance := nav - paid
      totalShares := total - shares
      shares := update w.insurance.shares msg.sender { b with shares := held - shares } } }
    if amount > 0 then Vault.withdrawTo D w msg D.insurance msg.sender amount else pure w

/-- Moves staked capital into operating capital; emptying it retires the epoch. -/
def sweepToOperating (w : World) (msg : Msg) (amount : Int) : Except Error World := do
  w.onlyRole .insurance .defaultAdmin msg.sender
  revertIf (amount ≤ 0) .invalidAmount
  let swept := M.min amount w.insurance.stakedBalance
  if swept ≤ 0 then pure w
  else do
    let w := { w with insurance := { w.insurance with stakedBalance := w.insurance.stakedBalance - swept } }
    if w.insurance.stakedBalance = 0 ∧ w.insurance.totalShares > 0 then do
      revertIf (w.insurance.epoch + 1 ≥ 2 ^ 32) .panic
      pure { w with insurance := { w.insurance with epoch := w.insurance.epoch + 1, totalShares := 0 } }
    else pure w

end Kryon.Insurance
