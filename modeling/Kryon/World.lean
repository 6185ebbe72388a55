import Kryon.RiskLib
/-!
# World — the contracts' storage, their wiring and the shared governance base

A `World` is the storage of the eight proxies, the USDC balances and the clock.  Wiring slots (`vault`, `engine`,
`gateway`, ...) are written once by the deployment and are a `Deployment`, not storage.  A transaction that reverts
changes nothing, so every external function is a program from a world to a world.

The reentrancy guards never fire: no external call of these contracts reaches code that calls back into them (USDC has no
hooks, a wallet's signature check is a static call), so they are not modelled.
-/
namespace Kryon

open Program

inductive Contract where
  | vault
  | engine
  | gateway
  | oracle
  | liquidation
  | insurance
  | risk
  | feeRouter
  deriving DecidableEq

inductive Role where
  | defaultAdmin
  | upgrader
  | riskAdmin
  | feeAdmin
  | operator
  | publisher
  | keeper
  | pauser
  | feeTier
  | backstopSigner
  | ledger
  | feeSource
  deriving DecidableEq

/-- The addresses the contracts hold of each other.  `backstop` is the gateway's slot and `insuranceGateway` is
Insurance's; either is zero when it was never wired. -/
structure Deployment where
  address : Contract → Address
  usdc : Address
  backstop : Address
  insuranceGateway : Address
  address_injective : Function.Injective address
  address_ne_zero : ∀ c, address c ≠ 0
  backstop_wired : backstop = 0 ∨ backstop = address .insurance
  insuranceGateway_wired : insuranceGateway = 0 ∨ insuranceGateway = address .gateway

namespace Deployment
variable (D : Deployment)

def vault : Address := D.address .vault
def engine : Address := D.address .engine
def gateway : Address := D.address .gateway
def liquidation : Address := D.address .liquidation
def insurance : Address := D.address .insurance
def feeRouter : Address := D.address .feeRouter

/-- Whether an address is one of the protocol's own contracts. -/
def IsProtocol (a : Address) : Prop := ∃ c, D.address c = a

def contracts : List Contract := [.vault, .engine, .gateway, .oracle, .liquidation, .insurance, .risk, .feeRouter]

theorem mem_contracts (c : Contract) : c ∈ contracts := by cases c <;> simp [contracts]

instance (a : Address) : Decidable (D.IsProtocol a) :=
  decidable_of_iff (∃ c ∈ contracts, D.address c = a)
    ⟨fun ⟨c, _, h⟩ => ⟨c, h⟩, fun ⟨c, h⟩ => ⟨c, mem_contracts c, h⟩⟩

theorem address_ne {c d : Contract} (h : c ≠ d) : D.address c ≠ D.address d := fun he => h (D.address_injective he)

end Deployment

/-! ## Storage -/

structure PauseStorage where
  guardianPauseExpiry : Nat
  indefinite : Bool

structure VaultStorage where
  balances : Address → Int
  totalLedger : Int
  totalDeposited : Nat
  netDeposited : Address → Nat
  depositCap : Nat
  accountDepositCap : Nat
  capExempt : Address → Bool
  /-- `collateral[usdc].active`: USDC is the only token the registry lists. -/
  collateralActive : Bool

structure OpenInterest where
  long : Int
  short : Int
  deriving DecidableEq

structure EngineStorage where
  positions : Address × MarketId → Position
  marketBitmap : Address → Nat
  openInterest : MarketId → OpenInterest
  funding : MarketId → FundingState
  marks : MarketId → MarkState
  netCostBasis : Int

structure RiskParamsStorage where
  markets : MarketId → MarketParams
  ids : List MarketId
  funding : MarketId → FundingConfig
  oiPolicyBps : MarketId → Nat
  totalOiPolicyBps : Nat
  maxTotalOiPolicyBps : Nat

structure FeedConfig where
  listed : Bool
  active : Bool
  minPublishers : Nat
  maxSpreadBps : Nat
  maxJumpBps : Nat
  maxConfidenceBps : Nat
  maxAge : Nat

structure ReferenceFeed where
  aggregator : Address
  enabled : Bool
  required : Bool
  maxDivergenceBps : Nat
  maxRefAge : Nat

structure Observation where
  price : Int
  confidence : Int
  publishTime : Nat

structure OracleStorage where
  publishers : List Address
  feeds : Nat → FeedConfig
  feedIds : List Nat
  refs : Nat → ReferenceFeed
  observations : Nat × Address → Observation
  snapshots : Nat → OracleSnapshot

structure Rates where
  makerRate : Int
  takerRate : Int
  set : Bool

structure Split where
  treasuryBps : Nat
  insuranceBps : Nat
  referralBps : Nat

structure FeeRouterStorage where
  treasury : Address
  marketRates : MarketId → Rates
  tiers : Nat → Rates
  accountTier : Address → Nat
  minNetRate : Int
  rebatesEnabled : Bool
  referralsEnabled : Bool
  split : Split
  liquidationInsuranceBps : Nat
  treasuryAccrued : Int
  referralAccrued : Address → Int
  totalReferralAccrued : Int
  approvedReferrer : Address → Bool

structure ShareBalance where
  epoch : Nat
  shares : Int

structure PendingUnstake where
  shares : Int
  unlockTime : Nat
  epoch : Nat

structure InsuranceStorage where
  stakedBalance : Int
  totalShares : Int
  epoch : Nat
  shares : Address → ShareBalance
  pending : Address → PendingUnstake
  recordedDebt : Address → Int
  badDebt : Int
  maxUnwindDeviationBps : Nat
  maxUnwindFillNotional : Int
  maxUnwindDailyNotional : Int
  unwoundOnDay : Nat → Int

structure LiquidationStorage where
  maxRewardBps : Nat
  partialLiquidationBps : Nat

structure GatewayStorage where
  /-- Per owner and nonce: the digest prefix in the high 128 bits, the filled amount in the low 128. -/
  orderState : Address × Nat → Nat
  cancelled : Address × Nat → Bool
  minNonce : Address → Nat

structure World where
  timestamp : Nat
  usdc : Address → Nat
  roles : Contract → Role → Address → Bool
  pauses : Contract → PauseStorage
  vault : VaultStorage
  engine : EngineStorage
  risk : RiskParamsStorage
  oracle : OracleStorage
  feeRouter : FeeRouterStorage
  insurance : InsuranceStorage
  liquidation : LiquidationStorage
  gateway : GatewayStorage

/-! ## What the chain supplies -/

/-- The chain's signature recovery and the gateway's EIP-712 digests. -/
structure Env where
  /-- `ECDSA.tryRecover`; `none` is any error it reports. -/
  tryRecover : Bytes32 → Bytes → Option Address
  hashOrder : Order → Bytes32
  hashCancel : Cancel → Bytes32

/-- What a call to a price aggregator yields: a value, a revert, or return data of the wrong shape. -/
inductive Reply (α : Type) where
  | value (a : α)
  | reverted
  | malformed

structure Aggregator where
  decimals : Reply Nat
  /-- `answer` and `updatedAt` of `latestRoundData`. -/
  latestRoundData : Reply (Int × Nat)

/-- The caller of a transaction, and what the accounts and contracts outside the protocol answer during it. -/
structure Msg where
  sender : Address
  hasCode : Address → Bool
  /-- A wallet's ERC-1271 check, under the gas limit: true only for the magic word. -/
  wallet : Address → Bytes32 → Bytes → Bool
  /-- Whether USDC accepts a transfer the balance allows: allowance, blocklist. -/
  usdcAccepts : Address → Address → Nat → Bool
  aggregator : Address → Aggregator

/-! ## Roles and pauses -/

namespace World
variable (w : World)

def hasRole (c : Contract) (r : Role) (a : Address) : Bool := w.roles c r a

/-- True during an indefinite pause or an unexpired guardian pause. -/
def paused (c : Contract) : Bool := (w.pauses c).indefinite || decide (w.timestamp < (w.pauses c).guardianPauseExpiry)

def onlyRole (c : Contract) (r : Role) (a : Address) : Except Error Unit :=
  revertIf (w.hasRole c r a = false) .accessControlUnauthorizedAccount

def whenNotPaused (c : Contract) : Except Error Unit := revertIf (w.paused c = true) .enforcedPause

@[simp] theorem onlyRole_ok (c : Contract) (r : Role) (a : Address) (u : Unit) :
    w.onlyRole c r a = .ok u ↔ w.hasRole c r a = true := by
  simp [onlyRole]

@[simp] theorem whenNotPaused_ok (c : Contract) (u : Unit) : w.whenNotPaused c = .ok u ↔ w.paused c = false := by
  simp [whenNotPaused]

/-- `SafeERC20`: the token moves `amount` from `a` to `b` or the call reverts. -/
def usdcTransfer (msg : Msg) (a b : Address) (amount : Nat) : Except Error World := do
  revertIf (w.usdc a < amount ∨ msg.usdcAccepts a b amount = false) .tokenTransferFailed
  let paid := Function.update w.usdc a (w.usdc a - amount)
  pure { w with usdc := Function.update paid b (paid b + amount) }

end World

namespace KryonUpgradeable

def GUARDIAN_PAUSE_DURATION : Nat := 72 * 3600
def GUARDIAN_PAUSE_COOLDOWN : Nat := 24 * 3600

def setPause (w : World) (c : Contract) (p : PauseStorage) : World :=
  { w with pauses := Function.update w.pauses c p }

/-- The guardian's fast path: stops a contract for `GUARDIAN_PAUSE_DURATION`. -/
def pause (w : World) (msg : Msg) (c : Contract) : Except Error World := do
  w.onlyRole c .pauser msg.sender
  revertIf (w.paused c = true) .enforcedPause
  let p := w.pauses c
  revertIf (p.guardianPauseExpiry ≠ 0 ∧ w.timestamp < p.guardianPauseExpiry + GUARDIAN_PAUSE_COOLDOWN)
    .pauseCooldownActive
  pure (setPause w c { p with guardianPauseExpiry := w.timestamp + GUARDIAN_PAUSE_DURATION })

def pauseIndefinitely (w : World) (msg : Msg) (c : Contract) : Except Error World := do
  w.onlyRole c .defaultAdmin msg.sender
  revertIf ((w.pauses c).indefinite = true) .enforcedPause
  pure (setPause w c { w.pauses c with indefinite := true })

/-- Clears both pauses; a guardian pause ended early still starts the cooldown. -/
def unpause (w : World) (msg : Msg) (c : Contract) : Except Error World := do
  w.onlyRole c .defaultAdmin msg.sender
  revertIf (w.paused c = false) .expectedPause
  let p := w.pauses c
  let expiry := if p.guardianPauseExpiry > w.timestamp then w.timestamp else p.guardianPauseExpiry
  pure (setPause w c ⟨expiry, false⟩)

def setRole (w : World) (c : Contract) (r : Role) (a : Address) (held : Bool) : World :=
  { w with roles := Function.update w.roles c (Function.update (w.roles c) r
      (Function.update (w.roles c r) a held)) }

/-- `grantRole` and `revokeRole`: every role is administered by `DEFAULT_ADMIN_ROLE`. -/
def changeRole (w : World) (msg : Msg) (c : Contract) (r : Role) (a : Address) (held : Bool) : Except Error World := do
  w.onlyRole c .defaultAdmin msg.sender
  pure (setRole w c r a held)

def renounceRole (w : World) (msg : Msg) (c : Contract) (r : Role) : Except Error World :=
  pure (setRole w c r msg.sender false)

end KryonUpgradeable
end Kryon
