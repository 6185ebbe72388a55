import Kryon.OrderGateway
import Kryon.Lib.Transition
/-!
# System — transactions, runs and the deployed genesis

A transaction is one external call of one contract, a token movement outside the protocol, or the passing of time.  The
protocol's machine takes every transaction that returns: a transaction that reverts leaves the world as it was.  Once
deployed, the wiring and the two roles it rests on (`LEDGER_ROLE` on the vault, `FEE_SOURCE_ROLE` on the fee router) stay
fixed; everything else governance may change at any time.
-/
namespace Kryon

open Program Transition
open OrderGateway (Settled FillContext)

/-- The governance, configuration and keeper calls that touch no balance, position, share or order. -/
inductive Config where
  | pause (c : Contract)
  | pauseIndefinitely (c : Contract)
  | unpause (c : Contract)
  | changeRole (c : Contract) (r : Role) (account : Address) (held : Bool)
  | renounceRole (c : Contract) (r : Role)
  | setDepositCaps (total perAccount : Nat)
  | setCapExempt (account : Address) (exempt : Bool)
  | setCollateral (token : Address) (active : Bool)
  | setMarket (marketId : MarketId) (params : MarketParams)
  | setMarketActive (marketId : MarketId) (active : Bool)
  | setFundingConfig (marketId : MarketId) (cfg : FundingConfig)
  | setOiPolicy (marketId : MarketId) (bps : Nat)
  | setMaxTotalOiPolicyBps (bps : Nat)
  | setPublishers (keys : List Address)
  | setFeed (id : Nat) (cfg : FeedConfig)
  | setReferenceFeed (id : Nat) (ref : ReferenceFeed)
  | pushPrices (ids : List Nat) (prices confidences : List Int) (publishTime : Nat)
  | setMarketFees (marketId : MarketId) (makerRate takerRate : Int)
  | defineTier (tier : Nat) (makerRate takerRate : Int)
  | setAccountTier (account : Address) (tier : Nat)
  | setMinNetRate (rate : Int)
  | setRebatesEnabled (enabled : Bool)
  | setReferralsEnabled (enabled : Bool)
  | setReferrerApproved (referrer : Address) (approved : Bool)
  | setSplit (treasuryBps insuranceBps referralBps : Nat)
  | setLiquidationSplit (insuranceBps : Nat)
  | setTreasury (treasury : Address)
  | setUnwindLimits (maxDeviationBps : Nat) (maxFillNotional maxDailyNotional : Int)
  | setParams (maxRewardBps partialBps : Nat)

inductive Tx where
  | config (c : Config)
  | deposit (amount : Nat)
  | depositFor (account : Address) (amount : Nat)
  | depositWithPermit2 (token : Address) (amount : Nat)
  | withdrawTo (recipient : Address) (amount : Nat)
  | updateFunding (marketId : MarketId)
  | settleFillsSigned (fills : List (Fill × FillContext))
  | cancelOrder (nonce : Nat)
  | cancelOrders (nonces : List Nat)
  | cancelUpTo (newMinNonce : Nat)
  | cancelSigned (c : Cancel) (signature : Bytes)
  | donate (amount : Nat)
  | stake (amount : Nat)
  | requestUnstake (shares : Int)
  | withdrawUnstaked
  | sweepToOperating (amount : Int)
  | settleBadDebt (trader : Address)
  | liquidate (trader : Address) (marketId : MarketId) (maxSize : Nat)
  | adl (counterparty : Address) (marketId : MarketId) (maxSize : Nat)
  | claimTreasury
  | claimReferral (referrer : Address)
  /-- The USDC balances after token movements that no protocol contract makes. -/
  | moveUsdc (balances : Address → Nat)
  | wait (seconds : Nat)

structure Call where
  msg : Msg
  tx : Tx

/-! ## Execution -/

def execConfig (D : Deployment) (w : World) (msg : Msg) : Config → Except Error World
  | .pause c => KryonUpgradeable.pause w msg c
  | .pauseIndefinitely c => KryonUpgradeable.pauseIndefinitely w msg c
  | .unpause c => KryonUpgradeable.unpause w msg c
  | .changeRole c r account held => KryonUpgradeable.changeRole w msg c r account held
  | .renounceRole c r => KryonUpgradeable.renounceRole w msg c r
  | .setDepositCaps total perAccount => Vault.setDepositCaps w msg total perAccount
  | .setCapExempt account exempt => Vault.setCapExempt w msg account exempt
  | .setCollateral token active => Vault.setCollateral D w msg token active
  | .setMarket marketId params => RiskParams.setMarket w msg marketId params
  | .setMarketActive marketId active => RiskParams.setMarketActive w msg marketId active
  | .setFundingConfig marketId cfg => RiskParams.setFundingConfig w msg marketId cfg
  | .setOiPolicy marketId bps => RiskParams.setOiPolicy w msg marketId bps
  | .setMaxTotalOiPolicyBps bps => RiskParams.setMaxTotalOiPolicyBps w msg bps
  | .setPublishers keys => OracleAdapter.setPublishers w msg keys
  | .setFeed id cfg => OracleAdapter.setFeed w msg id cfg
  | .setReferenceFeed id ref => OracleAdapter.setReferenceFeed w msg id ref
  | .pushPrices ids prices confidences publishTime => OracleAdapter.pushPrices w msg ids prices confidences publishTime
  | .setMarketFees marketId makerRate takerRate => FeeRouter.setMarketFees w msg marketId makerRate takerRate
  | .defineTier tier makerRate takerRate => FeeRouter.defineTier w msg tier makerRate takerRate
  | .setAccountTier account tier => FeeRouter.setAccountTier w msg account tier
  | .setMinNetRate rate => FeeRouter.setMinNetRate w msg rate
  | .setRebatesEnabled enabled => FeeRouter.setRebatesEnabled w msg enabled
  | .setReferralsEnabled enabled => FeeRouter.setReferralsEnabled w msg enabled
  | .setReferrerApproved referrer approved => FeeRouter.setReferrerApproved w msg referrer approved
  | .setSplit treasuryBps insuranceBps referralBps => FeeRouter.setSplit w msg treasuryBps insuranceBps referralBps
  | .setLiquidationSplit insuranceBps => FeeRouter.setLiquidationSplit w msg insuranceBps
  | .setTreasury treasury => FeeRouter.setTreasury w msg treasury
  | .setUnwindLimits maxDeviationBps maxFillNotional maxDailyNotional =>
    Insurance.setUnwindLimits w msg maxDeviationBps maxFillNotional maxDailyNotional
  | .setParams maxRewardBps partialBps => Liquidation.setParams w msg maxRewardBps partialBps

/-- A program that settles no fill. -/
def unsettled (x : Except Error World) : Except Error (World × List Settled) := do
  let w ← x
  pure (w, [])

def exec (D : Deployment) (env : Env) (w : World) (call : Call) : Except Error (World × List Settled) :=
  let msg := call.msg
  match call.tx with
  | .config c => unsettled (execConfig D w msg c)
  | .deposit amount => unsettled (Vault.deposit D w msg amount)
  | .depositFor account amount => unsettled (Vault.depositFor D w msg msg.sender account amount)
  | .depositWithPermit2 token amount => unsettled (Vault.depositWithPermit2 D w msg token amount)
  | .withdrawTo recipient amount => unsettled (Vault.withdrawTo D w msg msg.sender recipient amount)
  | .updateFunding marketId => unsettled (Engine.updateFunding w msg marketId)
  | .settleFillsSigned fills => OrderGateway.settleFillsSigned D env w msg fills
  | .cancelOrder nonce => unsettled (pure (OrderGateway.cancelOrder w msg nonce))
  | .cancelOrders nonces => unsettled (pure (OrderGateway.cancelOrders w msg nonces))
  | .cancelUpTo newMinNonce => unsettled (OrderGateway.cancelUpTo w msg newMinNonce)
  | .cancelSigned c signature => unsettled (OrderGateway.cancelSigned D env w msg c signature)
  | .donate amount => unsettled (Insurance.donate D w msg amount)
  | .stake amount => unsettled (Insurance.stake D w msg amount)
  | .requestUnstake shares => unsettled (Insurance.requestUnstake w msg shares)
  | .withdrawUnstaked => unsettled (Insurance.withdrawUnstaked D w msg)
  | .sweepToOperating amount => unsettled (Insurance.sweepToOperating w msg amount)
  | .settleBadDebt trader => unsettled ((·.1) <$> Insurance.settleBadDebt D w trader)
  | .liquidate trader marketId maxSize => unsettled (Liquidation.liquidate D w msg trader marketId maxSize)
  | .adl counterparty marketId maxSize => unsettled (Liquidation.adl D w counterparty marketId maxSize)
  | .claimTreasury => unsettled (FeeRouter.claimTreasury D w msg)
  | .claimReferral referrer => unsettled (FeeRouter.claimReferral D w msg referrer)
  | .moveUsdc balances => pure ({ w with usdc := balances }, [])
  | .wait seconds => pure ({ w with timestamp := w.timestamp + seconds }, [])

/-! ## The machine -/

/-- The roles the wiring rests on. -/
def Role.isWiring (c : Contract) (r : Role) : Prop := (c = .vault ∧ r = .ledger) ∨ (c = .feeRouter ∧ r = .feeSource)

instance (c : Contract) (r : Role) : Decidable (Role.isWiring c r) := inferInstanceAs (Decidable (_ ∨ _))

/-- Whether a call leaves the wiring roles as they are. -/
def Tx.keepsWiring : Tx → Bool
  | .config (.changeRole c r _ _) => decide (¬ Role.isWiring c r)
  | _ => true

/-- Whether token movements outside the protocol leave the protocol contracts their USDC. -/
def Tx.keepsTokens (D : Deployment) (w : World) : Tx → Bool
  | .moveUsdc balances => decide (∀ c ∈ Deployment.contracts, w.usdc (D.address c) ≤ balances (D.address c))
  | _ => true

/-- The calls that can be made once the deployment is wired: a protocol contract sends no transaction of its own and
moves USDC only through its code, and the wiring roles stay as they are. -/
def Call.Admissible (D : Deployment) (w : World) (call : Call) : Prop :=
  ¬ D.IsProtocol call.msg.sender ∧ call.tx.keepsWiring = true ∧ call.tx.keepsTokens D w = true

instance (D : Deployment) (w : World) (call : Call) : Decidable (call.Admissible D w) :=
  inferInstanceAs (Decidable (_ ∧ _))

/-- No signature recovers to the account. -/
def Keyless (env : Env) (a : Address) : Prop := ∀ digest signature, env.tryRecover digest signature ≠ some a

/-- A step's label: the call and the fills it settled. -/
structure Label where
  call : Call
  settled : List Settled

/-- The storage each contract has after `initialize`. -/
structure Genesis (D : Deployment) (w : World) : Prop where
  timestamp : 0 < w.timestamp
  ledger : ∀ a, w.hasRole .vault .ledger a = true ↔
    a = D.engine ∨ a = D.feeRouter ∨ a = D.liquidation ∨ a = D.insurance
  feeSource : ∀ a, w.hasRole .feeRouter .feeSource a = true ↔ a = D.gateway ∨ a = D.liquidation
  vault : w.vault = {
    balances := fun _ => 0, totalLedger := 0, totalDeposited := 0, netDeposited := fun _ => 0, depositCap := 0
    accountDepositCap := 0, capExempt := fun a => decide (a = D.insurance ∨ a = D.feeRouter), collateralActive := true }
  engine : w.engine = {
    positions := fun _ => Position.empty, marketBitmap := fun _ => 0, openInterest := fun _ => ⟨0, 0⟩
    funding := fun _ => ⟨0, 0, 0, 0⟩, marks := fun _ => ⟨0, 0, 0, 0⟩, netCostBasis := 0 }
  risk : (∀ m, (w.risk.markets m).listed = false) ∧ w.risk.ids = [] ∧ (∀ m, w.risk.funding m = ⟨0, 0⟩) ∧
    (∀ m, w.risk.oiPolicyBps m = 0) ∧ w.risk.totalOiPolicyBps = 0 ∧ w.risk.maxTotalOiPolicyBps = 0
  oracle : w.oracle.publishers = [] ∧ (∀ id, (w.oracle.feeds id).listed = false) ∧ w.oracle.feedIds = [] ∧
    (∀ id, (w.oracle.refs id).enabled = false) ∧ (∀ e, w.oracle.observations e = ⟨0, 0, 0⟩) ∧
    (∀ id, w.oracle.snapshots id = ⟨0, 0, 0, 0, .none, 0⟩)
  feeRouter : w.feeRouter.treasury ≠ 0 ∧ (∀ m, w.feeRouter.marketRates m = ⟨0, 0, false⟩) ∧
    (∀ t, w.feeRouter.tiers t = ⟨0, 0, false⟩) ∧ (∀ a, w.feeRouter.accountTier a = 0) ∧
    w.feeRouter.minNetRate = FeeRouter.MIN_NET_RATE_FLOOR ∧ w.feeRouter.rebatesEnabled = false ∧
    w.feeRouter.referralsEnabled = false ∧ w.feeRouter.split = ⟨7000, 2000, 1000⟩ ∧
    w.feeRouter.liquidationInsuranceBps = 5000 ∧ w.feeRouter.treasuryAccrued = 0 ∧
    w.feeRouter.referralAccrued = (fun _ => 0) ∧ w.feeRouter.totalReferralAccrued = 0 ∧
    (∀ a, w.feeRouter.approvedReferrer a = false)
  insurance : w.insurance = {
    stakedBalance := 0, totalShares := 0, epoch := 0, shares := fun _ => ⟨0, 0⟩, pending := fun _ => ⟨0, 0, 0⟩
    recordedDebt := fun _ => 0, badDebt := 0, maxUnwindDeviationBps := 0, maxUnwindFillNotional := 0
    maxUnwindDailyNotional := 0, unwoundOnDay := fun _ => 0 }
  liquidation : 0 < w.liquidation.maxRewardBps ∧ w.liquidation.maxRewardBps ≤ Liquidation.MAX_REWARD_BPS_CAP ∧
    Liquidation.MIN_PARTIAL_BPS ≤ w.liquidation.partialLiquidationBps ∧ w.liquidation.partialLiquidationBps ≤ 10000
  gateway : w.gateway = { orderState := fun _ => 0, cancelled := fun _ => false, minNonce := fun _ => 0 }
  pauses : ∀ c, w.pauses c = ⟨0, false⟩

/-- The deployed protocol: its genesis worlds and the transactions that return. -/
def machine (D : Deployment) (env : Env) : Machine World Label where
  init := Genesis D
  step w l w' := l.call.Admissible D w ∧ exec D env w l.call = .ok (w', l.settled)

end Kryon
