import Kryon.System
/-!
# Sample — scripted runs, and a deployment to run them on

A script makes calls one after another and stops at the first that may not be made or reverts.  A script that returns is
a run of the machine (`script_run`), so evaluating one shows what a reachable world can be.  The sample deployment starts
from a genesis world with three funded accounts and one administrator.
-/
namespace Kryon

open Program Transition
open Function (update)

section Script
variable {D : Deployment} {env : Env} {w w' : World}

/-- Makes the calls one after another. -/
def script (D : Deployment) (env : Env) : World → List Call → Except Error World
  | w, [] => pure w
  | w, call :: calls => do
    revertIf (¬ call.Admissible D w) .unauthorized
    let (w, _) ← exec D env w call
    script D env w calls

/-- The labels of the steps a script takes. -/
def trace (D : Deployment) (env : Env) : World → List Call → List Label
  | _, [] => []
  | w, call :: calls =>
    match exec D env w call with
    | .ok (w', settled) => ⟨call, settled⟩ :: trace D env w' calls
    | .error _ => []

/-- **A script that returns is a run with its trace.** -/
theorem script_run : ∀ (calls : List Call) (w w' : World), script D env w calls = .ok w' →
    Run (machine D env) w (trace D env w calls) w'
  | [], w, w', h => by
    simp only [script, pure_ok] at h
    subst h
    exact Run.nil
  | call :: calls, w, w', h => by
    simp only [script, bind_ok_iff, revertIf_ok, not_not] at h
    obtain ⟨-, hadm, ⟨w₁, settled⟩, hexec, h⟩ := h
    have hstep : (machine D env).step w ⟨call, settled⟩ w₁ := ⟨hadm, hexec⟩
    have hrun := (Run.single hstep).append (script_run calls w₁ w' h)
    rw [trace, hexec]
    exact hrun

/-- Whether every call of a script meets `P` in the world it is made in. -/
def meets (D : Deployment) (env : Env) (P : World → Call → Prop) [∀ w call, Decidable (P w call)] :
    World → List Call → Bool
  | _, [] => true
  | w, call :: calls =>
    match exec D env w call with
    | .ok (w', _) => decide (P w call) && meets D env P w' calls
    | .error _ => false

/-- A script whose calls meet a condition is a run of the machine restricted to it. -/
theorem script_run_restrict (P : World → Call → Prop) [∀ w call, Decidable (P w call)] :
    ∀ (calls : List Call) (w w' : World), meets D env P w calls = true → script D env w calls = .ok w' →
      Run ((machine D env).restrict fun w l => P w l.call) w (trace D env w calls) w'
  | [], w, w', _, h => by
    simp only [script, pure_ok] at h
    subst h
    exact Run.nil
  | call :: calls, w, w', hmeets, h => by
    simp only [script, bind_ok_iff, revertIf_ok, not_not] at h
    obtain ⟨-, hadm, ⟨w₁, settled⟩, hexec, h⟩ := h
    simp only [meets, hexec, Bool.and_eq_true, decide_eq_true_eq] at hmeets
    have hstep : (machine D env).step w ⟨call, settled⟩ w₁ := ⟨hadm, hexec⟩
    have hrun := (Run.single (M := (machine D env).restrict fun w l => P w l.call) ⟨hmeets.1, hstep⟩).append
      (script_run_restrict P calls w₁ w' hmeets.2 h)
    rw [trace, hexec]
    exact hrun

theorem script_append : ∀ (calls calls' : List Call) (w : World),
    script D env w (calls ++ calls') = script D env w calls >>= fun w => script D env w calls'
  | [], calls', w => by rw [List.nil_append, script, pure_bind]
  | call :: calls, calls', w => by
    rw [List.cons_append]
    simp only [script, bind_assoc]
    congr
    funext _
    congr
    funext ⟨w₁, settled⟩
    exact script_append calls calls' w₁

end Script

/-! ## A deployment -/

namespace Sample

def address : Contract → Address
  | .vault => 1
  | .engine => 2
  | .gateway => 3
  | .oracle => 4
  | .liquidation => 5
  | .insurance => 6
  | .risk => 7
  | .feeRouter => 8

def deployment : Deployment where
  address := address
  usdc := 9
  backstop := 6
  insuranceGateway := 3
  address_injective := by
    intro c d
    cases c <;> cases d <;> decide
  address_ne_zero := by
    intro c
    cases c <;> decide
  backstop_wired := by decide
  insuranceGateway_wired := by decide

def admin : Address := 10
def alice : Address := 11
def bob : Address := 12
def carol : Address := 13

/-- A signature is the signer's one-byte address, and none recovers to a protocol contract; a digest is the signer and
the nonce. -/
def env : Env where
  tryRecover _ signature :=
    match signature with
    | [b] => if b.toNat > 9 then some (Fin.ofNat (2 ^ 160) b.toNat) else none
    | _ => none
  hashOrder o := Fin.ofNat (2 ^ 256) ((Fin.val o.owner * 2 ^ 64 + o.nonce) * 2 ^ 128)
  hashCancel c := Fin.ofNat (2 ^ 256) ((Fin.val c.owner * 2 ^ 64 + c.nonce) * 2 ^ 128)

def roles (c : Contract) (r : Role) (a : Address) : Bool :=
  match c, r with
  | .vault, .ledger => decide (a = 2 ∨ a = 8 ∨ a = 5 ∨ a = 6)
  | .feeRouter, .feeSource => decide (a = 3 ∨ a = 5)
  | _, _ => decide (a = admin)

def genesis : World where
  timestamp := 1000
  usdc a := if a = alice ∨ a = bob ∨ a = carol then 10 ^ 12 else 0
  roles := roles
  pauses _ := ⟨0, false⟩
  vault := {
    balances := fun _ => 0, totalLedger := 0, totalDeposited := 0, netDeposited := fun _ => 0, depositCap := 0
    accountDepositCap := 0, capExempt := fun a => decide (a = 6 ∨ a = 8), collateralActive := true }
  engine := {
    positions := fun _ => Position.empty, marketBitmap := fun _ => 0, openInterest := fun _ => ⟨0, 0⟩
    funding := fun _ => ⟨0, 0, 0, 0⟩, marks := fun _ => ⟨0, 0, 0, 0⟩, netCostBasis := 0 }
  risk := {
    markets := fun _ => ⟨0, 0, 0, 0, 0, 0, 0, 0, false, false, 0, 0⟩, ids := [], funding := fun _ => ⟨0, 0⟩
    oiPolicyBps := fun _ => 0, totalOiPolicyBps := 0, maxTotalOiPolicyBps := 0 }
  oracle := {
    publishers := [], feeds := fun _ => ⟨false, false, 0, 0, 0, 0, 0⟩, feedIds := []
    refs := fun _ => ⟨0, false, false, 0, 0⟩, observations := fun _ => ⟨0, 0, 0⟩
    snapshots := fun _ => ⟨0, 0, 0, 0, .none, 0⟩ }
  feeRouter := {
    treasury := admin, marketRates := fun _ => ⟨0, 0, false⟩, tiers := fun _ => ⟨0, 0, false⟩
    accountTier := fun _ => 0, minNetRate := 100, rebatesEnabled := false, referralsEnabled := false
    split := ⟨7000, 2000, 1000⟩, liquidationInsuranceBps := 5000, treasuryAccrued := 0, referralAccrued := fun _ => 0
    totalReferralAccrued := 0, approvedReferrer := fun _ => false }
  insurance := {
    stakedBalance := 0, totalShares := 0, epoch := 0, shares := fun _ => ⟨0, 0⟩, pending := fun _ => ⟨0, 0, 0⟩
    recordedDebt := fun _ => 0, badDebt := 0, maxUnwindDeviationBps := 0, maxUnwindFillNotional := 0
    maxUnwindDailyNotional := 0, unwoundOnDay := fun _ => 0 }
  liquidation := ⟨100, 5000⟩
  gateway := { orderState := fun _ => 0, cancelled := fun _ => false, minNonce := fun _ => 0 }

theorem genesis_ok : Genesis deployment genesis where
  timestamp := by decide
  ledger a := by
    show decide (a = 2 ∨ a = 8 ∨ a = 5 ∨ a = 6) = true ↔ a = 2 ∨ a = 8 ∨ a = 5 ∨ a = 6
    exact decide_eq_true_iff
  feeSource a := by
    show decide (a = 3 ∨ a = 5) = true ↔ a = 3 ∨ a = 5
    exact decide_eq_true_iff
  vault := rfl
  engine := rfl
  risk := ⟨fun _ => rfl, rfl, fun _ => rfl, fun _ => rfl, rfl, rfl⟩
  oracle := ⟨rfl, fun _ => rfl, rfl, fun _ => rfl, fun _ => rfl, fun _ => rfl⟩
  feeRouter := ⟨by decide, fun _ => rfl, fun _ => rfl, fun _ => rfl, rfl, rfl, rfl, rfl, rfl, rfl, rfl, rfl, fun _ => rfl⟩
  insurance := rfl
  liquidation := by decide
  gateway := rfl
  pauses _ := rfl

/-- No signature recovers to a protocol contract. -/
theorem keyless (c : Contract) : Keyless env (deployment.address c) := by
  intro digest signature h
  have hval : ∀ a : Address, env.tryRecover digest signature = some a → 9 < Fin.val a := by
    intro a ha
    unfold env at ha
    simp only at ha
    split at ha
    · split at ha
      · rename_i b hb
        have hmod : b.toNat % 2 ^ 160 = b.toNat := Nat.mod_eq_of_lt (by have := b.toNat_lt; omega)
        rw [← Option.some.inj ha]
        show 9 < b.toNat % 2 ^ 160
        omega
      · exact absurd ha (by simp)
    · exact absurd ha (by simp)
  have hlt := hval _ h
  revert hlt
  cases c <;> decide

/-! ## Calls -/

/-- A call by an account without code, to whom USDC refuses nothing. -/
def call (sender : Address) (tx : Tx) : Call where
  msg := {
    sender := sender
    hasCode := fun _ => false
    wallet := fun _ _ _ => false
    usdcAccepts := fun _ _ _ => true
    aggregator := fun _ => ⟨.reverted, .reverted⟩ }
  tx := tx

def feed : FeedConfig where
  listed := true
  active := true
  minPublishers := 1
  maxSpreadBps := 100
  maxJumpBps := 0
  maxConfidenceBps := 500
  maxAge := 300

def market (initialMarginBps maintenanceMarginBps liquidationFeeBps : Nat) : MarketParams where
  oracleId := 1
  initialMarginBps := initialMarginBps
  maintenanceMarginBps := maintenanceMarginBps
  liquidationFeeBps := liquidationFeeBps
  maxExecutionDeviationBps := 1000
  maxOracleConfidenceBps := 500
  maxOracleAge := 300
  maxLeverageBps := 10000
  active := true
  listed := true
  maxOpenInterest := 10 ^ 30
  minFillNotional := 0

/-- The administrator's price for every market, observed at `publishTime`. -/
def push (price : Int) (publishTime : Nat) : Call := call admin (.config (.pushPrices [1] [price] [0] publishTime))

/-- One feed and two markets under the same parameters, priced at `price`. -/
def configure (params : MarketParams) (price : Int) : List Call := [
  call admin (.config (.setPublishers [admin])),
  call admin (.config (.setFeed 1 feed)),
  call admin (.config (.setMarket 1 params)),
  call admin (.config (.setMarket 2 params)),
  call admin (.config (.setMarketFees 1 0 500)),
  call admin (.config (.setMarketFees 2 0 500)),
  call admin (.config (.setDepositCaps (10 ^ 12) (10 ^ 12))),
  push price 1000]

def order (owner : Address) (marketId : MarketId) (isLong : Bool) (size price nonce : Nat) : Order where
  owner := owner
  marketId := marketId
  isLong := isLong
  size := size
  limitPrice := price
  reduceOnly := false
  nonce := nonce
  expiry := 100000
  referrer := 0

def sign (a : Address) : Bytes := [UInt8.ofNat (Fin.val a)]

/-- The buyer is the maker, the seller the taker. -/
def fill (buyer seller : Address) (marketId : MarketId) (size price nonce : Nat) : Fill where
  fillId := nonce
  maker := order buyer marketId true size price nonce
  makerSignature := sign buyer
  taker := order seller marketId false size price nonce
  takerSignature := sign seller
  size := size
  price := price

def settle (fills : List Fill) : Call :=
  call admin (.settleFillsSigned (fills.map fun f => (f, ⟨.enough, fun _ _ _ => false⟩)))

/-! ## Outcomes -/

/-- The world a script from the genesis ends in. -/
def outcome (calls : List Call) : World :=
  match script deployment env genesis calls with
  | .ok w => w
  | .error _ => genesis

/-- **What a script ends in is reachable.** -/
theorem outcome_reachable (calls : List Call) : Reachable (machine deployment env) (outcome calls) := by
  unfold outcome
  split
  · rename_i w hs
    exact ⟨genesis, _, genesis_ok, script_run calls genesis w hs⟩
  · exact ⟨genesis, [], genesis_ok, Run.nil⟩

/-- **A script that returns is a run from the genesis.** -/
theorem outcome_run (calls : List Call) (h : (script deployment env genesis calls).isOk = true) :
    Run (machine deployment env) genesis (trace deployment env genesis calls) (outcome calls) := by
  obtain ⟨w, hs⟩ := ok_of_isOk h
  rw [outcome, hs]
  exact script_run calls genesis w hs

/-- A script that returns and whose calls meet a condition is a run of the restricted machine. -/
theorem outcome_run_restrict (P : World → Call → Prop) [∀ w call, Decidable (P w call)] (calls : List Call)
    (h : (script deployment env genesis calls).isOk = true) (hmeets : meets deployment env P genesis calls = true) :
    Run ((machine deployment env).restrict fun w l => P w l.call) genesis (trace deployment env genesis calls)
      (outcome calls) := by
  obtain ⟨w, hs⟩ := ok_of_isOk h
  rw [outcome, hs]
  exact script_run_restrict P calls genesis w hmeets hs

/-- A script that can be continued by one call takes one more step. -/
theorem outcome_step (calls : List Call) (call : Call)
    (h : (script deployment env genesis (calls ++ [call])).isOk = true) :
    ∃ settled, (machine deployment env).step (outcome calls) ⟨call, settled⟩ (outcome (calls ++ [call])) := by
  obtain ⟨w', hs⟩ := ok_of_isOk h
  rw [outcome, outcome, hs]
  rw [script_append, bind_ok_iff] at hs
  obtain ⟨w, hw, hs⟩ := hs
  simp only [script, bind_ok_iff, revertIf_ok, not_not, pure_ok] at hs
  obtain ⟨-, hadm, ⟨w₁, settled⟩, hexec, rfl⟩ := hs
  rw [hw]
  exact ⟨settled, hadm, hexec⟩

/-- Both sides fund and Alice buys 10 at 100 in the first market. -/
def trading : List Call :=
  configure (market 1000 500 100) (100 * 10 ^ 18) ++
    [call alice (.deposit (1000 * 10 ^ 6)), call bob (.deposit (1000 * 10 ^ 6)),
      settle [fill alice bob 1 (10 * 10 ^ 18) (100 * 10 ^ 18) 1]]

/-- Alice buys 10 at 100 from Bob in two fills of the same two orders. -/
def partialFills : List Call :=
  let f := fill alice bob 1 (10 * 10 ^ 18) (100 * 10 ^ 18) 1
  configure (market 1000 500 100) (100 * 10 ^ 18) ++
    [call alice (.deposit (1000 * 10 ^ 6)), call bob (.deposit (1000 * 10 ^ 6)),
      settle [{ f with size := 4 * 10 ^ 18 }], settle [{ f with size := 6 * 10 ^ 18 }]]

/-- A price drop takes Alice below maintenance, and Carol liquidates a part of her long. -/
def liquidating : List Call :=
  configure (market 1000 500 100) (100 * 10 ^ 18) ++
    [call alice (.deposit (1000 * 10 ^ 6)), call bob (.deposit (1000 * 10 ^ 6)),
      settle [fill alice bob 1 (80 * 10 ^ 18) (100 * 10 ^ 18) 1],
      call admin (.wait 10), push (90 * 10 ^ 18) 1010,
      call carol (.liquidate alice 1 (10 ^ 30))]

/-- The price drops so far that Alice's loss exceeds her deposit. -/
def crashing : List Call :=
  configure (market 1000 500 100) (100 * 10 ^ 18) ++
    [call alice (.deposit (1000 * 10 ^ 6)), call bob (.deposit (1000 * 10 ^ 6)),
      settle [fill alice bob 1 (80 * 10 ^ 18) (100 * 10 ^ 18) 1],
      call admin (.wait 10), push (80 * 10 ^ 18) 1010]

/-- Alice's position is closed, and Insurance receives a donation. -/
def bankrupt : List Call := crashing ++ [call carol (.liquidate alice 1 (10 ^ 30)), call carol (.donate (10 * 10 ^ 6))]

/-- Alice, closed out in debt, is paid for liquidating Carol. -/
def rewarded : List Call :=
  configure (market 1000 500 100) (100 * 10 ^ 18) ++
    [call alice (.deposit (1000 * 10 ^ 6)), call bob (.deposit (2000 * 10 ^ 6)), call carol (.deposit (1000 * 10 ^ 6)),
      settle [fill alice bob 1 (80 * 10 ^ 18) (100 * 10 ^ 18) 1, fill carol bob 1 (60 * 10 ^ 18) (100 * 10 ^ 18) 2],
      call admin (.wait 10), push (86 * 10 ^ 18) 1010,
      call bob (.liquidate alice 1 (10 ^ 30)), call alice (.liquidate carol 1 (10 ^ 30))]

/-- At a price below two, Carol closes all of Alice's long but its last wei. -/
def dust : List Call :=
  configure (market 1000 500 100) (2 * 10 ^ 18) ++
    [call alice (.deposit (1000 * 10 ^ 6)), call bob (.deposit (1000 * 10 ^ 6)),
      settle [fill alice bob 1 (4000 * 10 ^ 18) (2 * 10 ^ 18) 1],
      call admin (.wait 10), push (16 * 10 ^ 17) 1010,
      call carol (.liquidate alice 1 (4000 * 10 ^ 18 - 1))]

/-- The backstop takes Alice's long over, and the price drops further. -/
def underwater : List Call :=
  crashing ++ [call carol (.liquidate alice 1 (10 ^ 30)), call admin (.wait 10), push (75 * 10 ^ 18) 1020]

/-- The backstop takes a long over at a price below two, and a donation keeps its marked capital above zero at the next
price, which no wei divides evenly. -/
def uneven : List Call :=
  configure (market 1000 500 100) (2 * 10 ^ 18) ++
    [call alice (.deposit (1000 * 10 ^ 6)), call bob (.deposit (1000 * 10 ^ 6)),
      settle [fill alice bob 1 (4000 * 10 ^ 18) (2 * 10 ^ 18) 1],
      call admin (.wait 10), push (16 * 10 ^ 17) 1010,
      call carol (.liquidate alice 1 (10 ^ 30)), call carol (.donate (800 * 10 ^ 6)),
      call admin (.wait 10), push 1433333333333333333 1020]

/-- A 32-byte word, big-endian. -/
def word (n : Nat) : Bytes := (List.range 32).map fun i => UInt8.ofNat (n / 256 ^ (31 - i))

def encodeOrder (o : Order) : Bytes :=
  word (Fin.val o.owner) ++ word o.marketId.toNat ++ word o.isLong.toNat ++ word o.size ++ word o.limitPrice ++
    word o.reduceOnly.toNat ++ word o.nonce ++ word o.expiry ++ word (Fin.val o.referrer)

/-- The backstop's signature: the encoded order and the signer's signature. -/
def signUnwind (signer : Address) (o : Order) : Bytes :=
  word 64 ++ word 384 ++ word 288 ++ encodeOrder o ++ word 1 ++ sign signer

/-- Insurance sells four of what it took over to Bob. -/
def unwindFill : Fill :=
  let f := fill bob deployment.insurance 1 (4 * 10 ^ 18) (90 * 10 ^ 18) 2
  let o := { f.taker with reduceOnly := true, expiry := 2000 }
  { f with taker := o, takerSignature := signUnwind admin o }

def unwinding : List Call :=
  liquidating ++ [call admin (.config (.setUnwindLimits 500 (10 ^ 6 * 10 ^ 18) (10 ^ 7 * 10 ^ 18))), settle [unwindFill]]

/-- The longs owe an hour's funding, and Bob collects his by selling his short on to Carol. -/
def funding : List Call :=
  trading ++ [
    call carol (.deposit (1000 * 10 ^ 6)),
    call admin (.config (.setFundingConfig 1 ⟨10 ^ 18, 10 ^ 16⟩)),
    call admin (.wait 3600),
    push (99 * 10 ^ 18) 4600,
    call admin (.updateFunding 1),
    settle [fill bob carol 1 (10 * 10 ^ 18) (99 * 10 ^ 18) 2]]

/-- The keeper updates the market's funding an hour before its first fill; a second passes after the fill. -/
def poked : List Call :=
  configure (market 1000 500 100) (100 * 10 ^ 18) ++ [
    call alice (.deposit (1000 * 10 ^ 6)), call bob (.deposit (1000 * 10 ^ 6)),
    call admin (.config (.setFundingConfig 1 ⟨10 ^ 18, 10 ^ 16⟩)),
    call admin (.updateFunding 1),
    call admin (.wait 3600),
    push (99 * 10 ^ 18) 4600,
    settle [fill alice bob 1 (10 * 10 ^ 18) (100 * 10 ^ 18) 1],
    call admin (.wait 1)]

/-- One feed, before its first price. -/
def unpriced : List Call := [
  call admin (.config (.setPublishers [admin])),
  call admin (.config (.setFeed 1 feed))]

/-- Alice, the second publisher of a feed that needs both, stores the largest price there is. -/
def hostile : List Call := [
  call admin (.config (.setPublishers [admin, alice])),
  call admin (.config (.setFeed 1 { feed with minPublishers := 2 })),
  call admin (.config (.setFeed 2 feed)),
  call alice (.config (.pushPrices [1] [I128_MAX] [0] 1000))]

/-- Insurance has operating capital while the pool waits for Alice's funding. -/
def donated : List Call := funding ++ [call carol (.donate (10 * 10 ^ 6))]

end Sample
end Kryon
