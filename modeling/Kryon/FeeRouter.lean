import Kryon.Vault
/-!
# FeeRouter — the fee schedule, the split of fees and penalties, and the claims

Fees stay in the vault: they move from the traders to this contract's vault account, where the treasury and the referrers
own them, and to Insurance.  Only a claim turns them into tokens.
-/
namespace Kryon.FeeRouter

open Program
open Function (update)

def RATE_DENOMINATOR : Int := 1000000
def MAX_TAKER_RATE : Int := 2500
def MAX_MAKER_RATE : Int := 2500
def MIN_MAKER_RATE : Int := -200
def MIN_NET_RATE_FLOOR : Int := 100
def MAX_NET_RATE_FLOOR : Int := 2500
def MIN_INSURANCE_SHARE_BPS : Nat := 1000
def MAX_REFERRAL_SHARE_BPS : Nat := 2000
def MAX_LIQ_INSURANCE_SHARE_BPS : Nat := 10000
def MAX_TIER : Nat := 16

/-! ## Configuration -/

def checkRates (s : FeeRouterStorage) (makerRate takerRate : Int) : Except Error Unit := do
  revertIf (takerRate < 0 ∨ takerRate > MAX_TAKER_RATE) .feeRateOutOfBounds
  revertIf (makerRate < MIN_MAKER_RATE ∨ makerRate > MAX_MAKER_RATE) .feeRateOutOfBounds
  revertIf (makerRate < 0 ∧ s.rebatesEnabled = false) .feeRateOutOfBounds
  revertIf (makerRate + takerRate < s.minNetRate) .netFeeBelowFloor

def setMarketFees (w : World) (msg : Msg) (marketId : MarketId) (makerRate takerRate : Int) : Except Error World := do
  w.onlyRole .feeRouter .feeAdmin msg.sender
  revertIf (marketId = 0) .invalidConfig
  checkRates w.feeRouter makerRate takerRate
  let rates : Rates := ⟨makerRate, takerRate, true⟩
  pure { w with feeRouter := { w.feeRouter with marketRates := update w.feeRouter.marketRates marketId rates } }

def defineTier (w : World) (msg : Msg) (tier : Nat) (makerRate takerRate : Int) : Except Error World := do
  w.onlyRole .feeRouter .feeAdmin msg.sender
  revertIf (tier = 0 ∨ tier > MAX_TIER) (.unknownFeeTier tier)
  checkRates w.feeRouter makerRate takerRate
  let rates : Rates := ⟨makerRate, takerRate, true⟩
  pure { w with feeRouter := { w.feeRouter with tiers := update w.feeRouter.tiers tier rates } }

def setAccountTier (w : World) (msg : Msg) (account : Address) (tier : Nat) : Except Error World := do
  w.onlyRole .feeRouter .feeTier msg.sender
  revertIf (tier ≠ 0 ∧ (w.feeRouter.tiers tier).set = false) (.unknownFeeTier tier)
  pure { w with feeRouter := { w.feeRouter with accountTier := update w.feeRouter.accountTier account tier } }

def setMinNetRate (w : World) (msg : Msg) (rate : Int) : Except Error World := do
  w.onlyRole .feeRouter .feeAdmin msg.sender
  revertIf (rate < MIN_NET_RATE_FLOOR ∨ rate > MAX_NET_RATE_FLOOR) .feeRateOutOfBounds
  pure { w with feeRouter := { w.feeRouter with minNetRate := rate } }

def setRebatesEnabled (w : World) (msg : Msg) (enabled : Bool) : Except Error World := do
  w.onlyRole .feeRouter .feeAdmin msg.sender
  pure { w with feeRouter := { w.feeRouter with rebatesEnabled := enabled } }

def setReferralsEnabled (w : World) (msg : Msg) (enabled : Bool) : Except Error World := do
  w.onlyRole .feeRouter .feeAdmin msg.sender
  pure { w with feeRouter := { w.feeRouter with referralsEnabled := enabled } }

def setReferrerApproved (w : World) (msg : Msg) (referrer : Address) (approved : Bool) : Except Error World := do
  w.onlyRole .feeRouter .feeAdmin msg.sender
  revertIf (referrer = 0) .zeroAddress
  pure { w with feeRouter := { w.feeRouter with
    approvedReferrer := update w.feeRouter.approvedReferrer referrer approved } }

def setSplit (w : World) (msg : Msg) (treasuryBps insuranceBps referralBps : Nat) : Except Error World := do
  w.onlyRole .feeRouter .feeAdmin msg.sender
  revertIf (treasuryBps + insuranceBps + referralBps ≠ 10000) .invalidConfig
  revertIf (insuranceBps < MIN_INSURANCE_SHARE_BPS ∨ referralBps > MAX_REFERRAL_SHARE_BPS) .invalidConfig
  pure { w with feeRouter := { w.feeRouter with split := ⟨treasuryBps, insuranceBps, referralBps⟩ } }

def setLiquidationSplit (w : World) (msg : Msg) (insuranceBps : Nat) : Except Error World := do
  w.onlyRole .feeRouter .feeAdmin msg.sender
  revertIf (insuranceBps < MIN_INSURANCE_SHARE_BPS ∨ insuranceBps > MAX_LIQ_INSURANCE_SHARE_BPS) .invalidConfig
  pure { w with feeRouter := { w.feeRouter with liquidationInsuranceBps := insuranceBps } }

def setTreasury (w : World) (msg : Msg) (treasury : Address) : Except Error World := do
  w.onlyRole .feeRouter .feeAdmin msg.sender
  revertIf (treasury = 0) .zeroAddress
  pure { w with feeRouter := { w.feeRouter with treasury := treasury } }

/-! ## Fill fees -/

/-- `notional * rate / 1e6`, rounded up. -/
def ceilMul (notional rate : Int) : Except Error Int :=
  if rate = 0 then pure 0
  else do
    let n ← M.bound128 notional
    M.bound128 ((n * rate - 1).tdiv RATE_DENOMINATOR + 1)

/-- An account's rate and tier; an unset tier falls back to the market schedule. -/
def rateFor (s : FeeRouterStorage) (marketId : MarketId) (account : Address) (isMaker : Bool) :
    Except Error (Int × Nat) := do
  let tier := s.accountTier account
  let r := if tier = 0 then s.marketRates marketId else s.tiers tier
  let (tier, r) := if r.set = false then (0, s.marketRates marketId) else (tier, r)
  revertIf (r.set = false) (.unknownMarket marketId)
  pure (if isMaker then r.makerRate else r.takerRate, tier)

structure Quote where
  makerFee : Int
  takerFee : Int
  makerTier : Nat
  takerTier : Nat

/-- The maker rate after the rebate switch and the floor on the pair. -/
def effectiveMakerRate (s : FeeRouterStorage) (makerRate takerRate : Int) : Int :=
  let makerRate := if makerRate < 0 ∧ s.rebatesEnabled = false then 0 else makerRate
  if makerRate + takerRate < s.minNetRate then s.minNetRate - takerRate else makerRate

/-- Fees for a fill: debits round up, a rebate rounds down. -/
def quote (s : FeeRouterStorage) (marketId : MarketId) (maker taker : Address) (fillNotional : Int) :
    Except Error Quote := do
  revertIf (fillNotional ≤ 0) .invalidAmount
  let (makerRate, makerTier) ← rateFor s marketId maker true
  let (takerRate, takerTier) ← rateFor s marketId taker false
  let makerRate := effectiveMakerRate s makerRate takerRate
  let takerFee ← ceilMul fillNotional takerRate
  let makerFee ←
    (if makerRate ≥ 0 then ceilMul fillNotional makerRate
    else do
      let rebate ← M.mulDiv fillNotional (-makerRate) RATE_DENOMINATOR
      pure (-rebate))
  pure ⟨makerFee, takerFee, makerTier, takerTier⟩

/-- Splits a fee between treasury, insurance and an approved referrer; returns the insurance share. -/
def accrue (s : FeeRouterStorage) (payer : Address) (amount : Int) (referrer : Address) :
    Except Error (FeeRouterStorage × Int) :=
  if amount ≤ 0 then pure (s, 0)
  else do
    let toInsurance ← M.mulDiv amount s.split.insuranceBps 10000
    let toReferral ← M.mulDiv amount s.split.referralBps 10000
    let toTreasury := amount - toInsurance - toReferral
    if s.referralsEnabled = true ∧ s.approvedReferrer referrer = true ∧ referrer ≠ payer then
      pure ({ s with
        referralAccrued := update s.referralAccrued referrer (s.referralAccrued referrer + toReferral)
        totalReferralAccrued := s.totalReferralAccrued + toReferral
        treasuryAccrued := s.treasuryAccrued + toTreasury }, toInsurance)
    else pure ({ s with treasuryAccrued := s.treasuryAccrued + (toTreasury + toReferral) }, toInsurance)

/-- Charges both sides of a fill and splits the net fee.  Fee sources only. -/
def chargeFill (D : Deployment) (w : World) (caller : Address) (marketId : MarketId) (maker taker : Address)
    (fillNotional : Int) (makerReferrer takerReferrer : Address) : Except Error (World × Quote) := do
  w.onlyRole .feeRouter .feeSource caller
  let q ← quote w.feeRouter marketId maker taker fillNotional
  let w ← (if q.takerFee > 0 then Vault.transferInternal w D.feeRouter taker D.feeRouter q.takerFee else pure w)
  let (w, toInsurance) ←
    (if q.makerFee > 0 then do
      let w ← Vault.transferInternal w D.feeRouter maker D.feeRouter q.makerFee
      let (s, fromMaker) ← accrue w.feeRouter maker q.makerFee makerReferrer
      let (s, fromTaker) ← accrue s taker q.takerFee takerReferrer
      pure ({ w with feeRouter := s }, fromMaker + fromTaker)
    else do
      -- A rebate is paid out of this same fill's taker fee; only the net is split.
      let w ← (if q.makerFee < 0 then Vault.transferInternal w D.feeRouter D.feeRouter maker (-q.makerFee) else pure w)
      let (s, fromTaker) ← accrue w.feeRouter taker (q.takerFee + q.makerFee) takerReferrer
      pure ({ w with feeRouter := s }, fromTaker))
  let w ←
    (if toInsurance > 0 then Vault.transferInternal w D.feeRouter D.feeRouter D.insurance toInsurance else pure w)
  pure (w, q)

/-- Routes a liquidation penalty that already stands in this contract's account.  Fee sources only. -/
def accrueLiquidationFee (D : Deployment) (w : World) (caller : Address) (amount : Int) : Except Error World := do
  w.onlyRole .feeRouter .feeSource caller
  revertIf (amount < 0) .invalidAmount
  if amount = 0 then pure w
  else do
    let toInsurance ← M.mulDiv amount w.feeRouter.liquidationInsuranceBps 10000
    let toTreasury := amount - toInsurance
    let w := { w with feeRouter := { w.feeRouter with treasuryAccrued := w.feeRouter.treasuryAccrued + toTreasury } }
    if toInsurance > 0 then Vault.transferInternal w D.feeRouter D.feeRouter D.insurance toInsurance else pure w

/-! ## Claims -/

/-- Pays the treasury's whole USDC units; the dust stays accrued. -/
def claimTreasury (D : Deployment) (w : World) (msg : Msg) : Except Error World := do
  let amount ← Decimals.toTokenDown w.feeRouter.treasuryAccrued
  if amount = 0 then pure w
  else do
    let internalAmount ← Decimals.toInternal amount
    let w := { w with feeRouter := { w.feeRouter with
      treasuryAccrued := w.feeRouter.treasuryAccrued - internalAmount } }
    Vault.withdrawTo D w msg D.feeRouter w.feeRouter.treasury amount

/-- Pays a referrer's accrued share to the referrer. -/
def claimReferral (D : Deployment) (w : World) (msg : Msg) (referrer : Address) : Except Error World := do
  let amount ← Decimals.toTokenDown (w.feeRouter.referralAccrued referrer)
  if amount = 0 then pure w
  else do
    let internalAmount ← Decimals.toInternal amount
    let w := { w with feeRouter := { w.feeRouter with
      referralAccrued := update w.feeRouter.referralAccrued referrer
        (w.feeRouter.referralAccrued referrer - internalAmount)
      totalReferralAccrued := w.feeRouter.totalReferralAccrued - internalAmount } }
    Vault.withdrawTo D w msg D.feeRouter referrer amount

end Kryon.FeeRouter
