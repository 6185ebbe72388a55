import Kryon.FundingPool
import Kryon.Validity
/-!
# FeeLedger — the fee router's vault account covers what it has accrued

The treasury's bucket and the referrers' buckets are never negative, and together they are never more than the fee
router's vault balance: every fee and penalty credits the account by what it adds to the buckets, every claim debits both
alike, and the only other thing that moves the account is a deposit made for it.
-/
namespace Kryon

open Program Transition
open Clearing (Event State)
open OrderGateway (Settled)

variable {D : Deployment} {env : Env} {w w' : World} {msg : Msg} {l : Label}

/-! ## Rates and quotes -/

namespace FeeRouter
variable {s s' : FeeRouterStorage}

theorem ceilMul_ok {n rate fee : Int} (hn : 0 < n) (hr : 0 ≤ rate) (h : ceilMul n rate = .ok fee) :
    0 ≤ fee ∧ n * rate ≤ fee * RATE_DENOMINATOR := by
  unfold ceilMul at h
  split at h
  · rename_i hz
    rw [pure_ok] at h
    subst h
    rw [hz, mul_zero, zero_mul]
    exact ⟨le_refl 0, le_refl 0⟩
  · rename_i hnz
    simp only [bind_ok_iff, M.bound128_ok] at h
    obtain ⟨_, ⟨-, rfl⟩, -, rfl⟩ := h
    have hpos : 0 < n * rate := mul_pos hn (by omega)
    rw [Int.tdiv_eq_ediv_of_nonneg (by omega)]
    simp only [RATE_DENOMINATOR]
    omega

theorem rateFor_taker {marketId : MarketId} {account : Address} {rate : Int} {tier : Nat} (hv : Valid s)
    (h : rateFor s marketId account false = .ok (rate, tier)) : ∃ r, ValidRates r ∧ rate = r.takerRate := by
  have hown : ∀ r : Rates, (r.set = true → ValidRates r) → ∀ t,
      (if r.set = false then (0, s.marketRates marketId) else (t, r)).2.set = true →
      ValidRates (if r.set = false then ((0 : Nat), s.marketRates marketId) else (t, r)).2 := by
    intro r hr t hset
    split at hset
    · rename_i hunset
      rw [if_pos hunset]
      exact hv.marketRates marketId hset
    · rename_i hins
      rw [if_neg hins]
      exact hr hset
  simp only [rateFor, bind_ok_iff, revertIf_ok, pure_ok, Prod.mk.injEq, exists_const, Bool.not_eq_false] at h
  obtain ⟨hset, hrate, -⟩ := h
  refine ⟨_, hown _ ?_ _ hset, hrate.symm⟩
  split
  · exact hv.marketRates marketId
  · exact hv.tiers _

theorem makerFee_ok {n rate fee : Int} (hn : 0 < n)
    (h : (if rate ≥ 0 then ceilMul n rate
      else do
        let rebate ← M.mulDiv n (-rate) RATE_DENOMINATOR
        pure (-rebate)) = .ok fee) : n * rate ≤ fee * RATE_DENOMINATOR := by
  split at h
  · rename_i hge
    exact (ceilMul_ok hn hge h).2
  · rename_i hlt
    simp only [bind_ok_iff, M.mulDiv_ok, pure_ok] at h
    obtain ⟨_, ⟨-, rfl⟩, rfl⟩ := h
    have hnn : 0 ≤ n * -rate := mul_nonneg hn.le (by omega)
    have hdiv : n * -rate / RATE_DENOMINATOR * RATE_DENOMINATOR ≤ n * -rate := Int.ediv_mul_le _ (by decide)
    rw [Int.tdiv_eq_ediv_of_nonneg hnn]
    linarith [mul_neg n rate]

theorem effectiveMakerRate_floor (makerRate takerRate : Int) :
    s.minNetRate ≤ effectiveMakerRate s makerRate takerRate + takerRate := by
  unfold effectiveMakerRate
  simp only
  split <;> split <;> omega

/-- **A quote's taker fee is never negative, and the pair of fees never falls below the floor's share of the notional.** -/
theorem quote_ok {marketId : MarketId} {maker taker : Address} {n : Int} {q : Quote} (hv : Valid s)
    (h : quote s marketId maker taker n = .ok q) :
    0 < n ∧ 0 ≤ q.takerFee ∧ n * s.minNetRate ≤ (q.takerFee + q.makerFee) * RATE_DENOMINATOR := by
  simp only [quote, bind_ok_iff, revertIf_ok, pure_ok, exists_const, not_le] at h
  obtain ⟨hn, ⟨mr, mt⟩, -, ⟨tr, tt⟩, htr, takerFee, htaker, makerFee, hmaker, rfl⟩ := h
  obtain ⟨r, hr, rfl⟩ := rateFor_taker hv htr
  obtain ⟨h0, htaker⟩ := ceilMul_ok hn hr.taker.1 htaker
  have hmaker := makerFee_ok hn hmaker
  have hfloor := effectiveMakerRate_floor (s := s) mr r.takerRate
  refine ⟨hn, h0, ?_⟩
  calc n * s.minNetRate ≤ n * (effectiveMakerRate s mr r.takerRate + r.takerRate) :=
        mul_le_mul_of_nonneg_left hfloor hn.le
    _ = n * r.takerRate + n * effectiveMakerRate s mr r.takerRate := by ring
    _ ≤ takerFee * RATE_DENOMINATOR + makerFee * RATE_DENOMINATOR := add_le_add htaker hmaker
    _ = (takerFee + makerFee) * RATE_DENOMINATOR := by ring

theorem quote_net_nonneg {marketId : MarketId} {maker taker : Address} {n : Int} {q : Quote} (hv : Valid s)
    (h : quote s marketId maker taker n = .ok q) : 0 ≤ q.takerFee + q.makerFee := by
  obtain ⟨hn, -, hle⟩ := quote_ok hv h
  have hrate : 0 ≤ s.minNetRate := le_trans (by decide) hv.minNetRate.1
  exact nonneg_of_mul_nonneg_left ((mul_nonneg hn.le hrate).trans hle) (by decide)

/-! ## Accruals -/

/-- What the fee router owes the treasury and the referrers. -/
def buckets (s : FeeRouterStorage) : Int := s.treasuryAccrued + ∑ a, s.referralAccrued a

/-- No bucket is negative, and the referrers' total is their buckets' sum. -/
structure Booked (s : FeeRouterStorage) : Prop where
  treasury : 0 ≤ s.treasuryAccrued
  referral : ∀ a, 0 ≤ s.referralAccrued a
  total : s.totalReferralAccrued = ∑ a, s.referralAccrued a

theorem share_ok {amount share : Int} {bps : Nat} (ha : 0 ≤ amount) (h : M.mulDiv amount bps 10000 = .ok share) :
    0 ≤ share ∧ share * 10000 ≤ amount * bps := by
  rw [M.mulDiv_ok] at h
  obtain ⟨-, rfl⟩ := h
  have hnn : 0 ≤ amount * (bps : Int) := mul_nonneg ha (Int.natCast_nonneg _)
  rw [Int.tdiv_eq_ediv_of_nonneg hnn]
  exact ⟨Int.ediv_nonneg hnn (by decide), Int.ediv_mul_le _ (by decide)⟩

/-- **A fee adds to the buckets what it does not pass on.** -/
theorem accrue_ok {payer referrer : Address} {amount toInsurance : Int} (hv : Valid s) (hb : Booked s)
    (h : accrue s payer amount referrer = .ok (s', toInsurance)) :
    Booked s' ∧ 0 ≤ toInsurance ∧ buckets s' = buckets s + (max amount 0 - toInsurance) := by
  unfold accrue at h
  split at h
  · rename_i hneg
    simp only [pure_ok, Prod.mk.injEq] at h
    obtain ⟨rfl, rfl⟩ := h
    exact ⟨hb, le_refl 0, by rw [max_eq_right hneg]; omega⟩
  · rename_i hpos
    simp only [bind_ok_iff] at h
    obtain ⟨ins, hins, ref, href, h⟩ := h
    have ha : 0 ≤ amount := by omega
    obtain ⟨hins0, hins⟩ := share_ok ha hins
    obtain ⟨href0, href⟩ := share_ok ha href
    have hsplit : (s.split.insuranceBps : Int) + s.split.referralBps ≤ 10000 := by
      have := hv.split
      omega
    have hle : amount * ((s.split.insuranceBps : Int) + s.split.referralBps) ≤ amount * 10000 :=
      mul_le_mul_of_nonneg_left hsplit ha
    have htreasury : 0 ≤ amount - ins - ref := by
      rw [mul_add] at hle
      omega
    rw [max_eq_left ha]
    split at h
    · simp only [pure_ok, Prod.mk.injEq] at h
      obtain ⟨rfl, rfl⟩ := h
      have hsum : ∑ a, Function.update s.referralAccrued referrer (s.referralAccrued referrer + ref) a =
          ∑ a, s.referralAccrued a + ref := Book.total_post s.referralAccrued referrer ref
      have hreferral : ∀ a, 0 ≤ Function.update s.referralAccrued referrer (s.referralAccrued referrer + ref) a := by
        intro a
        by_cases hr : a = referrer
        · rw [hr, Function.update_self]
          exact add_nonneg (hb.referral referrer) href0
        · rw [Function.update_of_ne hr]
          exact hb.referral a
      refine ⟨⟨add_nonneg hb.treasury htreasury, hreferral, ?_⟩, hins0, ?_⟩
      · rw [hsum, hb.total]
      · rw [buckets, hsum, buckets]
        ring
    · simp only [pure_ok, Prod.mk.injEq] at h
      obtain ⟨rfl, rfl⟩ := h
      refine ⟨⟨add_nonneg hb.treasury (by omega), hb.referral, hb.total⟩, hins0, ?_⟩
      rw [buckets, buckets]
      ring

end FeeRouter

/-- **A fill's fees add to the buckets what they do not pass on.** -/
theorem accrues_ok {s s' : FeeRouterStorage} {maker taker makerReferrer takerReferrer : Address} {q : FeeRouter.Quote}
    {toInsurance : Int} (hv : FeeRouter.Valid s) (hb : FeeRouter.Booked s) (ht : 0 ≤ q.takerFee)
    (hn : 0 ≤ q.takerFee + q.makerFee)
    (h : Accrues s maker taker q makerReferrer takerReferrer s' toInsurance) :
    FeeRouter.Booked s' ∧ 0 ≤ toInsurance ∧
      FeeRouter.buckets s' = FeeRouter.buckets s + (q.takerFee + q.makerFee - toInsurance) := by
  unfold Accrues at h
  split at h
  · rename_i hpos
    obtain ⟨s₁, fromMaker, fromTaker, hmaker, htaker, rfl⟩ := h
    obtain ⟨hb₁, h₁, heq₁⟩ := FeeRouter.accrue_ok hv hb hmaker
    obtain ⟨hb₂, h₂, heq₂⟩ := FeeRouter.accrue_ok (hv.frame (accrue_frame hmaker)) hb₁ htaker
    refine ⟨hb₂, add_nonneg h₁ h₂, ?_⟩
    rw [heq₂, heq₁, max_eq_left hpos.le, max_eq_left ht]
    ring
  · obtain ⟨hb₁, h₁, heq₁⟩ := FeeRouter.accrue_ok hv hb h
    rw [max_eq_left hn] at heq₁
    exact ⟨hb₁, h₁, heq₁⟩

/-! ## The account -/

/-- What the fee router's account holds beyond its buckets. -/
def unclaimed (D : Deployment) (w : World) : Int := w.vault.balances D.feeRouter - FeeRouter.buckets w.feeRouter

/-- What moves money without charging fees moves the account by what it posts to it. -/
theorem Moves.unclaimed {es : List (Event Address MarketId)} (hm : Moves w w') (h : Clears D w es w')
    (hes : ∀ e ∈ es, ¬ e.TradesOn D.feeRouter) :
    unclaimed D w' = unclaimed D w + (es.map (Event.posted D.feeRouter)).sum := by
  have hbal : w'.vault.balances D.feeRouter =
      w.vault.balances D.feeRouter + (es.map (Event.posted D.feeRouter)).sum :=
    Clearing.run_bal feeRouter_ne_engine h hes
  rw [Kryon.unclaimed, Kryon.unclaimed, hm.feeRouter, hbal]
  ring

theorem chargedBalances_feeRouter {b : Address → Int} {maker taker : Address} {q : FeeRouter.Quote} {toInsurance : Int}
    (hm : maker ≠ D.feeRouter) (ht : taker ≠ D.feeRouter) :
    chargedBalances D b maker taker q toInsurance D.feeRouter =
      b D.feeRouter + max q.takerFee 0 + max q.makerFee 0 - max (-q.makerFee) 0 - max toInsurance 0 := by
  have hi : D.feeRouter ≠ D.insurance := D.address_ne (by decide)
  simp only [chargedBalances, Book.transfer_apply, if_neg hm.symm, if_neg ht.symm, if_neg hi, if_true]
  ring

/-- **Charging a fill keeps the account level with the buckets.** -/
theorem chargeFill_unclaimed {caller maker taker makerReferrer takerReferrer : Address} {marketId : MarketId}
    {notional : Int} {q : FeeRouter.Quote} (hm : maker ≠ D.feeRouter) (ht : taker ≠ D.feeRouter)
    (hv : FeeRouter.Valid w.feeRouter) (hb : FeeRouter.Booked w.feeRouter)
    (h : FeeRouter.chargeFill D w caller marketId maker taker notional makerReferrer takerReferrer = .ok (w', q)) :
    FeeRouter.Booked w'.feeRouter ∧ unclaimed D w' = unclaimed D w := by
  obtain ⟨hquote, toInsurance, hacc, hw⟩ := chargeFill_ok h
  have htaker := (FeeRouter.quote_ok hv hquote).2.1
  obtain ⟨hb', hins, hbuckets⟩ := accrues_ok hv hb htaker (FeeRouter.quote_net_nonneg hv hquote) hacc
  refine ⟨hb', ?_⟩
  have hbal : w'.vault.balances D.feeRouter = w.vault.balances D.feeRouter + (q.takerFee + q.makerFee - toInsurance) := by
    rw [hw]
    show chargedBalances D w.vault.balances maker taker q toInsurance D.feeRouter = _
    rw [chargedBalances_feeRouter hm ht, max_eq_left htaker, max_eq_left hins]
    omega
  rw [unclaimed, unclaimed, hbal, hbuckets]
  ring

theorem leg_feeRouter {trader : Address} {m : MarketId} {d v : Int} (ht : trader ≠ D.feeRouter) (hm : Moves w w')
    (h : Clearing.Leg D.engine PRECISION (books D w) trader m d v (books D w')) : unclaimed D w' = unclaimed D w := by
  have hbal : w'.vault.balances D.feeRouter = w.vault.balances D.feeRouter :=
    Clearing.leg_bal_of_ne ht.symm feeRouter_ne_engine h
  rw [unclaimed, unclaimed, hbal, hm.feeRouter]

theorem apply_unclaimed {f : Fill} {notional : Int} {q : FeeRouter.Quote}
    (h : OrderGateway.apply D w f notional = .ok (w', q)) (hm : f.maker.owner ≠ D.feeRouter)
    (ht : f.taker.owner ≠ D.feeRouter) (hv : FeeRouter.Valid w.feeRouter) (hb : FeeRouter.Booked w.feeRouter) :
    FeeRouter.Booked w'.feeRouter ∧ unclaimed D w' = unclaimed D w := by
  obtain ⟨w₁, mi, w₂, ti, hfill₁, hfill₂, hcharge⟩ := apply_ok h
  obtain ⟨hm₁, hleg₁⟩ := applyFill_leg hfill₁
  obtain ⟨hm₂, hleg₂⟩ := applyFill_leg hfill₂
  have hfees : w₂.feeRouter = w.feeRouter := hm₂.feeRouter.trans hm₁.feeRouter
  rw [← hfees] at hv hb
  obtain ⟨hb', heq⟩ := chargeFill_unclaimed hm ht hv hb hcharge
  exact ⟨hb', heq.trans ((leg_feeRouter ht hm₂ hleg₂).trans (leg_feeRouter hm hm₁ hleg₁))⟩

/-- **A settled fill keeps the account level with the buckets.** -/
theorem settleOne_unclaimed {wallet : Address → Bytes32 → Bytes → Bool} {f : Fill} {st : OrderGateway.Settlement}
    (hk : Keyless env D.feeRouter) (hv : FeeRouter.Valid w.feeRouter) (hb : FeeRouter.Booked w.feeRouter)
    (h : OrderGateway.settleOne D env w msg wallet f = .ok (w', st)) :
    FeeRouter.Booked w'.feeRouter ∧ unclaimed D w' = unclaimed D w := by
  obtain ⟨orderState, unwound, happly⟩ := settleOne_progress h
  obtain ⟨hm, ht⟩ := settleOne_owners (by decide) hk h
  have hsame : unclaimed D (withProgress w orderState unwound) = unclaimed D w := rfl
  rw [← hsame]
  exact apply_unclaimed happly hm ht hv hb

theorem chain_unclaimed {settled : List Settled} (hk : Keyless env D.feeRouter) (hv : FeeRouter.Valid w.feeRouter)
    (hb : FeeRouter.Booked w.feeRouter) (h : Chain D env msg w settled w') :
    FeeRouter.Booked w'.feeRouter ∧ unclaimed D w' = unclaimed D w := by
  induction h with
  | nil w => exact ⟨hb, rfl⟩
  | cons wallet h _ ih =>
    obtain ⟨hb₁, heq₁⟩ := settleOne_unclaimed hk hv hb h
    obtain ⟨orderState, unwound, hc⟩ := settleOne_charges h
    obtain ⟨hb₂, heq₂⟩ := ih (hv.frame hc.feeRouter) hb₁
    exact ⟨hb₂, heq₂.trans heq₁⟩

/-- Insurance's share of a penalty is at most the penalty. -/
theorem liquidationShare_le {s : FeeRouterStorage} (hv : FeeRouter.Valid s) {rest : Int} (h0 : 0 ≤ rest) :
    (rest * s.liquidationInsuranceBps).tdiv 10000 ≤ rest := by
  have hbps : (s.liquidationInsuranceBps : Int) ≤ 10000 := by
    have := hv.liquidationSplit.2
    simp only [FeeRouter.MAX_LIQ_INSURANCE_SHARE_BPS] at this
    omega
  have hmul : rest * (s.liquidationInsuranceBps : Int) ≤ rest * 10000 := mul_le_mul_of_nonneg_left hbps h0
  rw [Int.tdiv_eq_ediv_of_nonneg (mul_nonneg h0 (Int.natCast_nonneg _))]
  omega

/-- **A liquidation's penalty keeps the account level with the buckets.** -/
theorem payPenalty_unclaimed {trader : Address} {marketId : MarketId} {closeSize price : Int}
    (ht : trader ≠ D.feeRouter) (hs : msg.sender ≠ D.feeRouter) (hv : FeeRouter.Valid w.feeRouter)
    (hb : FeeRouter.Booked w.feeRouter)
    (h : Liquidation.payPenalty D w msg trader marketId closeSize price = .ok w') :
    FeeRouter.Booked w'.feeRouter ∧ unclaimed D w' = unclaimed D w := by
  have hi : D.feeRouter ≠ D.insurance := D.address_ne (by decide)
  simp only [Liquidation.payPenalty, bind_ok_iff] at h
  obtain ⟨m, -, n, -, penalty, -, cap, -, w₁, hreward, h⟩ := h
  obtain ⟨-, rfl⟩ := Vault.transferInternal_ok hreward
  split at h
  · simp only [bind_ok_iff] at h
    obtain ⟨w₂, hrest, haccrue⟩ := h
    obtain ⟨h0, rfl⟩ := Vault.transferInternal_ok hrest
    obtain ⟨-, toInsurance, hins, hshare, rfl⟩ := accrueLiquidationFee_ok haccrue
    generalize penalty - M.min penalty cap = rest at *
    have hle : toInsurance ≤ rest := by
      rw [hshare]
      exact liquidationShare_le hv h0
    refine ⟨⟨add_nonneg hb.treasury (by omega), hb.referral, hb.total⟩, ?_⟩
    simp only [unclaimed, World.withBalances, FeeRouter.buckets, Book.transfer_apply, if_neg ht.symm, if_neg hs.symm,
      if_neg hi, if_true]
    ring
  · rw [pure_ok] at h
    subst h
    refine ⟨hb, ?_⟩
    simp only [unclaimed, World.withBalances, Book.transfer_apply, if_neg ht.symm, if_neg hs.symm, add_zero]

theorem liquidate_unclaimed {trader : Address} {marketId : MarketId} {maxSize : Nat} (hf : Flat w D.feeRouter)
    (hs : msg.sender ≠ D.feeRouter) (hv : FeeRouter.Valid w.feeRouter) (hb : FeeRouter.Booked w.feeRouter)
    (h : Liquidation.liquidate D w msg trader marketId maxSize = .ok w') :
    FeeRouter.Booked w'.feeRouter ∧ unclaimed D w' = unclaimed D w := by
  have hi : D.insurance ≠ D.feeRouter := D.address_ne (by decide)
  obtain ⟨-, -, closeSize, before, price, w₁, realized, w₂, after, -, -, htransfer, hpay, -, -, hw⟩ := liquidate_ok h
  obtain ⟨hsize, hm₁, d, v, hrun₁⟩ := liquidationTransfer_clears htransfer
  have ht : trader ≠ D.feeRouter := flat_ne hsize hf
  have heq₁ : unclaimed D w₁ = unclaimed D w := by
    rw [hm₁.unclaimed hrun₁ (by simp [Event.TradesOn, ht, hi])]
    simp [Event.posted]
  rw [← hm₁.feeRouter] at hv hb
  obtain ⟨hb₂, heq₂⟩ := payPenalty_unclaimed ht hs hv hb hpay
  rcases hw with ⟨rfl, -⟩ | rfl
  · obtain ⟨hm₃, -, hrun₃⟩ := coveredWorld_clears (D := D) (w := w₂) trader
    rw [hm₃.unclaimed hrun₃ (by simp [Event.TradesOn]), hm₃.feeRouter]
    refine ⟨hb₂, ?_⟩
    simp [Event.posted, hi.symm, ht.symm, heq₂, heq₁]
  · exact ⟨hb₂, heq₂.trans heq₁⟩

/-! ## Transactions -/

/-- The calls that pay into the fee router's account from outside. -/
def Call.CreditsFeeRouter (D : Deployment) (call : Call) : Prop :=
  match call.tx with
  | .depositFor account _ => account = D.feeRouter
  | _ => False

variable {call : Call} {settled : List Settled}

/-- The account stays level with the buckets but for what is paid in from outside. -/
def Level (D : Deployment) (w : World) (call : Call) (w' : World) : Prop :=
  FeeRouter.Booked w'.feeRouter ∧
    ∃ x, 0 ≤ x ∧ (¬ call.CreditsFeeRouter D → x = 0) ∧ unclaimed D w' = unclaimed D w + x

theorem level_of_eq (h : FeeRouter.Booked w'.feeRouter ∧ unclaimed D w' = unclaimed D w) : Level D w call w' :=
  ⟨h.1, 0, le_refl 0, fun _ => rfl, by rw [h.2, add_zero]⟩

theorem level_of_same (hb : FeeRouter.Booked w.feeRouter) (hf : w'.feeRouter = w.feeRouter)
    (hv : w'.vault.balances = w.vault.balances) : Level D w call w' :=
  level_of_eq ⟨hf ▸ hb, by rw [unclaimed, unclaimed, hf, hv]⟩

theorem level_of_moves {es : List (Event Address MarketId)} (hb : FeeRouter.Booked w.feeRouter) (hm : Moves w w')
    (h : Clears D w es w') (hes : ∀ e ∈ es, ¬ e.TradesOn D.feeRouter)
    (hzero : (es.map (Event.posted D.feeRouter)).sum = 0) : Level D w call w' :=
  level_of_eq ⟨hm.feeRouter ▸ hb, by rw [hm.unclaimed h hes, hzero, add_zero]⟩

theorem level_of_insurance {i : InsuranceStorage} (h : Level D (withInsurance w i) call w') : Level D w call w' := h

theorem level_credit {account : Address} {x : Int} (hb : FeeRouter.Booked w.feeRouter) (ha : account ≠ D.feeRouter)
    (hm : Moves w w') (h : Clears D w [.credit account x] w') : Level D w call w' :=
  level_of_moves hb hm h (by simp [Event.TradesOn]) (by simp [Event.posted, ha.symm])

theorem level_withdrawal {account : Address} {x y : Int} (hb : FeeRouter.Booked w.feeRouter)
    (ha : account ≠ D.feeRouter) (hm : Moves w w') (h : Clears D w [.credit account x, .donate y] w') :
    Level D w call w' :=
  level_of_moves hb hm h (by simp [Event.TradesOn]) (by simp [Event.posted, ha.symm])

theorem level_claim {w₁ : World} {x y : Int} (hb : FeeRouter.Booked w₁.feeRouter)
    (hbuckets : FeeRouter.buckets w₁.feeRouter = FeeRouter.buckets w.feeRouter - x)
    (hbal : w₁.vault.balances = w.vault.balances) (hm : Moves w₁ w')
    (h : Clears D w₁ [.credit D.feeRouter (-x), .donate y] w') : Level D w call w' := by
  refine level_of_eq ⟨hm.feeRouter ▸ hb, ?_⟩
  rw [hm.unclaimed h (by simp [Event.TradesOn]), unclaimed, unclaimed, hbuckets, hbal]
  simp only [List.map_cons, List.map_nil, List.sum_cons, List.sum_nil, Event.posted, if_true]
  ring

theorem Booked.claimTreasury {x : Int} (hb : FeeRouter.Booked w.feeRouter) (hx : x ≤ w.feeRouter.treasuryAccrued) :
    FeeRouter.Booked (withBuckets w (w.feeRouter.treasuryAccrued - x) w.feeRouter.referralAccrued
      w.feeRouter.totalReferralAccrued).feeRouter := ⟨sub_nonneg.2 hx, hb.referral, hb.total⟩

theorem Booked.claimReferral {x : Int} {referrer : Address} (hb : FeeRouter.Booked w.feeRouter)
    (hx : x ≤ w.feeRouter.referralAccrued referrer) :
    FeeRouter.Booked (withBuckets w w.feeRouter.treasuryAccrued (Book.post w.feeRouter.referralAccrued referrer (-x))
      (w.feeRouter.totalReferralAccrued - x)).feeRouter := by
  refine ⟨hb.treasury, fun a => ?_, ?_⟩
  · show 0 ≤ Book.post w.feeRouter.referralAccrued referrer (-x) a
    rw [Book.post_apply]
    split
    · rename_i ha
      rw [ha]
      omega
    · rw [add_zero]
      exact hb.referral a
  · show w.feeRouter.totalReferralAccrued - x = Book.total (Book.post w.feeRouter.referralAccrued referrer (-x))
    rw [Book.total_post, hb.total]
    exact sub_eq_add_neg _ _

/-- The account is never negative, so a bad-debt settlement of it pays nothing. -/
theorem coverFor_feeRouter (hb : FeeRouter.Booked w.feeRouter) (h0 : 0 ≤ unclaimed D w) :
    coverFor D w D.feeRouter = 0 := by
  have hbuckets : 0 ≤ FeeRouter.buckets w.feeRouter := add_nonneg hb.treasury (Finset.sum_nonneg fun a _ => hb.referral a)
  have hbal : 0 ≤ w.vault.balances D.feeRouter := by
    rw [unclaimed] at h0
    omega
  rw [coverFor, max_eq_right (by omega)]
  exact min_eq_left (le_max_right _ _)

theorem feeRouter_ne_insurance : D.feeRouter ≠ D.insurance := D.address_ne (by decide)

/-- **Every transaction keeps the account level with the buckets.** -/
theorem exec_level (hk : Keyless env D.feeRouter) (hf : Flat w D.feeRouter) (hv : FeeRouter.Valid w.feeRouter)
    (hb : FeeRouter.Booked w.feeRouter) (h0 : 0 ≤ unclaimed D w) (hadm : call.Admissible D w)
    (hexec : exec D env w call = .ok (w', settled)) : Level D w call w' := by
  have hran := exec_ran hexec
  obtain ⟨msg, tx⟩ := call
  have hsender : ∀ c, msg.sender ≠ D.address c := fun c hc => hadm.1 ⟨c, hc.symm⟩
  cases hran with
  | config h =>
    have hc := execConfig_configures _ _ h
    refine level_of_eq ⟨⟨?_, ?_, ?_⟩, ?_⟩
    · rw [hc.treasuryAccrued]
      exact hb.treasury
    · rw [hc.referralAccrued]
      exact hb.referral
    · rw [hc.totalReferralAccrued, hc.referralAccrued]
      exact hb.total
    · simp only [unclaimed, FeeRouter.buckets, hc.balances, hc.treasuryAccrued, hc.referralAccrued]
  | deposit h | depositWithPermit2 h =>
    obtain ⟨hm, -, -, hrun⟩ := pullAndCredit_clears (hsender .vault) h
    exact level_credit hb (hsender .feeRouter) hm hrun
  | @depositFor account amount _ h =>
    obtain ⟨hm, -, -, hrun⟩ := pullAndCredit_clears (hsender .vault) h
    refine ⟨hm.feeRouter ▸ hb, if D.feeRouter = account then amount * Decimals.SCALE else 0, ?_, ?_, ?_⟩
    · split
      · exact mul_nonneg (Int.natCast_nonneg _) (Int.natCast_nonneg _)
      · exact le_refl 0
    · exact fun hn => if_neg (Ne.symm hn)
    · rw [hm.unclaimed hrun (by simp [Event.TradesOn])]
      simp [Event.posted]
  | withdrawTo h =>
    obtain ⟨hm, -, -, hrun⟩ := withdrawTo_clears h
    exact level_withdrawal hb (hsender .feeRouter) hm hrun
  | updateFunding h =>
    obtain ⟨hm, δ, hrun⟩ := updateFunding_clears (D := D) h
    exact level_of_moves hb hm hrun (by simp [Event.TradesOn]) (by simp [Event.posted])
  | settleFillsSigned h => exact level_of_eq (chain_unclaimed hk hv hb h.chain)
  | donate h =>
    obtain ⟨hm, -, hrun⟩ := pullIntoVault_clears (hsender .vault) h
    exact level_credit hb feeRouter_ne_insurance.symm hm hrun
  | @stake amount w₁ i h _ =>
    obtain ⟨hm, -, hrun⟩ := pullIntoVault_clears (hsender .vault) h
    have hpulled : Level D w ⟨msg, .stake amount⟩ w₁ := level_credit hb feeRouter_ne_insurance.symm hm hrun
    exact hpulled
  | redeem _ h =>
    obtain ⟨hm, -, -, hrun⟩ := withdrawTo_clears h
    exact level_of_insurance (level_withdrawal (by exact hb) feeRouter_ne_insurance.symm hm hrun)
  | @settleBadDebt trader _ =>
    obtain ⟨hm, -, hrun⟩ := coveredWorld_clears (D := D) (w := w) trader
    refine level_of_moves hb hm hrun (by simp [Event.TradesOn]) ?_
    by_cases ht : D.feeRouter = trader
    · rw [← ht]
      simp [Event.posted, coverFor_feeRouter hb h0]
    · simp [Event.posted, feeRouter_ne_insurance, ht]
  | liquidate h => exact level_of_eq (liquidate_unclaimed hf (hsender .feeRouter) hv hb h)
  | @adl counterparty _ _ _ h =>
    obtain ⟨hs, -, hm, d, v, haircut, -, hrun⟩ := adl_clears h
    have hc : counterparty ≠ D.feeRouter := flat_ne hs hf
    refine level_of_moves hb ?_ hrun ?_ ?_
    · exact hm
    · simp [Event.TradesOn, hc, feeRouter_ne_insurance.symm]
    · simp [Event.posted, hc.symm, feeRouter_ne_insurance]
  | claimTreasury hle h =>
    obtain ⟨hm, -, -, hrun⟩ := withdrawTo_clears h
    exact level_claim (Booked.claimTreasury hb hle) (by simp only [FeeRouter.buckets, withBuckets]; ring) rfl hm hrun
  | @claimReferral referrer amount _ hle h =>
    obtain ⟨hm, -, -, hrun⟩ := withdrawTo_clears h
    have hsum : ∑ a, Book.post w.feeRouter.referralAccrued referrer (-(amount * Decimals.SCALE)) a =
        ∑ a, w.feeRouter.referralAccrued a + -(amount * Decimals.SCALE) := Book.total_post _ _ _
    refine level_claim (Booked.claimReferral hb hle) ?_ rfl hm hrun
    simp only [FeeRouter.buckets, withBuckets, hsum]
    ring
  | cancel _ _ _ _ _ | pool _ _ | claimNothing _ | moveUsdc _ | wait _ => exact level_of_same hb rfl rfl

/-! ## Runs -/

/-- The buckets are in order and the account covers them. -/
structure Funded (D : Deployment) (w : World) : Prop where
  booked : FeeRouter.Booked w.feeRouter
  unclaimed : 0 ≤ unclaimed D w

theorem genesis_booked (h : Genesis D w) : FeeRouter.Booked w.feeRouter := by
  obtain ⟨-, -, -, -, -, -, -, -, -, ht, hr, hn, -⟩ := h.feeRouter
  refine ⟨ht.ge, fun a => ?_, ?_⟩
  · rw [hr]
  · rw [hn, hr]
    simp

theorem genesis_unclaimed (h : Genesis D w) : unclaimed D w = 0 := by
  obtain ⟨-, -, -, -, -, -, -, -, -, ht, hr, -⟩ := h.feeRouter
  simp [unclaimed, FeeRouter.buckets, ht, hr, h.vault]

theorem step_level (hk : Keyless env D.feeRouter) (hr : Reachable (machine D env) w) (hf : Funded D w)
    (h : (machine D env).step w l w') : Level D w l.call w' :=
  exec_level hk (reachable_flat (by decide) hk hr) (reachable_valid hr).feeRouter hf.booked hf.unclaimed h.1 h.2

theorem reachable_funded (hk : Keyless env D.feeRouter) (h : Reachable (machine D env) w) : Funded D w := by
  refine h.invariant (Funded D) (fun s hs => ⟨genesis_booked hs, (genesis_unclaimed hs).ge⟩) ?_
  intro s l t hr hs hstep
  obtain ⟨hb, x, hx, -, heq⟩ := step_level hk hr hs hstep
  exact ⟨hb, by rw [heq]; exact add_nonneg hs.unclaimed hx⟩

/-- **With nothing paid in from outside, the account holds the buckets exactly.** -/
theorem run_unclaimed {w₀ : World} {ls : List Label} (hk : Keyless env D.feeRouter) (h₀ : Genesis D w₀)
    (h : Run ((machine D env).restrict fun _ l => ¬ l.call.CreditsFeeRouter D) w₀ ls w) : unclaimed D w = 0 := by
  have hkept := h.preserves (fun w => Reachable (machine D env) w ∧ unclaimed D w = 0) ?_
    ⟨⟨w₀, [], h₀, Run.nil⟩, genesis_unclaimed h₀⟩
  · exact hkept.2
  · rintro s l t ⟨hr, hs⟩ ⟨hc, hstep⟩
    obtain ⟨-, x, -, hx, heq⟩ := step_level hk hr (reachable_funded hk hr) hstep
    exact ⟨hr.step hstep, by rw [heq, hs, hx hc, add_zero]⟩

/-- **The fee router's ledger.** In every reachable world the account covers the treasury's and the referrers' buckets,
exactly so when nothing was paid into it from outside; the referrers' total is their sum and no bucket is negative; and
every fill's taker fee is nonnegative, its fees together are at least the floor's share of its notional, and its rebate is
at most its taker fee. -/
theorem feeRouter_ledger (hk : Keyless env D.feeRouter) (h : Reachable (machine D env) w) :
    FeeRouter.buckets w.feeRouter ≤ w.vault.balances D.feeRouter ∧
      (∀ w₀ ls, Genesis D w₀ → Run ((machine D env).restrict fun _ l => ¬ l.call.CreditsFeeRouter D) w₀ ls w →
        w.vault.balances D.feeRouter = FeeRouter.buckets w.feeRouter) ∧
      w.feeRouter.totalReferralAccrued = ∑ a, w.feeRouter.referralAccrued a ∧
      0 ≤ w.feeRouter.treasuryAccrued ∧ (∀ a, 0 ≤ w.feeRouter.referralAccrued a) ∧
      ∀ l w', (machine D env).step w l w' → ∀ x ∈ l.settled, 0 ≤ x.settlement.quote.takerFee ∧
        x.settlement.notional * x.before.feeRouter.minNetRate ≤
          (x.settlement.quote.takerFee + x.settlement.quote.makerFee) * FeeRouter.RATE_DENOMINATOR ∧
        -x.settlement.quote.makerFee ≤ x.settlement.quote.takerFee := by
  obtain ⟨hb, hu⟩ := reachable_funded hk h
  refine ⟨sub_nonneg.1 hu, fun w₀ ls h₀ hrun => sub_eq_zero.1 (run_unclaimed hk h₀ hrun), hb.total, hb.treasury,
    hb.referral, ?_⟩
  intro l w' hstep x hx
  obtain ⟨earlier, wallet, hc, hone⟩ := exec_chain hstep.1 hstep.2 hx
  have hv : FeeRouter.Valid x.before.feeRouter := ((chain_sameConfig hc).valid (reachable_valid h)).feeRouter
  have hquote := settleOne_quote hone
  obtain ⟨-, htaker, hfloor⟩ := FeeRouter.quote_ok hv hquote
  have hnet := FeeRouter.quote_net_nonneg hv hquote
  exact ⟨htaker, hfloor, by omega⟩

/-- The sample fill's fee of half a USDC, less Insurance's fifth, is in the treasury's bucket and in the account. -/
theorem feeRouter_ledger_trading :
    FeeRouter.buckets (Sample.outcome Sample.trading).feeRouter ≤
        (Sample.outcome Sample.trading).vault.balances Sample.deployment.feeRouter ∧
      (Sample.outcome Sample.trading).feeRouter.treasuryAccrued = 4 * 10 ^ 17 :=
  ⟨(feeRouter_ledger (Sample.keyless .feeRouter) (Sample.outcome_reachable Sample.trading)).1, by decide +kernel⟩

end Kryon
