import Kryon.MarketTick
import Kryon.Backstop
/-!
# BackstopFills — the matcher's filter against `Insurance.onBackstopFill`

Every reachable world's unwind limits are within the bounds of `setUnwindLimits` (`reachable_limits`); within these bounds
the hook takes a fill exactly when it is in the band and under both caps (`onBackstopFill_iff`), and the matcher's filter
offers exactly the fills the chain then takes in order.
-/
namespace Kryon

open Program Transition
open OrderGateway (Settled)

variable {D : Deployment} {env : Env} {w w' : World} {msg : Msg} {l : Label} {ls : List Label}

/-! ## The limits -/

/-- The bounds of the unwind limits. -/
structure Insurance.ValidLimits (i : InsuranceStorage) : Prop where
  deviation : i.maxUnwindDeviationBps ≤ Insurance.MAX_UNWIND_DEVIATION_BPS
  fill : 0 ≤ i.maxUnwindFillNotional ∧ i.maxUnwindFillNotional ≤ Insurance.MAX_UNWIND_FILL_NOTIONAL
  daily : i.maxUnwindFillNotional ≤ i.maxUnwindDailyNotional ∧
    i.maxUnwindDailyNotional ≤ Insurance.MAX_UNWIND_DAILY_NOTIONAL

/-- The limits are the same. -/
structure SameLimits (i i' : InsuranceStorage) : Prop where
  deviation : i'.maxUnwindDeviationBps = i.maxUnwindDeviationBps
  fill : i'.maxUnwindFillNotional = i.maxUnwindFillNotional
  daily : i'.maxUnwindDailyNotional = i.maxUnwindDailyNotional

theorem SameLimits.refl (i : InsuranceStorage) : SameLimits i i := ⟨rfl, rfl, rfl⟩

theorem SameLimits.trans {i i' i'' : InsuranceStorage} (h : SameLimits i i') (h' : SameLimits i' i'') :
    SameLimits i i'' := ⟨h'.deviation.trans h.deviation, h'.fill.trans h.fill, h'.daily.trans h.daily⟩

theorem SameLimits.of_eq {i i' : InsuranceStorage} (h : i' = i) : SameLimits i i' := h ▸ .refl i

theorem SameLimits.valid {i i' : InsuranceStorage} (h : SameLimits i i') (hv : Insurance.ValidLimits i) :
    Insurance.ValidLimits i' := by
  refine ⟨?_, ?_, ?_⟩
  · rw [h.deviation]
    exact hv.deviation
  · rw [h.fill]
    exact hv.fill
  · rw [h.fill, h.daily]
    exact hv.daily

theorem Frames.sameLimits (h : Frames w w') : SameLimits w.insurance w'.insurance :=
  ⟨congrArg (·.maxUnwindDeviationBps) h.insurance, congrArg (·.maxUnwindFillNotional) h.insurance,
    congrArg (·.maxUnwindDailyNotional) h.insurance⟩

theorem execConfig_validLimits (c : Config) (hv : Insurance.ValidLimits w.insurance) :
    Returns (fun w' => Insurance.ValidLimits w'.insurance) (execConfig D w msg c) := by
  by_cases hlimits : ∃ deviation fill daily, c = .setUnwindLimits deviation fill daily
  · obtain ⟨deviation, fill, daily, rfl⟩ := hlimits
    intro w' h
    simp only [execConfig, Insurance.setUnwindLimits, bind_ok_iff, World.onlyRole_ok, revertIf_ok, pure_ok, exists_const,
      not_or, not_lt, gt_iff_lt] at h
    obtain ⟨-, hdeviation, hfill, hdaily, rfl⟩ := h
    exact ⟨hdeviation, hfill, hdaily⟩
  · have hins : Returns (fun w' => w'.insurance = w.insurance) (execConfig D w msg c) := by
      cases c <;>
        simp only [execConfig, KryonUpgradeable.pause, KryonUpgradeable.pauseIndefinitely, KryonUpgradeable.unpause,
          KryonUpgradeable.changeRole, KryonUpgradeable.renounceRole, Vault.setDepositCaps, Vault.setCapExempt,
          Vault.setCollateral, RiskParams.setMarket, RiskParams.setMarketActive, RiskParams.setFundingConfig,
          RiskParams.setOiPolicy, RiskParams.setMaxTotalOiPolicyBps, OracleAdapter.setPublishers, OracleAdapter.setFeed,
          OracleAdapter.setReferenceFeed, OracleAdapter.pushPrices, FeeRouter.setMarketFees, FeeRouter.defineTier,
          FeeRouter.setAccountTier, FeeRouter.setMinNetRate, FeeRouter.setRebatesEnabled, FeeRouter.setReferralsEnabled,
          FeeRouter.setReferrerApproved, FeeRouter.setSplit, FeeRouter.setLiquidationSplit, FeeRouter.setTreasury,
          Liquidation.setParams] <;>
        repeat' first
          | exact absurd ⟨_, _, _, rfl⟩ hlimits
          | exact Returns.pure rfl
          | refine Returns.bind fun _ => ?_
    exact fun w' h => (SameLimits.of_eq (hins w' h)).valid hv

theorem sweptPool_sameLimits (i : InsuranceStorage) (swept : Int) : SameLimits i (sweptPool i swept) := by
  unfold sweptPool
  split <;> exact ⟨rfl, rfl, rfl⟩

theorem stakes_sameLimits {call : Call} {settled : List Settled} (hadm : call.Admissible D w)
    (htx : call.tx.stakes = true) (hexec : exec D env w call = .ok (w', settled)) :
    SameLimits w.insurance w'.insurance := by
  have hsender : ∀ c, call.msg.sender ≠ D.address c := fun c hc => hadm.1 ⟨c, hc.symm⟩
  obtain ⟨msg, tx⟩ := call
  cases tx <;> simp only [Tx.stakes, Bool.false_eq_true] at htx
  case stake amount =>
    obtain ⟨w₁, minted, hpull, -, -, rfl⟩ := stake_ok (unsettled_ok.1 hexec).1
    have hpulled := (pullIntoVault_clears (hsender .vault) hpull).1.sameLimits
    exact hpulled.trans ⟨rfl, rfl, rfl⟩
  case requestUnstake shares =>
    obtain ⟨-, -, rfl⟩ := requestUnstake_ok (unsettled_ok.1 hexec).1
    exact ⟨rfl, rfl, rfl⟩
  case withdrawUnstaked =>
    obtain ⟨-, -, ⟨-, rfl⟩ | ⟨-, w₁, amount, rfl, hpaid | rfl⟩⟩ := withdrawUnstaked_ok (unsettled_ok.1 hexec).1
    · exact ⟨rfl, rfl, rfl⟩
    · have hredeemed : SameLimits w.insurance (redeemedPool w.insurance msg.sender
          (redeemedShares w.insurance msg.sender) (amount * Decimals.SCALE)) := ⟨rfl, rfl, rfl⟩
      exact hredeemed.trans (withdrawTo_clears hpaid).1.sameLimits
    · exact ⟨rfl, rfl, rfl⟩
  case sweepToOperating amount =>
    obtain ⟨swept, -, -, rfl | rfl⟩ := sweepToOperating_ok (unsettled_ok.1 hexec).1
    · exact .refl _
    · exact sweptPool_sameLimits _ _

theorem settleOne_sameLimits {wallet : Address → Bytes32 → Bytes → Bool} {f : Fill} {st : OrderGateway.Settlement}
    (h : OrderGateway.settleOne D env w msg wallet f = .ok (w', st)) : SameLimits w.insurance w'.insurance := by
  obtain ⟨orderState, unwound, hc⟩ := settleOne_charges h
  have hsame : SameLimits w.insurance (withProgress w orderState unwound).insurance := ⟨rfl, rfl, rfl⟩
  exact hsame.trans hc.sameLimits

theorem step_validLimits (hv : Insurance.ValidLimits w.insurance) (h : (machine D env).step w l w') :
    Insurance.ValidLimits w'.insurance := by
  by_cases htx : l.call.tx.stakes = true
  · exact (stakes_sameLimits h.1 htx h.2).valid hv
  · have heffect := exec_effect h.1 h.2
    generalize l.call.tx = tx at heffect htx
    generalize l.settled = settled at heffect
    cases heffect with
    | configured h => exact execConfig_validLimits _ hv _ h
    | charged _ h => exact h.sameLimits.valid hv
    | settled h =>
      have hsame := h.relates (fun w w' => SameLimits w.insurance w'.insurance) (fun w => .refl w.insurance)
        (fun _ _ _ => SameLimits.trans) fun _ _ _ _ _ => settleOne_sameLimits
      exact hsame.valid hv
    | cancelled _ _ _ _ => exact hv
    | staked h _ _ => exact absurd h htx
    | outside _ _ => exact hv

/-- **The limits are always within the bounds of their setter.** -/
theorem reachable_limits (h : Reachable (machine D env) w) : Insurance.ValidLimits w.insurance := by
  refine h.invariant (fun w => Insurance.ValidLimits w.insurance) (fun w h₀ => ?_) fun _ _ _ _ => step_validLimits
  rw [h₀.insurance]
  exact ⟨by decide, by decide, by decide⟩

/-! ## The hook -/

open Matching (EngineMatch EngineOrder EngineInput notionalOf matchOrders)

theorem indexPrice_inRange {m : MarketId} {index : Int} (h : Engine.indexPrice w m = .ok index) : M.InRange index := by
  simp only [Engine.indexPrice, Engine.indexOf, OracleAdapter.getPrice, OracleAdapter.validate, bind_ok_iff, revertIf_ok,
    pure_ok, exists_const, M.applyBps_ok] at h
  obtain ⟨p, -, snap, ⟨-, -, -, ⟨-, -, -, -, bound, ⟨⟨-, hrange, -⟩, -⟩, -⟩, rfl⟩, rfl⟩ := h
  exact hrange

/-- What is unwound of the day's cap. -/
def Insurance.unwoundToday (w : World) : Int := w.insurance.unwoundOnDay (w.timestamp / Insurance.DAY)

/-- The band and the caps that a fill of the backstop is held to. -/
structure Insurance.Takes (w : World) (index size price : Int) : Prop where
  enabled : w.insurance.maxUnwindDeviationBps ≠ 0
  band : |price - index| ≤ (index * w.insurance.maxUnwindDeviationBps).tdiv M.BPS_DENOMINATOR
  fill : notionalOf size price ≤ w.insurance.maxUnwindFillNotional
  daily : Insurance.unwoundToday w + notionalOf size price ≤ w.insurance.maxUnwindDailyNotional

/-- **The hook takes a fill exactly when it is in the band and under both caps**, and then counts it. -/
theorem onBackstopFill_iff {marketId : MarketId} {index : Int} {size price : Nat}
    (hv : Insurance.ValidLimits w.insurance) (hindex : Engine.indexPrice w marketId = .ok index)
    (hsize : (size : Int) ≤ I128_MAX) (hprice : (price : Int) ≤ I128_MAX) :
    Insurance.onBackstopFill D w D.insuranceGateway marketId size price = .ok w' ↔
      Insurance.Takes w index size price ∧
        w' = withUnwound w (Insurance.unwoundToday w + notionalOf size price) := by
  constructor
  · intro h
    have henabled : w.insurance.maxUnwindDeviationBps ≠ 0 := by
      simp only [Insurance.onBackstopFill, bind_ok_iff, revertIf_ok, exists_const] at h
      exact h.2.1
    obtain ⟨_, band, notional, hi, hband, hdev, hn, hfill, hdaily, hw⟩ := onBackstopFill_ok h
    obtain rfl := ok_unique hindex hi
    obtain ⟨-, rfl⟩ := (M.applyBps_ok _ _ _).1 hband
    obtain ⟨-, rfl⟩ := (M.mulPrecision_ok _ _ _).1 hn
    exact ⟨⟨henabled, hdev, hfill, hdaily⟩, hw⟩
  · rintro ⟨⟨henabled, hband, hfill, hdaily⟩, rfl⟩
    have hpos : 0 < index := indexPrice_pos hindex
    have hrange := indexPrice_inRange hindex
    have hbps : (w.insurance.maxUnwindDeviationBps : Int) ≤ 500 := Int.ofNat_le.2 hv.deviation
    have hbandRange : M.InRange ((index * w.insurance.maxUnwindDeviationBps).tdiv M.BPS_DENOMINATOR) := by
      have hle : (index * w.insurance.maxUnwindDeviationBps).tdiv M.BPS_DENOMINATOR ≤ index := by
        rw [Int.tdiv_eq_ediv_of_nonneg (by positivity)]
        refine Int.ediv_le_of_le_mul (by decide) (mul_le_mul_of_nonneg_left ?_ hpos.le)
        exact hbps.trans (by decide)
      have hnonneg : 0 ≤ (index * w.insurance.maxUnwindDeviationBps).tdiv M.BPS_DENOMINATOR :=
        Int.tdiv_nonneg (by positivity) (by decide)
      unfold M.InRange at hrange ⊢
      exact ⟨(show I128_MIN ≤ 0 by decide).trans hnonneg, hle.trans hrange.2⟩
    have hnotional : 0 ≤ notionalOf size price := Int.tdiv_nonneg (by positivity) (by decide)
    have hnotionalRange : M.InRange (notionalOf size price) := by
      have hcap : notionalOf size price ≤ Insurance.MAX_UNWIND_FILL_NOTIONAL := hfill.trans hv.fill.2
      exact ⟨(show I128_MIN ≤ 0 by decide).trans hnotional, hcap.trans (by decide)⟩
    have hnat : ∀ {n : Nat}, (n : Int) ≤ I128_MAX → M.InRange n := fun h =>
      ⟨(show I128_MIN ≤ 0 by decide).trans (Int.natCast_nonneg _), h⟩
    simp only [Insurance.onBackstopFill, bind_ok_iff, revertIf_ok, M.toInt_ok, pure_ok, exists_const, not_lt, gt_iff_lt,
      M.abs_eq, M.applyBps_ok, M.mulPrecision_ok]
    exact ⟨fun h => h rfl, henabled, _, ⟨hprice, rfl⟩, index, hindex, _, ⟨⟨hbps.trans (by decide), hrange, hbandRange⟩, rfl⟩,
      hband, _, ⟨hsize, rfl⟩, _, ⟨⟨hnat hsize, hnat hprice, hnotionalRange⟩, rfl⟩, hfill, hdaily, rfl⟩

/-! ## The filter -/

namespace Matcher

variable {marketId : MarketId} {index used : Int} {limits : BackstopLimits} {m : EngineMatch} {ms : List EngineMatch}
  {settle : EngineMatch → World → World}

/-- A match of a market, its size and its price in the range the intake holds orders to. -/
structure Offered (marketId : MarketId) (m : EngineMatch) : Prop where
  market : m.maker.marketId = marketId
  size : 0 ≤ m.size ∧ m.size ≤ I128_MAX
  price : 0 ≤ m.price ∧ m.price ≤ I128_MAX
  notional : m.notional = notionalOf m.size m.price

/-- The same index, limits and day. -/
structure SameDay (marketId : MarketId) (w w' : World) : Prop where
  limits : SameLimits w.insurance w'.insurance
  index : Engine.indexPrice w' marketId = Engine.indexPrice w marketId
  unwound : Insurance.unwoundToday w' = Insurance.unwoundToday w

theorem Frames.sameDay (h : Frames w w') : SameDay marketId w w' where
  limits := h.sameLimits
  index := by simp only [Engine.indexPrice, Engine.indexOf, RiskParams.market, OracleAdapter.getPrice, h.risk, h.oracle,
    h.timestamp]
  unwound := by
    have hdays : w'.insurance.unwoundOnDay = w.insurance.unwoundOnDay := congrArg (·.unwoundOnDay) h.insurance
    rw [Insurance.unwoundToday, Insurance.unwoundToday, hdays, h.timestamp]

theorem SameDay.trans {w₁ w₂ w₃ : World} (h : SameDay marketId w₁ w₂) (h' : SameDay marketId w₂ w₃) :
    SameDay marketId w₁ w₃ := ⟨h.limits.trans h'.limits, h'.index.trans h.index, h'.unwound.trans h.unwound⟩

theorem consume_sameDay {wallet : Address → Bytes32 → Bytes → Bool} {o : Order} {digest : Bytes32} {signature : Bytes}
    {size price : Nat} (h : OrderGateway.consume D env w msg wallet o digest signature size price = .ok w') :
    SameDay marketId w w' := by
  obtain ⟨-, hw⟩ := consume_ok h
  rw [hw]
  exact ⟨⟨rfl, rfl, rfl⟩, rfl, rfl⟩

/-- **A settled fill of the backstop is the hook**: nothing before it and nothing after it moves what it reads. -/
theorem settleOne_sameDay (hback : D.backstop = D.insurance) {wallet : Address → Bytes32 → Bytes → Bool} {f : Fill}
    {st : OrderGateway.Settlement} (hside : f.maker.owner = D.insurance ∨ f.taker.owner = D.insurance)
    (h : OrderGateway.settleOne D env w msg wallet f = .ok (w', st)) :
    ∃ w₁ w₂, SameDay marketId w w₁ ∧
      Insurance.onBackstopFill D w₁ D.gateway f.maker.marketId f.size f.price = .ok w₂ ∧ SameDay marketId w₂ w' := by
  obtain ⟨w₁, w₂, w₃, hs⟩ := settleOne_ok h
  have hconsumed : SameDay marketId w w₂ := (consume_sameDay hs.maker).trans (consume_sameDay hs.taker)
  exact ⟨w₂, w₃, hconsumed, backstopHook_ok hback hside hs.hook,
    Frames.sameDay (apply_clears hs.market hs.opposite hs.applied).1.toFrames⟩

theorem matchOrders_offered (input : EngineInput) (hrange : ∀ o ∈ input.orders,
      0 ≤ o.filledSize ∧ o.size ≤ I128_MAX ∧ 0 ≤ o.limitPrice ∧ o.limitPrice ≤ I128_MAX) :
    ∀ m ∈ (matchOrders input).matches_, Offered input.marketId m := by
  intro m hm
  obtain ⟨hfair, hfilled, -⟩ := Matching.matches_safe input
  have h := hfair m hm
  obtain ⟨hpart, hsize, hprice⟩ := hrange m.maker h.maker.mem
  have hfills : m.size ≤ m.fills m.maker := by
    have := h.size
    unfold EngineMatch.fills
    rw [if_pos rfl]
    split_ifs <;> omega
  have hone : m.fills m.maker ≤ Matching.matchedSize m.maker (matchOrders input).matches_ := by
    refine List.single_le_sum (fun x hx => ?_) _ (List.mem_map_of_mem hm)
    obtain ⟨n, hn, rfl⟩ := List.mem_map.1 hx
    have := (hfair n hn).size
    unfold EngineMatch.fills
    split_ifs <;> omega
  have hpos := h.size
  refine ⟨h.maker.market, ⟨hpos.le, ?_⟩, h.price ▸ hprice, h.notional.1⟩
  rcases hfilled m.maker with hnone | hle
  · omega
  · omega

/-- What the matcher reads of Insurance: what is left of the day's cap, or as its tick takes it, zero where that is
negative, which is the same for a fill of a positive notional. -/
structure ReadsLimits (w : World) (limits : BackstopLimits) (ms : List EngineMatch) : Prop where
  deviation : limits.maxDeviationBps = w.insurance.maxUnwindDeviationBps
  fill : limits.maxFillNotional = w.insurance.maxUnwindFillNotional
  daily : limits.dailyRemaining = w.insurance.maxUnwindDailyNotional - Insurance.unwoundToday w ∨
    (limits.dailyRemaining = max (w.insurance.maxUnwindDailyNotional - Insurance.unwoundToday w) 0 ∧
      ∀ m ∈ ms, 0 < m.notional)

/-- The fills of the list that the chain takes, executed in order: a fill of the backstop runs the hook, and `settle` is
all else that a taken fill does. -/
def takenFills (D : Deployment) (settle : EngineMatch → World → World) : World → List EngineMatch → List EngineMatch
  | _, [] => []
  | w, m :: ms =>
    if isBackstopMatch m D.insurance = false then m :: takenFills D settle (settle m w) ms
    else
      match Insurance.onBackstopFill D w D.insuranceGateway m.maker.marketId m.size.toNat m.price.toNat with
      | .ok w' => m :: takenFills D settle (settle m w') ms
      | .error _ => takenFills D settle w ms

/-- The filter's counter keeps up with the chain's. -/
structure Tracks (marketId : MarketId) (w : World) (index : Int) (limits : BackstopLimits) (used : Int)
    (ms : List EngineMatch) : Prop where
  valid : Insurance.ValidLimits w.insurance
  index : Engine.indexPrice w marketId = .ok index
  deviation : limits.maxDeviationBps = w.insurance.maxUnwindDeviationBps
  fill : limits.maxFillNotional = w.insurance.maxUnwindFillNotional
  left : limits.dailyRemaining - used = w.insurance.maxUnwindDailyNotional - Insurance.unwoundToday w ∨
    (limits.dailyRemaining ≤ used ∧ w.insurance.maxUnwindDailyNotional ≤ Insurance.unwoundToday w ∧
      ∀ m ∈ ms, 0 < m.notional)

theorem ReadsLimits.tracks (hv : Insurance.ValidLimits w.insurance) (hindex : Engine.indexPrice w marketId = .ok index)
    (hr : ReadsLimits w limits ms) : Tracks marketId w index limits 0 ms := by
  refine ⟨hv, hindex, hr.deviation, hr.fill, ?_⟩
  rcases hr.daily with hdaily | ⟨hdaily, hpos⟩
  · exact Or.inl (by omega)
  · rcases le_total 0 (w.insurance.maxUnwindDailyNotional - Insurance.unwoundToday w) with hle | hle
    · rw [max_eq_left hle] at hdaily
      exact Or.inl (by omega)
    · rw [max_eq_right hle] at hdaily
      exact Or.inr ⟨hdaily.le, by omega, hpos⟩

theorem Tracks.tail (h : Tracks marketId w index limits used (m :: ms)) : Tracks marketId w index limits used ms :=
  ⟨h.valid, h.index, h.deviation, h.fill, h.left.imp_right fun hl =>
    ⟨hl.1, hl.2.1, fun n hn => hl.2.2 n (List.mem_cons_of_mem m hn)⟩⟩

theorem Tracks.sameDay (h : Tracks marketId w index limits used ms) (hs : SameDay marketId w w') :
    Tracks marketId w' index limits used ms := by
  refine ⟨hs.limits.valid h.valid, hs.index.trans h.index, ?_, ?_, ?_⟩
  · rw [hs.limits.deviation]
    exact h.deviation
  · rw [hs.limits.fill]
    exact h.fill
  · rw [hs.limits.daily, hs.unwound]
    exact h.left

theorem withinBand_iff (price index : Int) (bps : Nat) : withinBand price (bandFor index bps) = true ↔
    |price - index| ≤ (index * bps).tdiv M.BPS_DENOMINATOR := by
  rw [withinBand, Bool.and_eq_true, decide_eq_true_eq, decide_eq_true_eq, abs_le]
  show index - _ ≤ price ∧ price ≤ index + _ ↔ _
  omega

theorem dropReason_eq_none : dropReason index limits used m = none ↔ limits.maxDeviationBps ≠ 0 ∧
    withinBand m.price (bandFor index limits.maxDeviationBps) = true ∧ m.notional ≤ limits.maxFillNotional ∧
    used + m.notional ≤ limits.dailyRemaining := by
  unfold dropReason
  split_ifs with hdisabled hband hfill hover <;> simp_all

/-- **The filter keeps a fill of the backstop exactly when the hook takes it.** -/
theorem Tracks.dropReason_none (h : Tracks marketId w index limits used ms) (hm : m ∈ ms) (ho : Offered marketId m) :
    dropReason index limits used m = none ↔ Insurance.Takes w index m.size m.price := by
  have hdaily : used + m.notional ≤ limits.dailyRemaining ↔
      Insurance.unwoundToday w + m.notional ≤ w.insurance.maxUnwindDailyNotional := by
    rcases h.left with hleft | ⟨hused, hunwound, hpos⟩
    · omega
    · have := hpos m hm
      omega
  rw [dropReason_eq_none, withinBand_iff, hdaily, h.deviation, h.fill, ho.notional]
  exact ⟨fun ⟨he, hb, hf, hd⟩ => ⟨he, hb, hf, hd⟩, fun ht => ⟨ht.enabled, ht.band, ht.fill, ht.daily⟩⟩

theorem Tracks.take (h : Tracks marketId w index limits used (m :: ms))
    (ht : Insurance.Takes w index m.size m.price) (ho : Offered marketId m) :
    Tracks marketId (withUnwound w (Insurance.unwoundToday w + notionalOf m.size m.price)) index limits
      (used + m.notional) ms := by
  have hday : Insurance.unwoundToday (withUnwound w (Insurance.unwoundToday w + notionalOf m.size m.price)) =
      Insurance.unwoundToday w + m.notional := by
    rw [ho.notional]
    exact Function.update_self _ _ _
  have hcap := ht.daily
  rw [← ho.notional] at hcap
  refine ⟨⟨h.valid.deviation, h.valid.fill, h.valid.daily⟩, h.index, h.deviation, h.fill, Or.inl ?_⟩
  rw [hday]
  show limits.dailyRemaining - (used + m.notional) = w.insurance.maxUnwindDailyNotional - _
  rcases h.left with hleft | ⟨-, hunwound, hpos⟩
  · omega
  · have := hpos m List.mem_cons_self
    omega

theorem foldl_takenFills (hs : ∀ m w, SameDay marketId w (settle m w)) :
    ∀ (ms kept : List EngineMatch) (w : World) (used : Int), Tracks marketId w index limits used ms →
      (∀ m ∈ ms, Offered marketId m) →
      (ms.foldl (filterBackstopFill D.insurance index limits) (kept, used)).1 = kept ++ takenFills D settle w ms
  | [], kept, _, _, _, _ => (List.append_nil kept).symm
  | m :: ms, kept, w, used, h, hms => by
    have ho : Offered marketId m := hms m List.mem_cons_self
    have hrest : ∀ n ∈ ms, Offered marketId n := fun n hn => hms n (List.mem_cons_of_mem m hn)
    rw [List.foldl_cons, takenFills, filterBackstopFill]
    by_cases hordinary : isBackstopMatch m D.insurance = false
    · rw [if_pos hordinary, if_pos hordinary,
        foldl_takenFills hs ms (kept ++ [m]) (settle m w) used (h.tail.sameDay (hs m w)) hrest, List.append_assoc]
      rfl
    · rw [if_neg hordinary, if_neg hordinary, ho.market]
      have hhook : ∀ w', Insurance.onBackstopFill D w D.insuranceGateway marketId m.size.toNat m.price.toNat = .ok w' ↔
          Insurance.Takes w index m.size.toNat m.price.toNat ∧
            w' = withUnwound w (Insurance.unwoundToday w + notionalOf m.size.toNat m.price.toNat) := fun w' =>
        onBackstopFill_iff h.valid h.index (by rw [Int.toNat_of_nonneg ho.size.1]; exact ho.size.2)
          (by rw [Int.toNat_of_nonneg ho.price.1]; exact ho.price.2)
      simp only [Int.toNat_of_nonneg ho.size.1, Int.toNat_of_nonneg ho.price.1] at hhook
      have hreason := h.dropReason_none List.mem_cons_self ho
      by_cases ht : Insurance.Takes w index m.size m.price
      · rw [hreason.2 ht, if_neg (by simp), (hhook _).2 ⟨ht, rfl⟩,
          foldl_takenFills hs ms (kept ++ [m]) _ _ ((h.take ht ho).sameDay (hs m _)) hrest, List.append_assoc]
        rfl
      · have hdropped : (dropReason index limits used m).isSome = true :=
          Option.isSome_iff_ne_none.2 fun hnone => ht (hreason.1 hnone)
        rw [if_pos hdropped]
        split
        · rename_i w' hok
          exact absurd ((hhook w').1 hok).1 ht
        · exact foldl_takenFills hs ms kept w used h.tail hrest

theorem takenFills_ordinary (w : World) : (takenFills D settle w ms).filter (fun m => !isBackstopMatch m D.insurance) =
    ms.filter fun m => !isBackstopMatch m D.insurance := by
  induction ms generalizing w with
  | nil => rfl
  | cons m ms ih =>
    rw [takenFills]
    split_ifs with hordinary
    · rw [List.filter_cons_of_pos (by simp [hordinary]), List.filter_cons_of_pos (by simp [hordinary]), ih]
    · have hdrop : ¬ (!isBackstopMatch m D.insurance) = true := by simpa using hordinary
      have hskip : ∀ ns, (m :: ns).filter (fun m => !isBackstopMatch m D.insurance) =
          ns.filter fun m => !isBackstopMatch m D.insurance := fun ns => List.filter_cons_of_neg hdrop
      split
      · rw [hskip, hskip, ih]
      · rw [hskip, ih]

/-- **The filter keeps exactly the fills that the chain takes when the kept are executed in order**, and every match that
is not the backstop's. -/
theorem backstop_filter_exact (hv : Insurance.ValidLimits w.insurance)
    (hindex : Engine.indexPrice w marketId = .ok index) (hr : ReadsLimits w limits ms)
    (hms : ∀ m ∈ ms, Offered marketId m) (hs : ∀ m w, SameDay marketId w (settle m w)) :
    filterBackstopFills ms D.insurance index limits = takenFills D settle w ms ∧
      (filterBackstopFills ms D.insurance index limits).filter (fun m => !isBackstopMatch m D.insurance) =
        ms.filter fun m => !isBackstopMatch m D.insurance := by
  have htaken : filterBackstopFills ms D.insurance index limits = takenFills D settle w ms :=
    foldl_takenFills hs ms [] w 0 (hr.tracks hv hindex) hms
  exact ⟨htaken, htaken ▸ takenFills_ordinary w⟩

/-- Alice's ask and Bob's bid, and the backstop's ask within the band and outside it. -/
def Sample.offers : List EngineMatch :=
  let bid : EngineOrder := { Matching.Sample.market with owner := Kryon.Sample.bob }
  let ask : EngineOrder := { Matching.Sample.market with owner := Kryon.Sample.alice, isLong := false }
  let quote : EngineOrder := { ask with owner := Kryon.Sample.deployment.insurance }
  [⟨ask, bid, 10 ^ 18, 90 * 10 ^ 18, 90 * 10 ^ 18, 0⟩, ⟨quote, bid, 10 ^ 18, 90 * 10 ^ 18, 90 * 10 ^ 18, 0⟩,
    ⟨quote, bid, 10 ^ 18, 60 * 10 ^ 18, 60 * 10 ^ 18, 0⟩]

theorem backstop_filter_exact_unwinding :
    let w := Kryon.Sample.outcome Kryon.Sample.unwinding
    filterBackstopFills Sample.offers Kryon.Sample.deployment.insurance (90 * 10 ^ 18)
        ⟨500, 10 ^ 6 * 10 ^ 18, (10 ^ 7 - 360) * 10 ^ 18⟩ =
      takenFills Kryon.Sample.deployment (fun _ w => w) w Sample.offers ∧
    takenFills Kryon.Sample.deployment (fun _ w => w) w Sample.offers = Sample.offers.take 2 := by
  intro w
  refine ⟨?_, by decide +kernel⟩
  exact (backstop_filter_exact (reachable_limits (Kryon.Sample.outcome_reachable _))
    (show Engine.indexPrice w 1 = .ok (90 * 10 ^ 18) by decide +kernel)
    ⟨by decide +kernel, by decide +kernel, Or.inl (by decide +kernel)⟩
    (by
      intro m hm
      simp only [Sample.offers, List.mem_cons, List.not_mem_nil, or_false] at hm
      rcases hm with rfl | rfl | rfl <;> exact ⟨rfl, by decide, by decide, by decide⟩)
    fun _ w => ⟨.refl _, rfl, rfl⟩).1

end Matcher

end Kryon
