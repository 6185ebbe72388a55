import Kryon.Effects
/-!
# Validity — what every reachable configuration satisfies

Each setter checks its own bounds and nothing else writes a configuration, so every reachable world's fee schedule, market
parameters and liquidation parameters are within the bounds their setters check, and the wiring roles are held by the
contracts they were granted to.
-/
namespace Kryon

open Program Transition
open OrderGateway (Settled)

variable {D : Deployment} {env : Env} {w w' : World} {msg : Msg} {l : Label}

/-! ## Bounds -/

structure FeeRouter.ValidRates (r : Rates) : Prop where
  taker : 0 ≤ r.takerRate ∧ r.takerRate ≤ FeeRouter.MAX_TAKER_RATE
  maker : FeeRouter.MIN_MAKER_RATE ≤ r.makerRate ∧ r.makerRate ≤ FeeRouter.MAX_MAKER_RATE

/-- The bounds of the fee schedule and its splits. -/
structure FeeRouter.Valid (s : FeeRouterStorage) : Prop where
  marketRates : ∀ m, (s.marketRates m).set = true → FeeRouter.ValidRates (s.marketRates m)
  tiers : ∀ t, (s.tiers t).set = true → FeeRouter.ValidRates (s.tiers t)
  minNetRate : FeeRouter.MIN_NET_RATE_FLOOR ≤ s.minNetRate ∧ s.minNetRate ≤ FeeRouter.MAX_NET_RATE_FLOOR
  split : s.split.treasuryBps + s.split.insuranceBps + s.split.referralBps = 10000
  splitShares : FeeRouter.MIN_INSURANCE_SHARE_BPS ≤ s.split.insuranceBps ∧
    s.split.referralBps ≤ FeeRouter.MAX_REFERRAL_SHARE_BPS
  liquidationSplit : FeeRouter.MIN_INSURANCE_SHARE_BPS ≤ s.liquidationInsuranceBps ∧
    s.liquidationInsuranceBps ≤ FeeRouter.MAX_LIQ_INSURANCE_SHARE_BPS

/-- The bounds of a market's margin and penalty. -/
structure RiskParams.ValidMarket (p : MarketParams) : Prop where
  initialMargin : RiskParams.MIN_INITIAL_MARGIN_BPS ≤ p.initialMarginBps ∧
    p.initialMarginBps ≤ RiskParams.MAX_INITIAL_MARGIN_BPS
  maintenanceMargin : RiskParams.MIN_MAINTENANCE_MARGIN_BPS ≤ p.maintenanceMarginBps ∧
    p.maintenanceMarginBps ≤ p.initialMarginBps
  liquidationFee : p.liquidationFeeBps ≤ RiskParams.MAX_LIQUIDATION_FEE_BPS ∧
    p.liquidationFeeBps ≤ p.maintenanceMarginBps
  executionDeviation : p.maxExecutionDeviationBps ≤ RiskParams.MAX_EXECUTION_DEVIATION_BPS

structure Liquidation.Valid (s : LiquidationStorage) : Prop where
  reward : 0 < s.maxRewardBps ∧ s.maxRewardBps ≤ Liquidation.MAX_REWARD_BPS_CAP
  partialBps : Liquidation.MIN_PARTIAL_BPS ≤ s.partialLiquidationBps ∧ s.partialLiquidationBps ≤ 10000

/-- The roles the wiring rests on are held by the contracts it names. -/
structure Wired (D : Deployment) (w : World) : Prop where
  ledger : ∀ a, w.hasRole .vault .ledger a = true ↔
    a = D.engine ∨ a = D.feeRouter ∨ a = D.liquidation ∨ a = D.insurance
  feeSource : ∀ a, w.hasRole .feeRouter .feeSource a = true ↔ a = D.gateway ∨ a = D.liquidation

structure Valid (D : Deployment) (w : World) : Prop where
  feeRouter : FeeRouter.Valid w.feeRouter
  markets : ∀ m, (w.risk.markets m).listed = true → RiskParams.ValidMarket (w.risk.markets m)
  liquidation : Liquidation.Valid w.liquidation
  wired : Wired D w

theorem genesis_valid (h : Genesis D w) : Valid D w := by
  obtain ⟨-, hm, ht, -, hn, -, -, hs, hl, -⟩ := h.feeRouter
  refine ⟨⟨?_, ?_, ?_, ?_, ?_, ?_⟩, ?_, ?_, ⟨h.ledger, h.feeSource⟩⟩
  · intro m hset
    rw [hm m] at hset
    exact absurd hset (by decide)
  · intro t hset
    rw [ht t] at hset
    exact absurd hset (by decide)
  · rw [hn]
    decide
  · simp only [hs]
  · rw [hs]
    decide
  · rw [hl]
    decide
  · intro m hlisted
    rw [h.risk.1 m] at hlisted
    exact absurd hlisted (by decide)
  · obtain ⟨h1, h2, h3, h4⟩ := h.liquidation
    exact ⟨⟨h1, h2⟩, ⟨h3, h4⟩⟩

/-! ## What leaves the configurations alone -/

/-- The roles and the configurations are the same. -/
structure SameConfig (w w' : World) : Prop where
  roles : w'.roles = w.roles
  risk : w'.risk = w.risk
  liquidation : w'.liquidation = w.liquidation
  feeRouter : w'.feeRouter = { w.feeRouter with
    treasuryAccrued := w'.feeRouter.treasuryAccrued
    referralAccrued := w'.feeRouter.referralAccrued
    totalReferralAccrued := w'.feeRouter.totalReferralAccrued }

theorem SameConfig.refl (w : World) : SameConfig w w := ⟨rfl, rfl, rfl, rfl⟩

theorem SameConfig.trans {w₁ w₂ w₃ : World} (h : SameConfig w₁ w₂) (h' : SameConfig w₂ w₃) : SameConfig w₁ w₃ :=
  ⟨h'.roles.trans h.roles, h'.risk.trans h.risk, h'.liquidation.trans h.liquidation, by rw [h'.feeRouter, h.feeRouter]⟩

theorem Charges.sameConfig (h : Charges w w') : SameConfig w w' := ⟨h.roles, h.risk, h.liquidation, h.feeRouter⟩

theorem chain_sameConfig {settled : List Settled} (h : Chain D env msg w settled w') : SameConfig w w' := by
  refine h.relates SameConfig SameConfig.refl (fun _ _ _ => SameConfig.trans) ?_
  intro w wallet f w' st hone
  obtain ⟨orderState, unwound, hc⟩ := settleOne_charges hone
  have hsame : SameConfig w (withProgress w orderState unwound) := ⟨rfl, rfl, rfl, rfl⟩
  exact hsame.trans hc.sameConfig

theorem FeeRouter.Valid.frame {s s' : FeeRouterStorage} (h : s' = { s with
      treasuryAccrued := s'.treasuryAccrued
      referralAccrued := s'.referralAccrued
      totalReferralAccrued := s'.totalReferralAccrued }) (hv : FeeRouter.Valid s) : FeeRouter.Valid s' := by
  rw [h]
  exact ⟨hv.marketRates, hv.tiers, hv.minNetRate, hv.split, hv.splitShares, hv.liquidationSplit⟩

theorem SameConfig.valid (h : SameConfig w w') (hv : Valid D w) : Valid D w' := by
  obtain ⟨hf, hm, hl, ⟨hledger, hsource⟩⟩ := hv
  refine ⟨?_, ?_, ?_, ⟨?_, ?_⟩⟩
  · exact hf.frame h.feeRouter
  · rw [h.risk]
    exact hm
  · rw [h.liquidation]
    exact hl
  · simp only [World.hasRole, h.roles]
    exact hledger
  · simp only [World.hasRole, h.roles]
    exact hsource

/-! ## What the setters check -/

theorem checkRates_ok {s : FeeRouterStorage} {makerRate takerRate : Int} {u : Unit}
    (h : FeeRouter.checkRates s makerRate takerRate = .ok u) :
    FeeRouter.ValidRates ⟨makerRate, takerRate, true⟩ := by
  simp only [FeeRouter.checkRates, bind_ok_iff, revertIf_ok, exists_const, not_or, not_lt, gt_iff_lt] at h
  exact ⟨h.1, h.2.1⟩

theorem checkBounds_ok {name : String} {value lo hi : Int} {u : Unit}
    (h : RiskParams.checkBounds name value lo hi = .ok u) : lo ≤ value ∧ value ≤ hi := by
  simpa only [RiskParams.checkBounds, revertIf_ok, not_or, not_lt, gt_iff_lt] using h

theorem validateMarket_ok {p : MarketParams} {u : Unit} (h : RiskParams.validateMarket p = .ok u) :
    RiskParams.ValidMarket p := by
  simp only [RiskParams.validateMarket, bind_ok_iff, revertIf_ok, exists_const, not_or, not_lt, gt_iff_lt] at h
  obtain ⟨-, _, him, _, hmm, hfee, _, hdev, -⟩ := h
  have him := checkBounds_ok him
  have hmm := checkBounds_ok hmm
  have hdev := checkBounds_ok hdev
  exact ⟨by omega, by omega, hfee, by omega⟩

theorem update_listed {f : MarketId → MarketParams} {P : MarketParams → Prop} {m : MarketId} {p : MarketParams}
    (hf : ∀ n, (f n).listed = true → P (f n)) (hp : P p) (n : MarketId)
    (hn : (Function.update f m p n).listed = true) : P (Function.update f m p n) := by
  by_cases h : n = m
  · rw [h, Function.update_self]
    exact hp
  · rw [Function.update_of_ne h] at hn ⊢
    exact hf n hn

theorem update_set {κ : Type} [DecidableEq κ] {f : κ → Rates} {k : κ} {r : Rates}
    (hf : ∀ k, (f k).set = true → FeeRouter.ValidRates (f k)) (hr : FeeRouter.ValidRates r) (k' : κ)
    (hk : (Function.update f k r k').set = true) : FeeRouter.ValidRates (Function.update f k r k') := by
  by_cases h : k' = k
  · rw [h, Function.update_self]
    exact hr
  · rw [Function.update_of_ne h] at hk ⊢
    exact hf k' hk

theorem setRole_hasRole {c c' : Contract} {r r' : Role} {a a' : Address} {held : Bool}
    (h : ¬ (c = c' ∧ r = r' ∧ a' = a)) :
    (KryonUpgradeable.setRole w c r a held).hasRole c' r' a' = w.hasRole c' r' a' := by
  simp only [World.hasRole, KryonUpgradeable.setRole]
  by_cases hc : c' = c
  · subst hc
    rw [Function.update_self]
    by_cases hr : r' = r
    · subst hr
      rw [Function.update_self, Function.update_of_ne fun ha => h ⟨rfl, rfl, ha⟩]
    · rw [Function.update_of_ne hr]
  · rw [Function.update_of_ne hc]

/-- A role outside the wiring changes hands. -/
theorem setRole_wired {c : Contract} {r : Role} {a : Address} {held : Bool} (hv : Wired D w)
    (h : ¬ Role.isWiring c r) : Wired D (KryonUpgradeable.setRole w c r a held) := by
  refine ⟨fun b => ?_, fun b => ?_⟩
  · rw [setRole_hasRole fun hb => h (Or.inl ⟨hb.1, hb.2.1⟩)]
    exact hv.ledger b
  · rw [setRole_hasRole fun hb => h (Or.inr ⟨hb.1, hb.2.1⟩)]
    exact hv.feeSource b

/-- An account that is no protocol contract holds no wiring role to renounce. -/
theorem renounceRole_wired {c : Contract} {r : Role} {a : Address} (hv : Wired D w) (ha : ∀ c, a ≠ D.address c) :
    Wired D (KryonUpgradeable.setRole w c r a false) := by
  have hledger : w.hasRole .vault .ledger a ≠ true := fun h => by
    rcases (hv.ledger a).1 h with h | h | h | h
    · exact ha _ h
    · exact ha _ h
    · exact ha _ h
    · exact ha _ h
  have hsource : w.hasRole .feeRouter .feeSource a ≠ true := fun h => by
    rcases (hv.feeSource a).1 h with h | h
    · exact ha _ h
    · exact ha _ h
  have hself : ∀ c' r', (KryonUpgradeable.setRole w c r a false).hasRole c' r' a = true → w.hasRole c' r' a = true := by
    intro c' r' h
    by_cases hcr : c = c' ∧ r = r'
    · obtain ⟨rfl, rfl⟩ := hcr
      simp [World.hasRole, KryonUpgradeable.setRole] at h
    · rwa [setRole_hasRole fun hb => hcr ⟨hb.1, hb.2.1⟩] at h
  refine ⟨fun b => ?_, fun b => ?_⟩
  · by_cases hb : b = a
    · subst hb
      rw [← hv.ledger]
      exact iff_of_false (fun h => hledger (hself _ _ h)) hledger
    · rw [setRole_hasRole fun h => hb h.2.2]
      exact hv.ledger b
  · by_cases hb : b = a
    · subst hb
      rw [← hv.feeSource]
      exact iff_of_false (fun h => hsource (hself _ _ h)) hsource
    · rw [setRole_hasRole fun h => hb h.2.2]
      exact hv.feeSource b

/-! ## Runs -/

/-- A configuration call that leaves roles, market parameters, fees and liquidation parameters alone. -/
theorem valid_of_eq (hv : Valid D w) (hr : w'.roles = w.roles) (hk : w'.risk = w.risk)
    (hl : w'.liquidation = w.liquidation) (hf : w'.feeRouter = w.feeRouter) : Valid D w' :=
  SameConfig.valid ⟨hr, hk, hl, by rw [hf]⟩ hv

/-- A call that only rewrites the fee schedule, within its bounds. -/
theorem valid_of_fees {s : FeeRouterStorage} (hs : FeeRouter.Valid s) (hv : Valid D w) :
    Valid D { w with feeRouter := s } := ⟨hs, hv.markets, hv.liquidation, hv.wired.ledger, hv.wired.feeSource⟩

/-- A call that only rewrites the market parameters, within their bounds. -/
theorem valid_of_risk {s : RiskParamsStorage}
    (hs : ∀ m, (s.markets m).listed = true → RiskParams.ValidMarket (s.markets m)) (hv : Valid D w) :
    Valid D { w with risk := s } := ⟨hv.feeRouter, hs, hv.liquidation, hv.wired.ledger, hv.wired.feeSource⟩

/-- A call that only changes the roles of the oracle. -/
theorem valid_of_oracleRoles {roles : Role → Address → Bool} {s : OracleStorage} (hv : Valid D w) :
    Valid D { w with roles := Function.update w.roles .oracle roles, oracle := s } := by
  have hrole : ∀ c, c ≠ .oracle → Function.update w.roles .oracle roles c = w.roles c := fun c hc =>
    Function.update_of_ne hc _ _
  refine ⟨hv.feeRouter, hv.markets, hv.liquidation, fun a => ?_, fun a => ?_⟩
  · simp only [World.hasRole, hrole .vault (by decide)]
    exact hv.wired.ledger a
  · simp only [World.hasRole, hrole .feeRouter (by decide)]
    exact hv.wired.feeSource a

/-- **Every configuration call keeps the configurations valid.** -/
theorem execConfig_valid {c : Config} (hs : ∀ c, msg.sender ≠ D.address c) (hw : Tx.keepsWiring (.config c) = true)
    (hv : Valid D w) (h : execConfig D w msg c = .ok w') : Valid D w' := by
  have hf := hv.feeRouter
  cases c with
  | pause c =>
    simp only [execConfig, KryonUpgradeable.pause, bind_ok_iff, pure_ok] at h
    obtain ⟨_, -, _, -, _, -, rfl⟩ := h
    exact valid_of_eq hv rfl rfl rfl rfl
  | pauseIndefinitely c =>
    simp only [execConfig, KryonUpgradeable.pauseIndefinitely, bind_ok_iff, pure_ok] at h
    obtain ⟨_, -, _, -, rfl⟩ := h
    exact valid_of_eq hv rfl rfl rfl rfl
  | unpause c =>
    simp only [execConfig, KryonUpgradeable.unpause, bind_ok_iff, pure_ok] at h
    obtain ⟨_, -, _, -, rfl⟩ := h
    exact valid_of_eq hv rfl rfl rfl rfl
  | changeRole c r account held =>
    simp only [execConfig, KryonUpgradeable.changeRole, bind_ok_iff, pure_ok] at h
    obtain ⟨_, -, rfl⟩ := h
    exact ⟨hf, hv.markets, hv.liquidation, setRole_wired hv.wired (of_decide_eq_true hw)⟩
  | renounceRole c r =>
    simp only [execConfig, KryonUpgradeable.renounceRole, pure_ok] at h
    subst h
    exact ⟨hf, hv.markets, hv.liquidation, renounceRole_wired hv.wired hs⟩
  | setDepositCaps total perAccount =>
    simp only [execConfig, Vault.setDepositCaps, bind_ok_iff, pure_ok] at h
    obtain ⟨_, -, rfl⟩ := h
    exact valid_of_eq hv rfl rfl rfl rfl
  | setCapExempt account exempt =>
    simp only [execConfig, Vault.setCapExempt, bind_ok_iff, pure_ok] at h
    obtain ⟨_, -, rfl⟩ := h
    exact valid_of_eq hv rfl rfl rfl rfl
  | setCollateral token active =>
    simp only [execConfig, Vault.setCollateral, bind_ok_iff, pure_ok] at h
    obtain ⟨_, -, _, -, rfl⟩ := h
    exact valid_of_eq hv rfl rfl rfl rfl
  | setMarket marketId params =>
    simp only [execConfig, RiskParams.setMarket, bind_ok_iff, pure_ok] at h
    obtain ⟨_, -, _, -, _, hvalid, _, -, rfl⟩ := h
    have hp := validateMarket_ok hvalid
    exact valid_of_risk (update_listed hv.markets ⟨hp.initialMargin, hp.maintenanceMargin, hp.liquidationFee,
      hp.executionDeviation⟩) hv
  | setMarketActive marketId active =>
    simp only [execConfig, RiskParams.setMarketActive, RiskParams.market, bind_ok_iff, World.onlyRole_ok, revertIf_ok,
      pure_ok, exists_const] at h
    obtain ⟨-, p, ⟨hlisted, rfl⟩, rfl⟩ := h
    have hp := hv.markets marketId (by simpa using hlisted)
    exact valid_of_risk (update_listed hv.markets ⟨hp.initialMargin, hp.maintenanceMargin, hp.liquidationFee,
      hp.executionDeviation⟩) hv
  | setFundingConfig marketId cfg =>
    simp only [execConfig, RiskParams.setFundingConfig, bind_ok_iff, pure_ok] at h
    obtain ⟨_, -, _, -, _, -, _, -, rfl⟩ := h
    exact valid_of_risk hv.markets hv
  | setOiPolicy marketId bps =>
    simp only [execConfig, RiskParams.setOiPolicy, bind_ok_iff, pure_ok] at h
    obtain ⟨_, -, _, -, _, -, _, -, _, -, rfl⟩ := h
    exact valid_of_risk hv.markets hv
  | setMaxTotalOiPolicyBps bps =>
    simp only [execConfig, RiskParams.setMaxTotalOiPolicyBps, bind_ok_iff, pure_ok] at h
    obtain ⟨_, -, _, -, rfl⟩ := h
    exact valid_of_risk hv.markets hv
  | setPublishers keys =>
    simp only [execConfig, OracleAdapter.setPublishers, bind_ok_iff, pure_ok] at h
    obtain ⟨_, -, _, -, _, -, rfl⟩ := h
    exact valid_of_oracleRoles hv
  | setFeed id cfg =>
    simp only [execConfig, OracleAdapter.setFeed, bind_ok_iff, pure_ok] at h
    obtain ⟨_, -, _, -, _, -, _, -, _, -, rfl⟩ := h
    exact valid_of_eq hv rfl rfl rfl rfl
  | setReferenceFeed id ref =>
    simp only [execConfig, OracleAdapter.setReferenceFeed, bind_ok_iff, pure_ok] at h
    obtain ⟨_, -, _, -, _, -, rfl⟩ := h
    exact valid_of_eq hv rfl rfl rfl rfl
  | pushPrices ids prices confidences publishTime =>
    simp only [execConfig, OracleAdapter.pushPrices, bind_ok_iff, pure_ok] at h
    obtain ⟨_, -, _, -, _, -, _, -, _, -, rfl⟩ := h
    exact valid_of_eq hv rfl rfl rfl rfl
  | setMarketFees marketId makerRate takerRate =>
    simp only [execConfig, FeeRouter.setMarketFees, bind_ok_iff, pure_ok] at h
    obtain ⟨_, -, _, -, _, hrates, rfl⟩ := h
    exact valid_of_fees ⟨update_set hf.marketRates (checkRates_ok hrates), hf.tiers, hf.minNetRate, hf.split,
      hf.splitShares, hf.liquidationSplit⟩ hv
  | defineTier tier makerRate takerRate =>
    simp only [execConfig, FeeRouter.defineTier, bind_ok_iff, pure_ok] at h
    obtain ⟨_, -, _, -, _, hrates, rfl⟩ := h
    exact valid_of_fees ⟨hf.marketRates, update_set hf.tiers (checkRates_ok hrates), hf.minNetRate, hf.split,
      hf.splitShares, hf.liquidationSplit⟩ hv
  | setAccountTier account tier =>
    simp only [execConfig, FeeRouter.setAccountTier, bind_ok_iff, pure_ok] at h
    obtain ⟨_, -, _, -, rfl⟩ := h
    exact valid_of_fees ⟨hf.marketRates, hf.tiers, hf.minNetRate, hf.split, hf.splitShares, hf.liquidationSplit⟩ hv
  | setMinNetRate rate =>
    simp only [execConfig, FeeRouter.setMinNetRate, bind_ok_iff, World.onlyRole_ok, revertIf_ok, exists_const, pure_ok,
      not_or, not_lt, gt_iff_lt] at h
    obtain ⟨-, hrate, rfl⟩ := h
    exact valid_of_fees ⟨hf.marketRates, hf.tiers, hrate, hf.split, hf.splitShares, hf.liquidationSplit⟩ hv
  | setRebatesEnabled enabled =>
    simp only [execConfig, FeeRouter.setRebatesEnabled, bind_ok_iff, pure_ok] at h
    obtain ⟨_, -, rfl⟩ := h
    exact valid_of_fees ⟨hf.marketRates, hf.tiers, hf.minNetRate, hf.split, hf.splitShares, hf.liquidationSplit⟩ hv
  | setReferralsEnabled enabled =>
    simp only [execConfig, FeeRouter.setReferralsEnabled, bind_ok_iff, pure_ok] at h
    obtain ⟨_, -, rfl⟩ := h
    exact valid_of_fees ⟨hf.marketRates, hf.tiers, hf.minNetRate, hf.split, hf.splitShares, hf.liquidationSplit⟩ hv
  | setReferrerApproved referrer approved =>
    simp only [execConfig, FeeRouter.setReferrerApproved, bind_ok_iff, pure_ok] at h
    obtain ⟨_, -, _, -, rfl⟩ := h
    exact valid_of_fees ⟨hf.marketRates, hf.tiers, hf.minNetRate, hf.split, hf.splitShares, hf.liquidationSplit⟩ hv
  | setSplit treasuryBps insuranceBps referralBps =>
    simp only [execConfig, FeeRouter.setSplit, bind_ok_iff, World.onlyRole_ok, revertIf_ok, exists_const, pure_ok,
      not_or, not_lt, gt_iff_lt, not_not] at h
    obtain ⟨-, hsum, hshares, rfl⟩ := h
    exact valid_of_fees ⟨hf.marketRates, hf.tiers, hf.minNetRate, hsum, hshares, hf.liquidationSplit⟩ hv
  | setLiquidationSplit insuranceBps =>
    simp only [execConfig, FeeRouter.setLiquidationSplit, bind_ok_iff, World.onlyRole_ok, revertIf_ok, exists_const,
      pure_ok, not_or, not_lt, gt_iff_lt] at h
    obtain ⟨-, hsplit, rfl⟩ := h
    exact valid_of_fees ⟨hf.marketRates, hf.tiers, hf.minNetRate, hf.split, hf.splitShares, hsplit⟩ hv
  | setTreasury treasury =>
    simp only [execConfig, FeeRouter.setTreasury, bind_ok_iff, pure_ok] at h
    obtain ⟨_, -, _, -, rfl⟩ := h
    exact valid_of_fees ⟨hf.marketRates, hf.tiers, hf.minNetRate, hf.split, hf.splitShares, hf.liquidationSplit⟩ hv
  | setUnwindLimits maxDeviationBps maxFillNotional maxDailyNotional =>
    simp only [execConfig, Insurance.setUnwindLimits, bind_ok_iff, pure_ok] at h
    obtain ⟨_, -, _, -, _, -, _, -, rfl⟩ := h
    exact valid_of_eq hv rfl rfl rfl rfl
  | setParams maxRewardBps partialBps =>
    simp only [execConfig, Liquidation.setParams, bind_ok_iff, World.onlyRole_ok, revertIf_ok, exists_const, pure_ok,
      not_or, not_lt, gt_iff_lt] at h
    obtain ⟨-, ⟨h1, h2⟩, ⟨h3, h4⟩, rfl⟩ := h
    exact ⟨hf, hv.markets, ⟨⟨Nat.pos_of_ne_zero h1, h2⟩, ⟨h3, h4⟩⟩, hv.wired.ledger, hv.wired.feeSource⟩

/-- A transaction that configures nothing leaves every configuration as it is. -/
theorem effect_sameConfig {tx : Tx} {settled : List Settled} (htx : ∀ c, tx ≠ .config c)
    (h : Effect D env w msg tx w' settled) : SameConfig w w' := by
  cases h with
  | configured h => exact absurd rfl (htx _)
  | charged _ h => exact h.sameConfig
  | settled h => exact chain_sameConfig h
  | cancelled _ _ _ _ => exact ⟨rfl, rfl, rfl, rfl⟩
  | staked _ h _ => exact ⟨h.roles, h.risk, h.liquidation, by rw [h.feeRouter]; rfl⟩
  | outside _ _ => exact ⟨rfl, rfl, rfl, rfl⟩

theorem step_valid (hv : Valid D w) (h : (machine D env).step w l w') : Valid D w' := by
  obtain ⟨hadm, hexec⟩ := h
  cases htx : l.call.tx with
  | config c =>
    obtain ⟨⟨msg, tx⟩, settled⟩ := l
    obtain rfl : tx = .config c := htx
    exact execConfig_valid (fun c hc => hadm.1 ⟨c, hc.symm⟩) hadm.2.1 hv (unsettled_ok.1 hexec).1
  | _ =>
    refine (effect_sameConfig (fun c hc => ?_) (exec_effect hadm hexec)).valid hv
    rw [htx] at hc
    exact absurd hc (by simp)

/-- **Every reachable configuration is within its setters' bounds.** -/
theorem reachable_valid (h : Reachable (machine D env) w) : Valid D w :=
  h.invariant (Valid D) (fun _ => genesis_valid) fun _ _ _ _ => step_valid

end Kryon
