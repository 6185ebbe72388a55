import Kryon.Validity
import Kryon.Sample
/-!
# Registry — the markets listed and the sum of their open-interest policies

The risk registry lists a market once, under an oracle it keeps, and carries the sum of the markets' policies along with
them (`Registered`).  Every call keeps what it checks (`sets_registered`); the ceiling on the sum is read when a policy
changes and not when the ceiling does, so a call that sets it below the present sum is the one that leaves it exceeded.
-/
namespace Kryon

open Program Transition

variable {D : Deployment} {env : Env} {w w' : World} {msg : Msg} {l : Label}

namespace RiskParams

/-- A listed market passes its own validation, under an id the bitmap has a bit for. -/
structure WellListed (s : RiskParamsStorage) (m : MarketId) : Prop where
  id : m ≠ 0 ∧ m.toNat ≤ MAX_MARKET_ID
  params : validateMarket (s.markets m) = .ok ()
  funding : s.funding m = ⟨0, 0⟩ ∨ (0 ≤ (s.funding m).premiumCoeff ∧ (s.funding m).premiumCoeff ≤ MAX_PREMIUM_COEFF ∧
    0 < (s.funding m).maxRatePerHour ∧ (s.funding m).maxRatePerHour ≤ MAX_FUNDING_RATE_PER_HOUR)
  policy : s.oiPolicyBps m ≤ MAX_OI_POLICY_BPS

/-- What every call keeps. -/
structure Listing (s : RiskParamsStorage) : Prop where
  ids : ∀ m, m ∈ s.ids ↔ (s.markets m).listed = true
  nodup : s.ids.Nodup
  count : s.ids.length ≤ MAX_MARKETS
  listed : ∀ m, (s.markets m).listed = true → WellListed s m
  unlisted : ∀ m, (s.markets m).listed = false → s.oiPolicyBps m = 0 ∧ s.funding m = ⟨0, 0⟩
  total : s.totalOiPolicyBps = (s.ids.map s.oiPolicyBps).sum

/-- The policies stay within the ceiling, if there is one. -/
def Capped (s : RiskParamsStorage) : Prop := s.maxTotalOiPolicyBps ≠ 0 → s.totalOiPolicyBps ≤ s.maxTotalOiPolicyBps

/-- **What each registry call that returns has checked and written.** -/
inductive Sets (s : RiskParamsStorage) : Config → RiskParamsStorage → Prop where
  | list (m : MarketId) (p : MarketParams) (hid : m ≠ 0 ∧ m.toNat ≤ MAX_MARKET_ID) (hp : validateMarket p = .ok ())
      (hm : (s.markets m).listed = false) (hroom : s.ids.length < MAX_MARKETS) : Sets s (.setMarket m p)
      { s with ids := s.ids ++ [m], markets := Function.update s.markets m { p with listed := true } }
  | replace (m : MarketId) (p : MarketParams) (hid : m ≠ 0 ∧ m.toNat ≤ MAX_MARKET_ID) (hp : validateMarket p = .ok ())
      (hm : (s.markets m).listed = true) (horacle : (s.markets m).oracleId = p.oracleId) : Sets s (.setMarket m p)
      { s with markets := Function.update s.markets m { p with listed := true } }
  | activate (m : MarketId) (active : Bool) (hm : (s.markets m).listed = true) : Sets s (.setMarketActive m active)
      { s with markets := Function.update s.markets m { s.markets m with active := active } }
  | fund (m : MarketId) (cfg : FundingConfig) (hm : (s.markets m).listed = true)
      (hcoeff : 0 ≤ cfg.premiumCoeff ∧ cfg.premiumCoeff ≤ MAX_PREMIUM_COEFF)
      (hrate : 0 < cfg.maxRatePerHour ∧ cfg.maxRatePerHour ≤ MAX_FUNDING_RATE_PER_HOUR) :
      Sets s (.setFundingConfig m cfg) { s with funding := Function.update s.funding m cfg }
  | policy (m : MarketId) (bps : Nat) (hm : (s.markets m).listed = true) (hbps : bps ≤ MAX_OI_POLICY_BPS)
      (hheld : s.oiPolicyBps m ≤ s.totalOiPolicyBps)
      (hcap : s.maxTotalOiPolicyBps ≠ 0 → s.totalOiPolicyBps - s.oiPolicyBps m + bps ≤ s.maxTotalOiPolicyBps) :
      Sets s (.setOiPolicy m bps)
        { s with
          oiPolicyBps := Function.update s.oiPolicyBps m bps
          totalOiPolicyBps := s.totalOiPolicyBps - s.oiPolicyBps m + bps }
  | ceiling (bps : Nat) : Sets s (.setMaxTotalOiPolicyBps bps) { s with maxTotalOiPolicyBps := bps }

theorem setMarket_sets {marketId : MarketId} {params : MarketParams}
    (h : setMarket w msg marketId params = .ok w') : Sets w.risk (.setMarket marketId params) w'.risk := by
  simp only [setMarket, bind_ok_iff, World.onlyRole_ok, revertIf_ok, exists_const, pure_ok, not_or, not_lt,
    gt_iff_lt] at h
  obtain ⟨-, hid, _, hvalid, ids, hids, rfl⟩ := h
  split at hids
  · rename_i hm
    simp only [bind_ok_iff, revertIf_ok, exists_const, pure_ok, ge_iff_le, not_le] at hids
    obtain ⟨hroom, rfl⟩ := hids
    exact Sets.list marketId params hid hvalid hm hroom
  · rename_i hm
    simp only [bind_ok_iff, revertIf_ok, exists_const, pure_ok, not_not] at hids
    obtain ⟨horacle, rfl⟩ := hids
    exact Sets.replace marketId params hid hvalid (by simpa using hm) horacle

theorem market_ok {marketId : MarketId} {m : MarketParams} (h : market w marketId = .ok m) :
    (w.risk.markets marketId).listed = true ∧ m = w.risk.markets marketId := by
  simp only [market, bind_ok_iff, revertIf_ok, exists_const, pure_ok, Bool.not_eq_false] at h
  exact ⟨h.1, h.2.symm⟩

theorem setOiPolicy_sets {marketId : MarketId} {bps : Nat} (h : setOiPolicy w msg marketId bps = .ok w') :
    Sets w.risk (.setOiPolicy marketId bps) w'.risk := by
  simp only [setOiPolicy, bind_ok_iff, World.onlyRole_ok, revertIf_ok, exists_const, pure_ok, gt_iff_lt, not_lt] at h
  obtain ⟨-, _, hm, hbps, hheld, hcap, rfl⟩ := h
  exact Sets.policy marketId bps (market_ok hm).1 hbps hheld fun hmax => not_lt.1 fun hlt => hcap ⟨hmax, hlt⟩

theorem setMarketActive_sets {marketId : MarketId} {active : Bool}
    (h : setMarketActive w msg marketId active = .ok w') : Sets w.risk (.setMarketActive marketId active) w'.risk := by
  simp only [setMarketActive, bind_ok_iff, World.onlyRole_ok, exists_const, pure_ok] at h
  obtain ⟨-, _, hm, rfl⟩ := h
  obtain ⟨hlisted, rfl⟩ := market_ok hm
  exact Sets.activate marketId active hlisted

theorem setFundingConfig_sets {marketId : MarketId} {cfg : FundingConfig}
    (h : setFundingConfig w msg marketId cfg = .ok w') : Sets w.risk (.setFundingConfig marketId cfg) w'.risk := by
  simp only [setFundingConfig, bind_ok_iff, World.onlyRole_ok, exists_const, pure_ok] at h
  obtain ⟨-, _, hm, _, hcoeff, _, hrate, rfl⟩ := h
  exact Sets.fund marketId cfg (market_ok hm).1 (checkBounds_ok hcoeff) (checkBounds_ok hrate)

theorem setMaxTotalOiPolicyBps_sets {bps : Nat} (h : setMaxTotalOiPolicyBps w msg bps = .ok w') :
    Sets w.risk (.setMaxTotalOiPolicyBps bps) w'.risk := by
  simp only [setMaxTotalOiPolicyBps, bind_ok_iff, pure_ok] at h
  obtain ⟨_, -, _, -, rfl⟩ := h
  exact Sets.ceiling bps

/-! ## The listing -/

theorem sum_policies_update : ∀ {ids : List MarketId} (f : MarketId → Nat) {m : MarketId} (v : Nat), ids.Nodup → m ∈ ids →
    (ids.map (Function.update f m v)).sum + f m = (ids.map f).sum + v
  | [], _, _, _, _, hm => absurd hm List.not_mem_nil
  | n :: ids, f, m, v, hnodup, hm => by
    rw [List.nodup_cons] at hnodup
    simp only [List.map_cons, List.sum_cons]
    rcases List.mem_cons.1 hm with rfl | hm
    · have hrest : ids.map (Function.update f m v) = ids.map f := by
        refine List.map_congr_left fun k hk => Function.update_of_ne ?_ _ _
        rintro rfl
        exact hnodup.1 hk
      rw [hrest, Function.update_self]
      omega
    · have hne : n ≠ m := by
        rintro rfl
        exact hnodup.1 hm
      have hrest := sum_policies_update f v hnodup.2 hm
      rw [Function.update_of_ne hne]
      omega

theorem update_unlisted {f : MarketId → MarketParams} {m n : MarketId} {p : MarketParams} (hp : p.listed = true)
    (hn : (Function.update f m p n).listed = false) : (f n).listed = false := by
  by_cases h : n = m
  · rw [h, Function.update_self, hp] at hn
    exact absurd hn.symm Bool.false_ne_true
  · rwa [Function.update_of_ne h] at hn

/-- Writing a market whose new parameters pass validation keeps the listed markets well listed. -/
theorem wellListed_update {s : RiskParamsStorage} {n : MarketId} {p : MarketParams} (ids : List MarketId)
    (hid : n ≠ 0 ∧ n.toNat ≤ MAX_MARKET_ID) (hp : validateMarket p = .ok ())
    (hn : s.funding n = ⟨0, 0⟩ ∧ s.oiPolicyBps n = 0 ∨ WellListed s n)
    (hold : ∀ m, (s.markets m).listed = true → WellListed s m) (m : MarketId)
    (hm : (Function.update s.markets n p m).listed = true) :
    WellListed { s with ids := ids, markets := Function.update s.markets n p } m := by
  by_cases h : m = n
  · subst h
    have hpass : validateMarket (Function.update s.markets m p m) = .ok () := by rw [Function.update_self, hp]
    rcases hn with ⟨hfund, hpol⟩ | hn
    · exact ⟨hid, hpass, Or.inl hfund, hpol.le.trans (Nat.zero_le _)⟩
    · exact ⟨hid, hpass, hn.funding, hn.policy⟩
  · have hsame : Function.update s.markets n p m = s.markets m := Function.update_of_ne h _ _
    rw [hsame] at hm
    have hold := hold m hm
    have hpass : validateMarket (Function.update s.markets n p m) = .ok () := by rw [hsame, hold.params]
    exact ⟨hold.id, hpass, hold.funding, hold.policy⟩

theorem Listing.rewrite {s : RiskParamsStorage} (hs : Listing s) {m : MarketId} {p : MarketParams}
    (hm : (s.markets m).listed = true) (hl : p.listed = true) (hp : validateMarket p = .ok ()) :
    Listing { s with markets := Function.update s.markets m p } := by
  have hold := hs.listed m hm
  refine ⟨fun n => ?_, hs.nodup, hs.count, wellListed_update s.ids hold.id hp (Or.inr hold) hs.listed,
    fun n hn => hs.unlisted n (update_unlisted hl hn), hs.total⟩
  by_cases h : n = m
  · simp only [h, Function.update_self, hl]
    exact iff_of_true ((hs.ids m).2 hm) trivial
  · simp only [Function.update_of_ne h]
    exact hs.ids n

/-- **Every registry call keeps the listing.** -/
theorem sets_listing {s s' : RiskParamsStorage} {c : Config} (hs : Listing s) (h : Sets s c s') : Listing s' := by
  cases h with
  | list m p hid hp hm hroom =>
    obtain ⟨hpol, hfund⟩ := hs.unlisted m hm
    have hnew : m ∉ s.ids := fun hmem => by
      rw [(hs.ids m).1 hmem] at hm
      exact Bool.false_ne_true hm.symm
    refine ⟨fun n => ?_, ?_, ?_, wellListed_update _ hid hp (Or.inl ⟨hfund, hpol⟩) hs.listed,
      fun n hn => hs.unlisted n (update_unlisted rfl hn), ?_⟩
    · rw [List.mem_append, List.mem_singleton]
      by_cases h : n = m
      · simp [h]
      · simp only [h, or_false, Function.update_of_ne h]
        exact hs.ids n
    · rw [List.nodup_append]
      refine ⟨hs.nodup, List.nodup_singleton m, fun a ha b hb => ?_⟩
      rw [List.mem_singleton] at hb
      rintro rfl
      exact hnew (hb ▸ ha)
    · rw [List.length_append, List.length_singleton]
      exact hroom
    · rw [List.map_append, List.sum_append, ← hs.total]
      simp [hpol]
  | replace m p hid hp hm horacle => exact hs.rewrite hm rfl hp
  | activate m active hm => exact hs.rewrite hm hm (hs.listed m hm).params
  | fund m cfg hm hcoeff hrate =>
    refine ⟨hs.ids, hs.nodup, hs.count, fun n hn => ?_, fun n hn => ?_, hs.total⟩
    · obtain ⟨hid, hp, hfund, hpol⟩ := hs.listed n hn
      refine ⟨hid, hp, ?_, hpol⟩
      by_cases h : n = m
      · subst h
        simp only [Function.update_self]
        exact Or.inr ⟨hcoeff.1, hcoeff.2, hrate.1, hrate.2⟩
      · simp only [Function.update_of_ne h]
        exact hfund
    · have hne : n ≠ m := by
        rintro rfl
        rw [hm] at hn
        exact Bool.false_ne_true hn.symm
      simp only [Function.update_of_ne hne]
      exact hs.unlisted n hn
  | policy m bps hm hbps hheld hcap =>
    have hsum := sum_policies_update s.oiPolicyBps bps hs.nodup ((hs.ids m).2 hm)
    refine ⟨hs.ids, hs.nodup, hs.count, fun n hn => ?_, fun n hn => ?_, ?_⟩
    · obtain ⟨hid, hp, hfund, hpol⟩ := hs.listed n hn
      refine ⟨hid, hp, hfund, ?_⟩
      by_cases h : n = m
      · subst h
        simp only [Function.update_self]
        exact hbps
      · simp only [Function.update_of_ne h]
        exact hpol
    · have hne : n ≠ m := by
        rintro rfl
        rw [hm] at hn
        exact Bool.false_ne_true hn.symm
      simp only [Function.update_of_ne hne]
      exact hs.unlisted n hn
    · have htotal := hs.total
      show s.totalOiPolicyBps - s.oiPolicyBps m + bps = (s.ids.map (Function.update s.oiPolicyBps m bps)).sum
      omega
  | ceiling bps => exact ⟨hs.ids, hs.nodup, hs.count, fun n hn => ⟨(hs.listed n hn).id, (hs.listed n hn).params,
      (hs.listed n hn).funding, (hs.listed n hn).policy⟩, hs.unlisted, hs.total⟩

theorem update_oracle {f : MarketId → MarketParams} {n m : MarketId} {p : MarketParams} (hl : p.listed = true)
    (ho : (f n).listed = true → p.oracleId = (f n).oracleId) (hm : (f m).listed = true) :
    (Function.update f n p m).listed = true ∧ (Function.update f n p m).oracleId = (f m).oracleId := by
  by_cases h : m = n
  · subst h
    rw [Function.update_self]
    exact ⟨hl, ho hm⟩
  · rw [Function.update_of_ne h]
    exact ⟨hm, rfl⟩

/-- **A listed market stays listed, under its oracle.** -/
theorem sets_oracle {s s' : RiskParamsStorage} {c : Config} (h : Sets s c s') (m : MarketId)
    (hm : (s.markets m).listed = true) :
    (s'.markets m).listed = true ∧ (s'.markets m).oracleId = (s.markets m).oracleId := by
  cases h with
  | list n p hid hp hn hroom => exact update_oracle rfl (fun hl => absurd (hn.symm.trans hl) Bool.false_ne_true) hm
  | replace n p hid hp hn horacle => exact update_oracle rfl (fun _ => horacle.symm) hm
  | activate n active hn => exact update_oracle hn (fun _ => rfl) hm
  | fund n cfg hn hcoeff hrate => exact ⟨hm, rfl⟩
  | policy n bps hn hbps hheld hcap => exact ⟨hm, rfl⟩
  | ceiling bps => exact ⟨hm, rfl⟩

/-- The ceiling is exceeded by no call but the one that lowers it past the sum, and by that one it is. -/
theorem sets_capped {s s' : RiskParamsStorage} {c : Config} (hs : Capped s) (h : Sets s c s') :
    Capped s' ↔ ∀ bps, c = .setMaxTotalOiPolicyBps bps → bps = 0 ∨ s.totalOiPolicyBps ≤ bps := by
  cases h with
  | ceiling bps =>
    constructor
    · rintro hcap b hb
      obtain rfl := Config.setMaxTotalOiPolicyBps.inj hb
      by_cases hzero : bps = 0
      · exact Or.inl hzero
      · exact Or.inr (hcap hzero)
    · intro hle hne
      rcases hle bps rfl with hzero | hle
      · exact absurd hzero hne
      · exact hle
  | policy m bps hm hbps hheld hcap => exact iff_of_true hcap fun _ hb => nomatch hb
  | _ => exact iff_of_true hs fun _ hb => nomatch hb

end RiskParams

open RiskParams

/-! ## Transactions -/

def Config.setsRegistry : Config → Bool
  | .setMarket _ _ | .setMarketActive _ _ | .setFundingConfig _ _ | .setOiPolicy _ _ | .setMaxTotalOiPolicyBps _ => true
  | _ => false

theorem execConfig_risk {c : Config} (hc : c.setsRegistry = false) :
    Returns (fun w' => w'.risk = w.risk) (execConfig D w msg c) := by
  cases c with
  | setMarket m p => exact absurd hc.symm Bool.false_ne_true
  | setMarketActive m active => exact absurd hc.symm Bool.false_ne_true
  | setFundingConfig m cfg => exact absurd hc.symm Bool.false_ne_true
  | setOiPolicy m bps => exact absurd hc.symm Bool.false_ne_true
  | setMaxTotalOiPolicyBps bps => exact absurd hc.symm Bool.false_ne_true
  | _ =>
    simp only [execConfig, KryonUpgradeable.pause, KryonUpgradeable.pauseIndefinitely, KryonUpgradeable.unpause,
      KryonUpgradeable.changeRole, KryonUpgradeable.renounceRole, Vault.setDepositCaps, Vault.setCapExempt,
      Vault.setCollateral, OracleAdapter.setPublishers, OracleAdapter.setFeed,
      OracleAdapter.setReferenceFeed, OracleAdapter.pushPrices, FeeRouter.setMarketFees, FeeRouter.defineTier,
      FeeRouter.setAccountTier, FeeRouter.setMinNetRate, FeeRouter.setRebatesEnabled, FeeRouter.setReferralsEnabled,
      FeeRouter.setReferrerApproved, FeeRouter.setSplit, FeeRouter.setLiquidationSplit, FeeRouter.setTreasury,
      Insurance.setUnwindLimits, Liquidation.setParams]
    repeat' first
      | exact Returns.pure rfl
      | refine Returns.bind fun _ => ?_

theorem execConfig_sets {c : Config} (hc : c.setsRegistry = true) (h : execConfig D w msg c = .ok w') :
    Sets w.risk c w'.risk := by
  cases c with
  | setMarket m p => exact setMarket_sets h
  | setMarketActive m active => exact setMarketActive_sets h
  | setFundingConfig m cfg => exact setFundingConfig_sets h
  | setOiPolicy m bps => exact setOiPolicy_sets h
  | setMaxTotalOiPolicyBps bps => exact setMaxTotalOiPolicyBps_sets h
  | _ => exact absurd hc Bool.false_ne_true

/-- **A step leaves the registry alone, or is one registry call.** -/
theorem step_sets (h : (machine D env).step w l w') :
    (w'.risk = w.risk ∧ ∀ bps, l.call.tx ≠ .config (.setMaxTotalOiPolicyBps bps)) ∨
      ∃ c, l.call.tx = .config c ∧ Sets w.risk c w'.risk := by
  obtain ⟨hadm, hexec⟩ := h
  obtain ⟨⟨msg, tx⟩, settled⟩ := l
  by_cases htx : ∃ c, tx = .config c
  · obtain ⟨c, rfl⟩ := htx
    by_cases hc : c.setsRegistry = true
    · exact Or.inr ⟨c, rfl, execConfig_sets hc (unsettled_ok.1 hexec).1⟩
    · refine Or.inl ⟨execConfig_risk (by simpa using hc) _ (unsettled_ok.1 hexec).1, fun bps hb => hc ?_⟩
      rw [Tx.config.inj hb]
      rfl
  · rw [not_exists] at htx
    exact Or.inl ⟨(effect_sameConfig htx (exec_effect hadm hexec)).risk, fun _ => htx _⟩

/-- The calls that set a ceiling the policies already exceed. -/
def Call.LowersCap (w : World) (call : Call) : Prop :=
  match call.tx with
  | .config (.setMaxTotalOiPolicyBps bps) => bps ≠ 0 ∧ bps < w.risk.totalOiPolicyBps
  | _ => False

instance (w : World) (call : Call) : Decidable (call.LowersCap w) := by
  unfold Call.LowersCap
  split
  · exact inferInstance
  · exact instDecidableFalse

theorem step_listing (hs : Listing w.risk) (h : (machine D env).step w l w') : Listing w'.risk := by
  rcases step_sets h with ⟨hsame, -⟩ | ⟨c, -, hset⟩
  · rw [hsame]
    exact hs
  · exact sets_listing hs hset

/-- **A step exceeds the ceiling exactly when it lowers it past the sum.** -/
theorem step_capped (hs : Capped w.risk) (h : (machine D env).step w l w') :
    Capped w'.risk ↔ ¬ l.call.LowersCap w := by
  have hlowers : ∀ {c}, l.call.tx = .config c →
      (¬ l.call.LowersCap w ↔ ∀ bps, c = .setMaxTotalOiPolicyBps bps → bps = 0 ∨ w.risk.totalOiPolicyBps ≤ bps) := by
    intro c htx
    unfold Call.LowersCap
    rw [htx]
    cases c with
    | setMaxTotalOiPolicyBps bps =>
      constructor
      · rintro hnot b hb
        obtain rfl := Config.setMaxTotalOiPolicyBps.inj hb
        by_cases hzero : bps = 0
        · exact Or.inl hzero
        · exact Or.inr (not_lt.1 fun hlt => hnot ⟨hzero, hlt⟩)
      · rintro hall ⟨hne, hlt⟩
        rcases hall bps rfl with hzero | hle
        · exact hne hzero
        · exact absurd hlt (not_lt.2 hle)
    | _ => exact iff_of_true id fun _ hb => nomatch hb
  rcases step_sets h with ⟨hsame, hne⟩ | ⟨c, htx, hset⟩
  · rw [hsame]
    refine iff_of_true hs fun hlow => ?_
    unfold Call.LowersCap at hlow
    split at hlow
    · rename_i bps htx
      exact hne bps htx
    · exact hlow
  · exact (sets_capped hs hset).trans (hlowers htx).symm

/-! ## Runs -/

theorem genesis_listing (h : Genesis D w) : Listing w.risk := by
  obtain ⟨hlisted, hids, hfund, hpol, htotal, -⟩ := h.risk
  refine ⟨fun m => ?_, ?_, ?_, fun m hm => ?_, fun m _ => ⟨hpol m, hfund m⟩, ?_⟩
  · rw [hids, hlisted m]
    simp
  · rw [hids]
    exact List.nodup_nil
  · rw [hids]
    exact Nat.zero_le _
  · rw [hlisted m] at hm
    exact absurd hm Bool.false_ne_true
  · rw [htotal, hids]
    rfl

theorem genesis_capped (h : Genesis D w) : Capped w.risk := by
  intro _
  rw [h.risk.2.2.2.2.1]
  exact Nat.zero_le _

/-- **Every reachable listing is sound.** -/
theorem reachable_listing (h : Reachable (machine D env) w) : Listing w.risk :=
  h.invariant (fun w => Listing w.risk) (fun _ => genesis_listing) fun _ _ _ _ => step_listing

/-- **A market once listed keeps its oracle**, over a run. -/
theorem run_oracle {ls : List Label} (h : Run (machine D env) w ls w') (m : MarketId)
    (hm : (w.risk.markets m).listed = true) :
    (w'.risk.markets m).listed = true ∧ (w'.risk.markets m).oracleId = (w.risk.markets m).oracleId := by
  refine h.preserves (fun v => (v.risk.markets m).listed = true ∧
    (v.risk.markets m).oracleId = (w.risk.markets m).oracleId) ?_ ⟨hm, rfl⟩
  rintro s l t ⟨hlisted, horacle⟩ hstep
  rcases step_sets hstep with ⟨hsame, -⟩ | ⟨c, -, hset⟩
  · rw [hsame]
    exact ⟨hlisted, horacle⟩
  · obtain ⟨hlisted', horacle'⟩ := sets_oracle hset m hlisted
    exact ⟨hlisted', horacle'.trans horacle⟩

/-- **The registry.** On a run that never lowers the ceiling past the sum, the listing is sound, its policies sum to the
stored total, the total is within the ceiling, and markets keep their oracles from then on; and the next step keeps it so
exactly when it does not lower the ceiling past the sum either. -/
theorem registry_capped {w₀ : World} {ls : List Label} (h₀ : Genesis D w₀)
    (h : Run ((machine D env).restrict fun w l => ¬ l.call.LowersCap w) w₀ ls w) :
    Listing w.risk ∧ Capped w.risk ∧
      (∀ ms v, Run (machine D env) w ms v → ∀ m, (w.risk.markets m).listed = true →
        (v.risk.markets m).listed = true ∧ (v.risk.markets m).oracleId = (w.risk.markets m).oracleId) ∧
      ∀ l v, (machine D env).step w l v → Listing v.risk ∧ (Capped v.risk ↔ ¬ l.call.LowersCap w) := by
  obtain ⟨hlisting, hcapped⟩ : Listing w.risk ∧ Capped w.risk := by
    refine h.preserves (fun w => Listing w.risk ∧ Capped w.risk) ?_ ⟨genesis_listing h₀, genesis_capped h₀⟩
    rintro s l t ⟨hs, hcap⟩ ⟨hlow, hstep⟩
    exact ⟨step_listing hs hstep, (step_capped hcap hstep).2 hlow⟩
  exact ⟨hlisting, hcapped, fun _ _ hrun => run_oracle hrun,
    fun _ _ hstep => ⟨step_listing hlisting hstep, step_capped hcapped hstep⟩⟩

/-- Both markets are listed and half of the ceiling is committed. -/
def Sample.committed : List Call :=
  configure (market 1000 500 100) (100 * 10 ^ 18) ++
    [call admin (.config (.setMaxTotalOiPolicyBps 40000)), call admin (.config (.setOiPolicy 1 20000))]

theorem registry_capped_committed : (Sample.outcome Sample.committed).risk.totalOiPolicyBps = 20000 ∧
    Listing (Sample.outcome Sample.committed).risk ∧ Capped (Sample.outcome Sample.committed).risk := by
  have hrun := Sample.outcome_run_restrict (fun w call => ¬ call.LowersCap w) Sample.committed (by decide +kernel)
    (by decide +kernel)
  obtain ⟨hlisting, hcapped, -⟩ := registry_capped Sample.genesis_ok hrun
  exact ⟨by decide +kernel, hlisting, hcapped⟩

/-- The ceiling is lowered below what is committed. -/
theorem registry_not_capped : ¬ ∀ w, Reachable (machine Sample.deployment Sample.env) w → Capped w.risk := by
  intro hall
  have hcapped := hall _ (Sample.outcome_reachable (Sample.committed ++
    [Sample.call Sample.admin (.config (.setMaxTotalOiPolicyBps 10000))]))
  revert hcapped
  unfold Capped
  decide +kernel

end Kryon
