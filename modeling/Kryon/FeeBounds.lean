import Kryon.Downturns
import Kryon.FeeLedger
/-!
# FeeBounds — what a fill costs its sides, whatever the schedule, the tiers and the switches

Rates are bounded when they are set, and a pair of rates is lifted to the net floor when it is used.  So whichever tiers the
two sides are on and whatever governance has set before, a settled fill pays the protocol at least the floor's share of its
notional, no side pays more than the largest rate, and a rebate is at most the largest rebate.
-/
namespace Kryon

open Program Transition
open OrderGateway (Settled)

variable {D : Deployment} {env : Env} {w w' : World} {ls : List Label}

namespace FeeRouter
variable {s : FeeRouterStorage}

theorem ceilMul_lt {n rate fee : Int} (hn : 0 < n) (hr : 0 ≤ rate) (h : ceilMul n rate = .ok fee) :
    fee * RATE_DENOMINATOR < n * rate + RATE_DENOMINATOR := by
  unfold ceilMul at h
  split at h
  · rename_i hz
    rw [pure_ok] at h
    subst h
    rw [hz, mul_zero, zero_mul]
    decide
  · rename_i hnz
    simp only [bind_ok_iff, M.bound128_ok] at h
    obtain ⟨_, ⟨-, rfl⟩, -, rfl⟩ := h
    have hpos : 0 < n * rate := mul_pos hn (by omega)
    rw [Int.tdiv_eq_ediv_of_nonneg (by omega)]
    simp only [RATE_DENOMINATOR]
    omega

/-- **The rates a side pays by are the market's or its tier's**, within their bounds. -/
theorem rateFor_rates {marketId : MarketId} {account : Address} {isMaker : Bool} {rate : Int} {tier : Nat} (hv : Valid s)
    (h : rateFor s marketId account isMaker = .ok (rate, tier)) :
    ∃ r, ValidRates r ∧ rate = if isMaker then r.makerRate else r.takerRate := by
  have hown : ∀ r : Rates, (r.set = true → ValidRates r) → ∀ t,
      (if r.set = false then (0, s.marketRates marketId) else (t, r)).2.set = true →
      ValidRates (if r.set = false then ((0 : Nat), s.marketRates marketId) else (t, r)).2 := by
    intro r hr t hset
    split at hset
    · rename_i hunset
      rw [if_pos hunset]
      exact hv.marketRates marketId hset
    · rename_i hins
      rw [if_neg hins]
      exact hr hset
  simp only [rateFor, bind_ok_iff, revertIf_ok, pure_ok, Prod.mk.injEq, exists_const, Bool.not_eq_false] at h
  obtain ⟨hset, hrate, -⟩ := h
  refine ⟨_, hown _ ?_ _ hset, hrate.symm⟩
  split
  · exact hv.marketRates marketId
  · exact hv.tiers _

theorem effectiveMakerRate_bounds {makerRate takerRate : Int} (hv : Valid s)
    (hm : MIN_MAKER_RATE ≤ makerRate ∧ makerRate ≤ MAX_MAKER_RATE) (ht : 0 ≤ takerRate) :
    MIN_MAKER_RATE ≤ effectiveMakerRate s makerRate takerRate ∧
      effectiveMakerRate s makerRate takerRate ≤ MAX_MAKER_RATE := by
  have hfloor := hv.minNetRate
  unfold effectiveMakerRate
  simp only [MIN_MAKER_RATE, MAX_MAKER_RATE, MIN_NET_RATE_FLOOR, MAX_NET_RATE_FLOOR] at *
  split <;> split <;> omega

/-- What a fill's fees are held to: the floor the router has at the time, and the bounds of the rates. -/
structure Bounded (minNetRate notional : Int) (q : Quote) : Prop where
  traded : 0 < notional
  net : notional * minNetRate ≤ (q.takerFee + q.makerFee) * RATE_DENOMINATOR
  taker : 0 ≤ q.takerFee ∧ q.takerFee * RATE_DENOMINATOR < notional * MAX_TAKER_RATE + RATE_DENOMINATOR
  maker : notional * MIN_MAKER_RATE ≤ q.makerFee * RATE_DENOMINATOR ∧
    q.makerFee * RATE_DENOMINATOR < notional * MAX_MAKER_RATE + RATE_DENOMINATOR

/-- **Every quote is bounded.** -/
theorem quote_bounded {marketId : MarketId} {maker taker : Address} {n : Int} {q : Quote} (hv : Valid s)
    (h : quote s marketId maker taker n = .ok q) : Bounded s.minNetRate n q := by
  obtain ⟨hn, htaker0, hnet⟩ := quote_ok hv h
  simp only [quote, bind_ok_iff, revertIf_ok, pure_ok, exists_const, not_le] at h
  obtain ⟨-, ⟨mr, mt⟩, hmr, ⟨tr, tt⟩, htr, takerFee, htaker, makerFee, hmaker, rfl⟩ := h
  obtain ⟨rt, hrt, rfl⟩ := rateFor_rates hv htr
  obtain ⟨rm, hrm, rfl⟩ := rateFor_rates hv hmr
  simp only [Bool.false_eq_true, if_false, if_true] at htaker hmaker
  obtain ⟨hlo, hhi⟩ := effectiveMakerRate_bounds hv hrm.maker hrt.taker.1
  have hlower := makerFee_ok hn hmaker
  refine ⟨hn, hnet, ⟨htaker0, ?_⟩, ⟨(mul_le_mul_of_nonneg_left hlo hn.le).trans hlower, ?_⟩⟩
  · have hlt := ceilMul_lt hn hrt.taker.1 htaker
    exact hlt.trans_le (by have := mul_le_mul_of_nonneg_left hrt.taker.2 hn.le; omega)
  · have hle := mul_le_mul_of_nonneg_left hhi hn.le
    change makerFee * RATE_DENOMINATOR < n * MAX_MAKER_RATE + RATE_DENOMINATOR
    split at hmaker
    · rename_i hge
      have hlt := ceilMul_lt hn hge hmaker
      omega
    · simp only [bind_ok_iff, M.mulDiv_ok, pure_ok] at hmaker
      obtain ⟨_, ⟨-, rfl⟩, rfl⟩ := hmaker
      -- A rebate is not a charge.
      have hrebate : 0 ≤ (n * -effectiveMakerRate s rm.makerRate rt.takerRate).tdiv RATE_DENOMINATOR :=
        Int.tdiv_nonneg (mul_nonneg hn.le (by omega)) (by decide)
      have hcap : 0 ≤ n * MAX_MAKER_RATE := mul_nonneg hn.le (by decide)
      simp only [RATE_DENOMINATOR] at *
      omega

end FeeRouter

/-- The net fees of settled fills, and their notional. -/
def netFees (settled : List Settled) : Int :=
  (settled.map fun x => x.settlement.quote.takerFee + x.settlement.quote.makerFee).sum

def tradedNotional (settled : List Settled) : Int := (settled.map fun x => x.settlement.notional).sum

theorem netFees_floor {settled : List Settled} (h : ∀ x ∈ settled, x.settlement.notional * FeeRouter.MIN_NET_RATE_FLOOR ≤
      (x.settlement.quote.takerFee + x.settlement.quote.makerFee) * FeeRouter.RATE_DENOMINATOR) :
    tradedNotional settled * FeeRouter.MIN_NET_RATE_FLOOR ≤ netFees settled * FeeRouter.RATE_DENOMINATOR := by
  rw [tradedNotional, netFees, ← List.sum_map_mul_right, ← List.sum_map_mul_right]
  exact List.sum_le_sum h

/-- **No fill trades below the floor or above the cap.**  In every run from the deployment, whatever fees, tiers, floors and
switches are set on the way, every settled fill pays at least the net floor of its time, its taker at most the largest
taker rate, its maker at most the largest maker rate and no less than the largest rebate, each rounded up; and over the
whole run the protocol is paid at least the lowest floor's share of all that was traded. -/
theorem fees_bounded (hw : Genesis D w) (h : Run (machine D env) w ls w') :
    (∀ x ∈ history ls, FeeRouter.Bounded x.before.feeRouter.minNetRate x.settlement.notional x.settlement.quote) ∧
      tradedNotional (history ls) * FeeRouter.MIN_NET_RATE_FLOOR ≤
        netFees (history ls) * FeeRouter.RATE_DENOMINATOR := by
  have hall : ∀ x ∈ history ls, FeeRouter.Valid x.before.feeRouter ∧
      FeeRouter.Bounded x.before.feeRouter.minNetRate x.settlement.notional x.settlement.quote := by
    intro x hx
    obtain ⟨pre, post, hsplit⟩ := List.append_of_mem hx
    obtain ⟨ls₁, w₁, earlier, msg, wallet, hrun, -, hchain, hone⟩ := history_split h hsplit
    have hv := (chain_sameConfig hchain).valid (reachable_valid ⟨w, ls₁, hw, hrun⟩)
    exact ⟨hv.feeRouter, FeeRouter.quote_bounded hv.feeRouter (settleOne_quote hone)⟩
  refine ⟨fun x hx => (hall x hx).2, netFees_floor fun x hx => ?_⟩
  obtain ⟨hv, hbounded⟩ := hall x hx
  exact (mul_le_mul_of_nonneg_left hv.minNetRate.1 hbounded.traded.le).trans hbounded.net

theorem fees_bounded_trading :
    tradedNotional (history (trace Sample.deployment Sample.env Sample.genesis Sample.trading)) = 1000 * 10 ^ 18 ∧
      tradedNotional (history (trace Sample.deployment Sample.env Sample.genesis Sample.trading)) *
          FeeRouter.MIN_NET_RATE_FLOOR ≤
        netFees (history (trace Sample.deployment Sample.env Sample.genesis Sample.trading)) *
          FeeRouter.RATE_DENOMINATOR :=
  ⟨by decide +kernel, (fees_bounded Sample.genesis_ok (Sample.outcome_run Sample.trading (by decide +kernel))).2⟩

end Kryon
