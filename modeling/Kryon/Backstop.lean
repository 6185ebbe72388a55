import Kryon.History
import Kryon.Sample
/-!
# Backstop — what a backstop signer can make Insurance trade

Insurance signs through ERC-1271 only, and only reduce-only orders of its own (`insurance_signs`); the engine holds such an
order to the position it reduces, and the gateway's hook holds its fill to the price band and to the caps.  The day's
counter is the sum of the day's unwinds (`run_unwound`).
-/
namespace Kryon

open Program Transition
open OrderGateway

variable {D : Deployment} {env : Env} {w w' : World} {msg : Msg} {l : Label} {ls : List Label}
  {wallet : Address → Bytes32 → Bytes → Bool}

/-! ## What Insurance signs -/

/-- The order a backstop signature carries. -/
def carriedOrder (signature : Bytes) : Option Order := do
  let (orderAbi, _) ← Abi.decodeBytesPair signature
  Abi.decodeOrder orderAbi

/-- **Insurance signs nothing but a reduce-only order of its own with the digest asked for.** -/
theorem isValidSignature_ok {hash : Bytes32} {signature : Bytes}
    (h : Insurance.isValidSignature D env w hash signature = .ok true) :
    ∃ o, carriedOrder signature = some o ∧ env.hashOrder o = hash ∧ o.reduceOnly = true := by
  unfold Insurance.isValidSignature at h
  split at h
  · exact absurd h (by simp)
  · split at h
    · exact absurd h (by simp)
    · split at h
      · exact absurd h (by simp)
      · rename_i orderAbi signerSig hpair
        split at h
        · exact absurd h (by simp)
        · split at h
          · exact absurd h (by simp)
          · rename_i o hdecode
            rw [pure_ok] at h
            refine ⟨o, ?_, ?_⟩
            · simp only [carriedOrder, hpair, Option.bind_eq_bind, Option.bind_some, hdecode]
            · unfold Insurance.validUnwindOrder at h
              by_cases hown : o.owner ≠ D.insurance ∨ o.reduceOnly = false
              · rw [if_pos hown] at h
                exact absurd h (by decide)
              · rw [if_neg hown] at h
                rw [not_or, Bool.not_eq_false] at hown
                by_cases hexp : o.expiry > w.timestamp + Insurance.MAX_UNWIND_ORDER_TTL
                · rw [if_pos hexp] at h
                  exact absurd h (by decide)
                · rw [if_neg hexp] at h
                  by_cases hhash : env.hashOrder o ≠ hash
                  · rw [if_pos hhash] at h
                    exact absurd h (by decide)
                  · exact ⟨not_not.1 hhash, hown.2⟩

theorem insurance_signs (hk : Keyless env D.insurance) {hash : Bytes32} {signature : Bytes}
    (h : OrderLib.isValidSignature D env w msg wallet D.insurance hash signature = true) :
    ∃ o, carriedOrder signature = some o ∧ env.hashOrder o = hash ∧ o.reduceOnly = true := by
  have hprot : D.IsProtocol D.insurance := ⟨.insurance, rfl⟩
  simp only [OrderLib.isValidSignature, hk hash signature, hprot, not_true, false_and, if_false,
    OrderLib.isValidERC1271Signature, if_true] at h
  cases hv : Insurance.isValidSignature D env w hash signature with
  | error e =>
    rw [hv] at h
    exact absurd h (by simp)
  | ok valid =>
    rw [hv] at h
    simp only at h
    subst h
    exact isValidSignature_ok hv

/-- The orders of a fill and the signatures they came with. -/
def OrderGateway.Settled.sides (x : Settled) : List (Order × Bytes) :=
  [(x.settlement.fill.maker, x.settlement.fill.makerSignature),
    (x.settlement.fill.taker, x.settlement.fill.takerSignature)]

/-- No order settled for Insurance shares its digest with another order that its signature carries. -/
def UnwindsDistinct (D : Deployment) (env : Env) (settled : List Settled) : Prop :=
  ∀ x ∈ settled, ∀ s ∈ x.sides, s.1.owner = D.insurance → ∀ o ∈ carriedOrder s.2,
    env.hashOrder o = env.hashOrder s.1 → o = s.1

instance (D : Deployment) (env : Env) (settled : List Settled) : Decidable (UnwindsDistinct D env settled) :=
  inferInstanceAs (Decidable (∀ x ∈ settled, ∀ s ∈ x.sides, _))

/-! ## Positions -/

/-- The size Insurance holds in a market. -/
def backstopSize (D : Deployment) (w : World) (m : MarketId) : Int := (w.engine.positions (D.insurance, m)).size

/-- The size moved toward zero, and not past it. -/
def Shrinks (s t : Int) : Prop := |t| ≤ |s| ∧ (0 ≤ s → 0 ≤ t) ∧ (s ≤ 0 → t ≤ 0)

theorem shrinks_of_reduces {p : Position} {delta : Int} (h : Engine.Reduces p delta) :
    Shrinks p.size (p.size + delta) := by
  obtain ⟨hopen, hside, hle⟩ := h
  rw [ne_eq, decide_eq_decide] at hside
  rcases lt_or_gt_of_ne hopen with hneg | hpos
  · have hd : 0 < delta := by omega
    rw [abs_of_neg hneg, abs_of_pos hd] at hle
    refine ⟨?_, fun h => absurd hneg (not_lt.2 h), fun _ => by omega⟩
    rw [abs_of_neg hneg, abs_of_nonpos (by omega)]
    omega
  · have hd : delta ≤ 0 := by omega
    rw [abs_of_pos hpos, abs_of_nonpos hd] at hle
    refine ⟨?_, fun _ => by omega, fun h => absurd hpos (not_lt.2 h)⟩
    rw [abs_of_pos hpos, abs_of_nonneg (by omega)]
    omega

theorem leg_size {a : Address} {m : MarketId} {d v : Int}
    (h : Clearing.Leg D.engine PRECISION (books D w) a m d v (books D w')) :
    (w'.engine.positions (a, m)).size = (w.engine.positions (a, m)).size + d := by
  have hsize : (books D w').size (a, m) = (books D w).size (a, m) + d := Clearing.leg_size h
  exact hsize

theorem leg_size_ne {i a : Address} {m : MarketId} {d v : Int} (ha : i ≠ a)
    (h : Clearing.Leg D.engine PRECISION (books D w) i m d v (books D w')) (n : MarketId) :
    (w'.engine.positions (a, n)).size = (w.engine.positions (a, n)).size := by
  have hsize : (books D w').size (a, n) = (books D w).size (a, n) := Clearing.leg_size_of_ne ha h n
  exact hsize

/-- **A reduce-only side shrinks its account's position.** -/
theorem apply_shrinks {f : Fill} {notional : Int} {q : FeeRouter.Quote} {o : Order}
    (hne : f.maker.owner ≠ f.taker.owner) (hm : f.maker.marketId = f.taker.marketId)
    (ho : o = f.maker ∨ o = f.taker) (hro : o.reduceOnly = true)
    (h : OrderGateway.apply D w f notional = .ok (w', q)) :
    Shrinks (w.engine.positions (o.owner, f.maker.marketId)).size
      (w'.engine.positions (o.owner, f.maker.marketId)).size := by
  obtain ⟨w₁, mi, w₂, ti, hmaker, htaker, hcharge⟩ := apply_ok h
  have hengine : w'.engine = w₂.engine := (chargeFill_clears hcharge).2.1
  have hmakerLeg := (applyFill_leg hmaker).2
  have htakerLeg := (applyFill_leg htaker).2
  rw [hengine]
  rcases ho with rfl | rfl
  · obtain ⟨-, -, _, _, _, -, -, hreduces⟩ := Engine.applyFill_ok hmaker
    rw [leg_size_ne hne.symm htakerLeg, leg_size hmakerLeg]
    exact shrinks_of_reduces (hreduces hro)
  · obtain ⟨-, -, _, _, _, -, -, hreduces⟩ := Engine.applyFill_ok htaker
    rw [hm, leg_size htakerLeg, ← leg_size_ne hne hmakerLeg]
    exact shrinks_of_reduces (hreduces hro)

/-! ## The hook -/

def OrderGateway.Settled.TradesFor (x : Settled) (a : Address) : Prop :=
  x.settlement.fill.maker.owner = a ∨ x.settlement.fill.taker.owner = a

instance (x : Settled) (a : Address) : Decidable (x.TradesFor a) := inferInstanceAs (Decidable (_ ∨ _))

def OrderGateway.Settled.day (x : Settled) : Nat := x.before.timestamp / Insurance.DAY

/-- What a fill adds to each day's unwinds. -/
def unwoundBy (D : Deployment) (x : Settled) (day : Nat) : Int :=
  if x.TradesFor D.insurance ∧ x.day = day then x.settlement.notional else 0

/-- What Insurance unwound on each day by the given fills. -/
def unwound (D : Deployment) (settled : List Settled) : Nat → Int := (settled.map (unwoundBy D)).sum

theorem backstopHook_ok (hback : D.backstop = D.insurance) {f : Fill}
    (hside : f.maker.owner = D.insurance ∨ f.taker.owner = D.insurance) (h : backstopHook D w f = .ok w') :
    Insurance.onBackstopFill D w D.gateway f.maker.marketId f.size f.price = .ok w' := by
  have hset : D.backstop ≠ 0 := by
    rw [hback]
    exact D.address_ne_zero .insurance
  rw [← hback] at hside
  rwa [backstopHook, if_pos ⟨hset, hside⟩] at h

/-- **A settled fill adds its notional to the day's unwinds exactly when Insurance is one of its sides.** -/
theorem settleOne_unwound (hback : D.backstop = D.insurance) {x : Settled}
    (h : settleOne D env x.before msg wallet x.settlement.fill = .ok (x.after, x.settlement)) :
    x.after.insurance.unwoundOnDay = x.before.insurance.unwoundOnDay + unwoundBy D x := by
  obtain ⟨w₁, w₂, w₃, hs⟩ := settleOne_ok h
  have happlied : x.after.insurance.unwoundOnDay = w₃.insurance.unwoundOnDay := by
    rw [(apply_clears hs.market hs.opposite hs.applied).1.insurance]
  have hnotional := hs.notional
  have hhook := hs.hook
  obtain ⟨-, rfl⟩ := consume_ok hs.maker
  obtain ⟨-, rfl⟩ := consume_ok hs.taker
  rw [happlied]
  by_cases hside : x.TradesFor D.insurance
  · obtain ⟨index, band, notional, -, -, -, hn, -, -, rfl⟩ := onBackstopFill_ok (backstopHook_ok hback hside hhook)
    obtain rfl := ok_unique hnotional hn
    funext day
    by_cases hday : x.day = day
    · subst hday
      simp only [withUnwound, Pi.add_apply, unwoundBy, hside, true_and, if_true]
      exact Function.update_self _ _ _
    · simp only [withUnwound, Pi.add_apply, unwoundBy, hside, hday, and_false, if_false, add_zero]
      exact Function.update_of_ne (Ne.symm hday) _ _
  · have hskip : ¬ (D.backstop ≠ 0 ∧
        (x.settlement.fill.maker.owner = D.backstop ∨ x.settlement.fill.taker.owner = D.backstop)) := by
      rw [hback]
      exact fun hb => hside hb.2
    rw [backstopHook, if_neg hskip, pure_ok] at hhook
    subst hhook
    funext day
    simp only [Pi.add_apply, unwoundBy, hside, false_and, if_false, add_zero]
    rfl

theorem step_unwound (hback : D.backstop = D.insurance) (h : (machine D env).step w l w') :
    w'.insurance.unwoundOnDay = w.insurance.unwoundOnDay + (l.settled.map (unwoundBy D)).sum := by
  have heffect := exec_effect h.1 h.2
  generalize l.call.tx = tx at heffect
  generalize l.settled = settled at heffect ⊢
  cases heffect with
  | configured h =>
    rw [(execConfig_configures _ _ h).insurance]
    simp
  | charged _ h =>
    rw [h.insurance]
    simp
  | settled h =>
    exact h.accumulates (fun w => w.insurance.unwoundOnDay) (unwoundBy D) fun _ _ hone => settleOne_unwound hback hone
  | cancelled _ _ _ _ => simp [withCancels]
  | staked _ h hu =>
    rw [h.insurance, ← hu]
    simp
  | outside _ _ => simp

/-- **The day's counter is the day's unwinds.** -/
theorem run_unwound (hback : D.backstop = D.insurance) {w₀ : World} (h₀ : Genesis D w₀)
    (h : Run (machine D env) w₀ ls w) : w.insurance.unwoundOnDay = unwound D (history ls) := by
  induction h with
  | nil =>
    rw [h₀.insurance]
    rfl
  | snoc _ hl ih =>
    rw [step_unwound hback hl, ih]
    simp only [unwound, history_snoc, List.map_append, List.sum_append]

/-! ## Fills -/

theorem indexPrice_pos {m : MarketId} {index : Int} (h : Engine.indexPrice w m = .ok index) : 0 < index := by
  simp only [Engine.indexPrice, Engine.indexOf, OracleAdapter.getPrice, OracleAdapter.validate, bind_ok_iff, revertIf_ok,
    pure_ok, exists_const, not_le] at h
  obtain ⟨p, -, snap, ⟨-, -, -, ⟨hprice, -⟩, rfl⟩, rfl⟩ := h
  exact hprice

/-- The price and the caps a backstop fill was held to. -/
theorem settleOne_limits (hback : D.backstop = D.insurance) {x : Settled} (hside : x.TradesFor D.insurance)
    (h : settleOne D env x.before msg wallet x.settlement.fill = .ok (x.after, x.settlement)) :
    (∃ index, Engine.indexPrice x.before x.settlement.fill.maker.marketId = .ok index ∧
      |(x.settlement.fill.price : Int) - index| * 10000 ≤ index * x.before.insurance.maxUnwindDeviationBps) ∧
    x.settlement.notional ≤ x.before.insurance.maxUnwindFillNotional ∧
    x.before.insurance.unwoundOnDay x.day + x.settlement.notional ≤ x.before.insurance.maxUnwindDailyNotional := by
  obtain ⟨w₁, w₂, w₃, hs⟩ := settleOne_ok h
  have hnotional := hs.notional
  have hhook := hs.hook
  obtain ⟨-, rfl⟩ := consume_ok hs.maker
  obtain ⟨-, rfl⟩ := consume_ok hs.taker
  obtain ⟨index, band, notional, hindex, hband, hdev, hn, hcap, hdaily, -⟩ :=
    onBackstopFill_ok (backstopHook_ok hback hside hhook)
  obtain rfl := ok_unique hnotional hn
  refine ⟨⟨index, hindex, ?_⟩, hcap, hdaily⟩
  have hpos : 0 < index := indexPrice_pos hindex
  rw [M.applyBps_ok, Int.tdiv_eq_ediv_of_nonneg (mul_nonneg hpos.le (Int.natCast_nonneg _))] at hband
  rw [← hband.2] at hdev
  exact (mul_le_mul_of_nonneg_right hdev (by decide)).trans (Int.ediv_mul_le _ (by decide))

/-- **An order settled for Insurance is reduce-only.** -/
theorem settleOne_reduceOnly (hk : Keyless env D.insurance) {x : Settled} {s : Order × Bytes} (hs : s ∈ x.sides)
    (howner : s.1.owner = D.insurance)
    (hd : ∀ o ∈ carriedOrder s.2, env.hashOrder o = env.hashOrder s.1 → o = s.1)
    (h : settleOne D env x.before msg wallet x.settlement.fill = .ok (x.after, x.settlement)) :
    s.1.reduceOnly = true := by
  obtain ⟨w₁, w₂, w₃, hsteps⟩ := settleOne_ok h
  have hsigned : ∃ w : World, OrderLib.isValidSignature D env w msg wallet s.1.owner (env.hashOrder s.1) s.2 = true := by
    simp only [OrderGateway.Settled.sides, List.mem_cons, List.not_mem_nil, or_false] at hs
    rcases hs with rfl | rfl
    · exact ⟨_, (consume_ok hsteps.maker).1.signature⟩
    · exact ⟨_, (consume_ok hsteps.taker).1.signature⟩
  obtain ⟨w, hsigned⟩ := hsigned
  rw [howner] at hsigned
  obtain ⟨o, hcarried, hhash, hro⟩ := insurance_signs hk hsigned
  rw [← hd o hcarried hhash]
  exact hro

/-- **A fill for Insurance shrinks the position it trades.** -/
theorem settleOne_shrinks (hk : Keyless env D.insurance) {x : Settled} (hside : x.TradesFor D.insurance)
    (hd : ∀ s ∈ x.sides, s.1.owner = D.insurance → ∀ o ∈ carriedOrder s.2, env.hashOrder o = env.hashOrder s.1 → o = s.1)
    (h : settleOne D env x.before msg wallet x.settlement.fill = .ok (x.after, x.settlement)) :
    Shrinks (backstopSize D x.before x.settlement.fill.maker.marketId)
      (backstopSize D x.after x.settlement.fill.maker.marketId) := by
  obtain ⟨w₁, w₂, w₃, hs⟩ := settleOne_ok h
  obtain ⟨orderState, unwound, happly⟩ := settleOne_progress h
  rcases hside with howner | howner
  · have hmem : (x.settlement.fill.maker, x.settlement.fill.makerSignature) ∈ x.sides := List.mem_cons_self
    have hro := settleOne_reduceOnly hk hmem howner (hd _ hmem howner) h
    have hshrinks := apply_shrinks hs.distinct hs.market (Or.inl rfl) hro happly
    rwa [howner] at hshrinks
  · have hmem : (x.settlement.fill.taker, x.settlement.fill.takerSignature) ∈ x.sides :=
      List.mem_cons_of_mem _ List.mem_cons_self
    have hro := settleOne_reduceOnly hk hmem howner (hd _ hmem howner) h
    have hshrinks := apply_shrinks hs.distinct hs.market (Or.inr rfl) hro happly
    rwa [howner] at hshrinks

/-- **Backstop containment.** Every settled fill with Insurance on a side shrinks Insurance's position without flipping
it, at a price within the deviation then allowed from the index, for a notional within the fill's cap, with the day's
unwinds up to and including it within the daily cap. -/
theorem backstop_contained (hback : D.backstop = D.insurance) (hk : Keyless env D.insurance) {w₀ : World}
    (h₀ : Genesis D w₀) (h : Run (machine D env) w₀ ls w) (hd : UnwindsDistinct D env (history ls))
    {pre post : List Settled} {x : Settled} (hx : history ls = pre ++ x :: post) (hside : x.TradesFor D.insurance) :
    Shrinks (backstopSize D x.before x.settlement.fill.maker.marketId)
      (backstopSize D x.after x.settlement.fill.maker.marketId) ∧
    (∃ index, Engine.indexPrice x.before x.settlement.fill.maker.marketId = .ok index ∧
      |(x.settlement.fill.price : Int) - index| * 10000 ≤ index * x.before.insurance.maxUnwindDeviationBps) ∧
    x.settlement.notional ≤ x.before.insurance.maxUnwindFillNotional ∧
    unwound D (pre ++ [x]) x.day ≤ x.before.insurance.maxUnwindDailyNotional := by
  obtain ⟨ls₁, w₁, earlier, msg, wallet, hrun, rfl, hchain, hone⟩ := history_split h hx
  have hmem : x ∈ history ls := by
    rw [hx]
    exact List.mem_append_right _ List.mem_cons_self
  obtain ⟨hprice, hcap, hdaily⟩ := settleOne_limits hback hside hone
  refine ⟨settleOne_shrinks hk hside (hd x hmem) hone, hprice, hcap, ?_⟩
  have hbefore : x.before.insurance.unwoundOnDay = unwound D (history ls₁ ++ earlier) := by
    have hearlier := hchain.accumulates (fun w => w.insurance.unwoundOnDay) (unwoundBy D)
      fun _ _ hone => settleOne_unwound hback hone
    rw [hearlier, run_unwound hback h₀ hrun, unwound, unwound, List.map_append, List.sum_append]
  have hsum : unwound D (history ls₁ ++ earlier ++ [x]) x.day =
      unwound D (history ls₁ ++ earlier) x.day + x.settlement.notional := by
    simp only [unwound, List.map_append, List.sum_append, List.map_singleton, List.sum_singleton, Pi.add_apply,
      unwoundBy, hside, and_self, if_true]
  rw [hsum, ← hbefore]
  exact hdaily

/-- The last fill of the unwinding sample sells for Insurance. -/
theorem backstop_contained_unwinding :
    let ls := trace Sample.deployment Sample.env Sample.genesis Sample.unwinding
    ∃ pre x, history ls = pre ++ [x] ∧ x.TradesFor Sample.deployment.insurance ∧
      backstopSize Sample.deployment x.before 1 - backstopSize Sample.deployment x.after 1 = 4 * 10 ^ 18 ∧
      unwound Sample.deployment (pre ++ [x]) x.day ≤ x.before.insurance.maxUnwindDailyNotional := by
  intro ls
  have hne : history ls ≠ [] := by
    rw [← List.length_pos_iff_ne_nil]
    decide +kernel
  have hside : ((history ls).getLast hne).TradesFor Sample.deployment.insurance := by
    decide +kernel +revert
  have hsold : backstopSize Sample.deployment ((history ls).getLast hne).before 1 -
      backstopSize Sample.deployment ((history ls).getLast hne).after 1 = 4 * 10 ^ 18 := by
    clear hside
    decide +kernel +revert
  have hlast := (List.dropLast_append_getLast hne).symm
  have hrun := Sample.outcome_run Sample.unwinding (by decide +kernel)
  have hcontained := backstop_contained rfl (Sample.keyless .insurance) Sample.genesis_ok hrun (by decide +kernel) hlast
    hside
  exact ⟨_, _, hlast, hside, hsold, hcontained.2.2.2⟩

end Kryon
