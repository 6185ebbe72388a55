import Kryon.Books
/-!
# Settlement — what a settled fill checked and did

`settleOne` consumes both orders, holds a backstop fill to its limits, trades both sides and charges the fees.  A batch is
the chain of its settled fills (`Chain`): a fill that fails leaves the world it started on (`Batch`).
-/
namespace Kryon

open Program
open Function (update)
open Clearing (Event Step)
open Transition
open OrderGateway

variable {D : Deployment} {env : Env} {w w' : World} {msg : Msg} {wallet : Address → Bytes32 → Bytes → Bool}

/-! ## Orders -/

/-- The word a nonce holds once `amount` more is filled under `digest`. -/
def boundState (state : Nat) (digest : Bytes32) (amount : Nat) : Nat :=
  digestPrefix digest <<< 128 ||| (state % 2 ^ 128 + amount)

def withOrderState (w : World) (key : Address × Nat) (state : Nat) : World :=
  { w with gateway := { w.gateway with orderState := update w.gateway.orderState key state } }

def withUnwound (w : World) (total : Int) : World :=
  let day := w.timestamp / Insurance.DAY
  { w with insurance := { w.insurance with unwoundOnDay := update w.insurance.unwoundOnDay day total } }

/-- Everything `consume` checks of an order. -/
structure Consumable (D : Deployment) (env : Env) (w : World) (msg : Msg)
    (wallet : Address → Bytes32 → Bytes → Bool) (o : Order) (digest : Bytes32) (signature : Bytes)
    (fillSize fillPrice : Nat) : Prop where
  owner : o.owner ≠ 0
  unexpired : w.timestamp ≤ o.expiry
  lifetime : o.expiry ≤ w.timestamp + MAX_ORDER_TTL
  nonce : w.gateway.minNonce o.owner ≤ o.nonce
  uncancelled : w.gateway.cancelled (o.owner, o.nonce) = false
  bound : w.gateway.orderState (o.owner, o.nonce) ≠ 0 →
    orderPrefixForNonce w.gateway o.owner o.nonce = digestPrefix digest
  size : filled w.gateway o.owner o.nonce + fillSize ≤ o.size
  fits : filled w.gateway o.owner o.nonce + fillSize < 2 ^ 128
  limit : outsideLimit o fillPrice = false
  signature : OrderLib.isValidSignature D env w msg wallet o.owner digest signature = true

theorem consume_ok {o : Order} {digest : Bytes32} {signature : Bytes} {fillSize fillPrice : Nat}
    (h : consume D env w msg wallet o digest signature fillSize fillPrice = .ok w') :
    Consumable D env w msg wallet o digest signature fillSize fillPrice ∧
      w' = withOrderState w (o.owner, o.nonce)
        (boundState (w.gateway.orderState (o.owner, o.nonce)) digest fillSize) := by
  simp only [consume, bind_ok_iff, revertIf_ok, Vault.addU256, pure_ok, exists_const, not_lt, gt_iff_lt,
    Bool.not_eq_true, Bool.not_eq_false] at h
  obtain ⟨howner, -, hexp, httl, hnonce, hbound, _, ⟨-, rfl⟩, hsize, hfits, hlimit, hsig, rfl⟩ := h
  rw [not_or, not_lt, Bool.not_eq_true] at hnonce
  refine ⟨⟨howner, hexp, httl, hnonce.1, hnonce.2, fun h0 => ?_, hsize, ?_, hlimit, hsig⟩, rfl⟩
  · by_contra hne
    exact hbound ⟨h0, hne⟩
  · simp only [filled]
    omega

/-- **Only an account with a key or with wallet code signs**: a protocol contract other than Insurance never does. -/
theorem signer_ne {c : Contract} (hc : c ≠ .insurance) (hkey : ∀ d s, env.tryRecover d s ≠ some (D.address c))
    {owner : Address} {digest : Bytes32} {signature : Bytes}
    (h : OrderLib.isValidSignature D env w msg wallet owner digest signature = true) : owner ≠ D.address c := by
  rintro rfl
  have hprot : D.IsProtocol (D.address c) := ⟨c, rfl⟩
  have hins : D.address c ≠ D.insurance := D.address_ne hc
  simp [OrderLib.isValidSignature, OrderLib.isValidERC1271Signature, hkey digest signature, hprot, hins] at h

/-! ## One fill -/

theorem onBackstopFill_ok {caller : Address} {marketId : MarketId} {size price : Nat}
    (h : Insurance.onBackstopFill D w caller marketId size price = .ok w') :
    ∃ index band notional, Engine.indexPrice w marketId = .ok index ∧
      M.applyBps index w.insurance.maxUnwindDeviationBps = .ok band ∧ |(price : Int) - index| ≤ band ∧
      M.mulPrecision size price = .ok notional ∧ notional ≤ w.insurance.maxUnwindFillNotional ∧
      w.insurance.unwoundOnDay (w.timestamp / Insurance.DAY) + notional ≤ w.insurance.maxUnwindDailyNotional ∧
      w' = withUnwound w (w.insurance.unwoundOnDay (w.timestamp / Insurance.DAY) + notional) := by
  simp only [Insurance.onBackstopFill, bind_ok_iff, revertIf_ok, M.toInt_ok, pure_ok, exists_const, not_lt, gt_iff_lt,
    M.abs_eq] at h
  obtain ⟨-, -, _, ⟨-, rfl⟩, index, hindex, band, hband, hdev, _, ⟨-, rfl⟩, n, hn, hcap, hday, rfl⟩ := h
  exact ⟨index, band, n, hindex, hband, hdev, hn, hcap, hday, rfl⟩

theorem backstopHook_frame {f : Fill} (h : backstopHook D w f = .ok w') :
    ∃ u, w' = { w with insurance := { w.insurance with unwoundOnDay := u } } := by
  unfold backstopHook at h
  split at h
  · obtain ⟨_, _, _, -, -, -, -, -, -, rfl⟩ := onBackstopFill_ok h
    exact ⟨_, rfl⟩
  · rw [pure_ok] at h
    exact ⟨w.insurance.unwoundOnDay, h.symm⟩

/-- The steps of a settled fill. -/
structure SettlesOne (D : Deployment) (env : Env) (w : World) (msg : Msg)
    (wallet : Address → Bytes32 → Bytes → Bool) (f : Fill) (st : Settlement) (w₁ w₂ w₃ w' : World) : Prop where
  settlement : st = ⟨f, env.hashOrder f.maker, env.hashOrder f.taker, st.notional, st.quote⟩
  size : f.size ≠ 0
  distinct : f.maker.owner ≠ f.taker.owner
  market : f.maker.marketId = f.taker.marketId
  opposite : f.maker.isLong ≠ f.taker.isLong
  maker : consume D env w msg wallet f.maker (env.hashOrder f.maker) f.makerSignature f.size f.price = .ok w₁
  taker : consume D env w₁ msg wallet f.taker (env.hashOrder f.taker) f.takerSignature f.size f.price = .ok w₂
  notional : M.mulPrecision f.size f.price = .ok st.notional
  hook : backstopHook D w₂ f = .ok w₃
  applied : OrderGateway.apply D w₃ f st.notional = .ok (w', st.quote)

theorem settleOne_ok {f : Fill} {st : Settlement} (h : settleOne D env w msg wallet f = .ok (w', st)) :
    ∃ w₁ w₂ w₃, SettlesOne D env w msg wallet f st w₁ w₂ w₃ w' := by
  simp only [settleOne, validateFill, checkNotional, bind_ok_iff, revertIf_ok, pure_ok, M.toInt_ok, Prod.mk.injEq,
    exists_const, not_or, not_not] at h
  obtain ⟨⟨hsize, hself, hmarket, hside⟩, w₁, hmaker, w₂, htaker, n, ⟨_, ⟨-, rfl⟩, _, ⟨-, rfl⟩, n', hn, m, -, -, rfl⟩, w₃,
    hhook, ⟨w₄, q⟩, happly, rfl, rfl⟩ := h
  exact ⟨w₁, w₂, w₃, rfl, hsize.1, hself, hmarket.2, hside, hmaker, htaker, hn, hhook, happly⟩

theorem apply_ok {f : Fill} {notional : Int} {q : FeeRouter.Quote}
    (h : OrderGateway.apply D w f notional = .ok (w', q)) :
    ∃ w₁ makerIncreased w₂ takerIncreased,
      Engine.applyFill D w D.gateway f.maker.owner f.maker.marketId f.maker.isLong f.size f.price notional
        f.maker.reduceOnly = .ok (w₁, makerIncreased) ∧
      Engine.applyFill D w₁ D.gateway f.taker.owner f.taker.marketId f.taker.isLong f.size f.price notional
        f.taker.reduceOnly = .ok (w₂, takerIncreased) ∧
      FeeRouter.chargeFill D w₂ D.gateway f.maker.marketId f.maker.owner f.taker.owner notional f.maker.referrer
        f.taker.referrer = .ok (w', q) := by
  simp only [OrderGateway.apply, bind_ok_iff, M.toInt_ok, pure_ok, Prod.mk.injEq] at h
  obtain ⟨_, ⟨-, rfl⟩, _, ⟨-, rfl⟩, ⟨w₁, mi⟩, hmaker, ⟨w₂, ti⟩, htaker, ⟨w₃, q'⟩, hcharge, _, -, _, -, rfl, rfl⟩ := h
  exact ⟨w₁, mi, w₂, ti, hmaker, htaker, hcharge⟩

/-- **A fill is one trade between maker and taker, and the fees' transfers.** -/
theorem apply_clears {f : Fill} {notional : Int} {q : FeeRouter.Quote} (hmarket : f.maker.marketId = f.taker.marketId)
    (hside : f.maker.isLong ≠ f.taker.isLong) (h : OrderGateway.apply D w f notional = .ok (w', q)) :
    Charges w w' ∧ ∃ d v toInsurance, Clears D w (.trade f.maker.owner f.taker.owner f.maker.marketId d v ::
      feeEvents D f.maker.owner f.taker.owner q toInsurance) w' := by
  obtain ⟨w₁, mi, w₂, ti, hmaker, htaker, hcharge⟩ := apply_ok h
  have hpos := (Engine.applyFill_ok hmaker).1
  obtain ⟨hm₁, hleg₁⟩ := applyFill_leg hmaker
  obtain ⟨hm₂, hleg₂⟩ := applyFill_leg htaker
  obtain ⟨hm₃, -, toInsurance, hrun⟩ := chargeFill_clears hcharge
  have hd : Engine.fillDelta f.taker.isLong f.size = -Engine.fillDelta f.maker.isLong f.size := by
    unfold Engine.fillDelta
    cases hl : f.maker.isLong <;> cases ht : f.taker.isLong <;> simp_all
  have hnz : Engine.fillDelta f.maker.isLong f.size ≠ 0 := by
    unfold Engine.fillDelta
    split <;> omega
  rw [hd, Engine.signedValue_neg hnz, ← hmarket] at hleg₂
  exact ⟨(hm₁.trans hm₂).charges.trans hm₃, _, _, toInsurance, (Run.single (Step.trade hleg₁ hleg₂)).append hrun⟩

theorem settleOne_clears {f : Fill} {st : Settlement} (h : settleOne D env w msg wallet f = .ok (w', st)) :
    ∃ d v toInsurance, Clears D w (.trade f.maker.owner f.taker.owner f.maker.marketId d v ::
      feeEvents D f.maker.owner f.taker.owner st.quote toInsurance) w' := by
  obtain ⟨w₁, w₂, w₃, hs⟩ := settleOne_ok h
  obtain ⟨-, rfl⟩ := consume_ok hs.maker
  obtain ⟨-, rfl⟩ := consume_ok hs.taker
  obtain ⟨u, rfl⟩ := backstopHook_frame hs.hook
  exact (apply_clears hs.market hs.opposite hs.applied).2

/-- The world once a fill's orders and its day's counter are booked. -/
def withProgress (w : World) (orderState : Address × Nat → Nat) (unwound : Nat → Int) : World :=
  { w with
    gateway := { w.gateway with orderState := orderState }
    insurance := { w.insurance with unwoundOnDay := unwound } }

/-- **A settled fill books its orders' progress and the day's counter, and then applies its trade.** -/
theorem settleOne_progress {f : Fill} {st : Settlement} (h : settleOne D env w msg wallet f = .ok (w', st)) :
    ∃ orderState unwound, OrderGateway.apply D (withProgress w orderState unwound) f st.notional = .ok (w', st.quote) := by
  obtain ⟨w₁, w₂, w₃, hs⟩ := settleOne_ok h
  obtain ⟨-, rfl⟩ := consume_ok hs.maker
  obtain ⟨-, rfl⟩ := consume_ok hs.taker
  obtain ⟨u, rfl⟩ := backstopHook_frame hs.hook
  exact ⟨_, u, hs.applied⟩

theorem settleOne_owners {f : Fill} {st : Settlement} {c : Contract} (hc : c ≠ .insurance)
    (hk : Keyless env (D.address c)) (h : settleOne D env w msg wallet f = .ok (w', st)) :
    f.maker.owner ≠ D.address c ∧ f.taker.owner ≠ D.address c := by
  obtain ⟨w₁, w₂, w₃, hs⟩ := settleOne_ok h
  exact ⟨signer_ne hc hk (consume_ok hs.maker).1.signature, signer_ne hc hk (consume_ok hs.taker).1.signature⟩

theorem settleOne_charges {f : Fill} {st : Settlement} (h : settleOne D env w msg wallet f = .ok (w', st)) :
    ∃ orderState unwound, Charges (withProgress w orderState unwound) w' := by
  obtain ⟨orderState, unwound, happly⟩ := settleOne_progress h
  obtain ⟨w₁, w₂, w₃, hs⟩ := settleOne_ok h
  exact ⟨orderState, unwound, (apply_clears hs.market hs.opposite happly).1⟩

/-! ## Batches -/

/-- The settled fills of a batch, each starting where the one before ended. -/
inductive Chain (D : Deployment) (env : Env) (msg : Msg) : World → List Settled → World → Prop where
  | nil (w : World) : Chain D env msg w [] w
  | cons {x : Settled} {l : List Settled} {w' : World} (wallet : Address → Bytes32 → Bytes → Bool)
      (h : settleOne D env x.before msg wallet x.settlement.fill = .ok (x.after, x.settlement))
      (hl : Chain D env msg x.after l w') : Chain D env msg x.before (x :: l) w'

theorem settleOne_fill {f : Fill} {st : Settlement} (h : settleOne D env w msg wallet f = .ok (w', st)) :
    st.fill = f := by
  obtain ⟨_, _, _, hs⟩ := settleOne_ok h
  rw [hs.settlement]

/-- Every fill of a batch in turn: it failed and left the world as it was, or it settled. -/
inductive Batch (D : Deployment) (env : Env) (msg : Msg) :
    World → List (Fill × FillContext) → List Settled → World → Prop where
  | nil (w : World) : Batch D env msg w [] [] w
  | failed {w w' : World} {f : Fill} {ctx : FillContext} {fills : List (Fill × FillContext)} {l : List Settled}
      (h : ctx.gas = .innerOutOfGas ∨ ∃ e, settleOne D env w msg ctx.wallet f = .error e)
      (hl : Batch D env msg w fills l w') : Batch D env msg w ((f, ctx) :: fills) l w'
  | settled {x : Settled} {ctx : FillContext} {fills : List (Fill × FillContext)} {l : List Settled} {w' : World}
      (h : settleOne D env x.before msg ctx.wallet x.settlement.fill = .ok (x.after, x.settlement))
      (hl : Batch D env msg x.after fills l w') :
      Batch D env msg x.before ((x.settlement.fill, ctx) :: fills) (x :: l) w'

/-- **A batch that returns took its fills one after another**, and none that failed left a trace. -/
theorem settleFills_batch : ∀ (fills : List (Fill × FillContext)) (w w' : World) (settled : List Settled),
    settleFills D env msg w fills = .ok (w', settled) → Batch D env msg w fills settled w'
  | [], w, w', settled, h => by
    simp only [settleFills, pure_ok, Prod.mk.injEq] at h
    obtain ⟨rfl, rfl⟩ := h
    exact .nil w
  | (f, ctx) :: fills, w, w', settled, h => by
    unfold settleFills at h
    split at h
    · exact absurd h (by simp)
    · exact absurd h (by simp)
    · rename_i hgas
      exact .failed (Or.inl hgas) (settleFills_batch fills w w' settled h)
    · split at h
      · rename_i e he
        exact .failed (Or.inr ⟨e, he⟩) (settleFills_batch fills w w' settled h)
      · rename_i w₁ st hone
        simp only [bind_ok_iff, pure_ok, Prod.mk.injEq] at h
        obtain ⟨⟨w₂, l⟩, hrest, rfl, rfl⟩ := h
        obtain rfl := settleOne_fill hone
        exact .settled (x := ⟨w, st, w₁⟩) hone (settleFills_batch fills w₁ w₂ l hrest)

/-- **A batch leaves the world its settled fills lead to, one after another.** -/
theorem Batch.chain {fills : List (Fill × FillContext)} {settled : List Settled}
    (h : Batch D env msg w fills settled w') : Chain D env msg w settled w' := by
  induction h with
  | nil w => exact .nil w
  | failed _ _ ih => exact ih
  | settled h _ ih => exact .cons _ h ih

/-- **What every settled fill relates, a chain relates.** -/
theorem Chain.relates {settled : List Settled} (R : World → World → Prop) (hrefl : ∀ w, R w w)
    (htrans : ∀ a b c, R a b → R b c → R a c)
    (hone : ∀ w wallet f w' st, settleOne D env w msg wallet f = .ok (w', st) → R w w')
    (h : Chain D env msg w settled w') : R w w' := by
  induction h with
  | nil w => exact hrefl w
  | cons wallet h _ ih => exact htrans _ _ _ (hone _ _ _ _ _ h) ih

/-- **Every settled fill of a chain settled in a world the fills before it led to.** -/
theorem Chain.mem {settled : List Settled} (h : Chain D env msg w settled w') {x : Settled} (hx : x ∈ settled) :
    ∃ earlier wallet, Chain D env msg w earlier x.before ∧
      settleOne D env x.before msg wallet x.settlement.fill = .ok (x.after, x.settlement) := by
  induction h with
  | nil w => exact absurd hx List.not_mem_nil
  | cons wallet h _ ih =>
    rcases List.mem_cons.1 hx with rfl | hx
    · exact ⟨[], wallet, Chain.nil _, h⟩
    · obtain ⟨earlier, wallet', hc, hone⟩ := ih hx
      exact ⟨_ :: earlier, wallet', Chain.cons wallet h hc, hone⟩

theorem settleOne_quote {f : Fill} {st : Settlement} (h : settleOne D env w msg wallet f = .ok (w', st)) :
    FeeRouter.quote w.feeRouter f.maker.marketId f.maker.owner f.taker.owner st.notional = .ok st.quote := by
  obtain ⟨orderState, unwound, happly⟩ := settleOne_progress h
  obtain ⟨w₁, mi, w₂, ti, hfill₁, hfill₂, hcharge⟩ := apply_ok happly
  have hfees : w₂.feeRouter = w.feeRouter :=
    (applyFill_leg hfill₂).1.feeRouter.trans (applyFill_leg hfill₁).1.feeRouter
  rw [← hfees]
  exact (chargeFill_ok hcharge).1

end Kryon
