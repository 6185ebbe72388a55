import Kryon.Deleveraging
import Kryon.Dust
/-!
# Custody — who can take from an account

An account that is no protocol contract keeps its balance and its positions unless it is touched: it withdraws itself, a
fill settles an order it signed, it is liquidated while liquidatable, or it is deleveraged while its position gains and
the backstop has a shortfall.  Whatever else happens, in whatever order, its balance never falls and its positions stay.
-/
namespace Kryon

open Program Transition
open Clearing (Event State.Kept)
open OrderGateway (Settled FillContext)

variable {D : Deployment} {env : Env} {w w' : World} {msg : Msg} {a : Address} {l : Label} {ls : List Label}

/-! ## Touching an account -/

/-- The account's key signed, or the account's own code says that it did. -/
def SignedBy (env : Env) (msg : Msg) (wallet : Address → Bytes32 → Bytes → Bool) (a : Address) (digest : Bytes32)
    (signature : Bytes) : Prop :=
  env.tryRecover digest signature = some a ∨ msg.hasCode a = true ∧ wallet a digest signature = true

/-- The two orders of a settled fill, with the signatures they came with. -/
def OrderGateway.Settled.signed (x : Settled) : List (Order × Bytes) :=
  [(x.settlement.fill.maker, x.settlement.fill.makerSignature),
    (x.settlement.fill.taker, x.settlement.fill.takerSignature)]

/-- The account's position in a market gains at the index, and the backstop has a shortfall the gain may pay. -/
def Deleverageable (D : Deployment) (w : World) (a : Address) (marketId : MarketId) : Prop :=
  ∃ shortfall price n, Insurance.unfundedShortfall D w = .ok shortfall ∧ 0 < shortfall ∧
    Engine.indexPrice w marketId = .ok price ∧
    RiskLib.notional |(w.engine.positions (a, marketId)).size| price = .ok n ∧
    (w.engine.positions (a, marketId)).openNotional < (if (w.engine.positions (a, marketId)).size > 0 then 1 else -1) * n

/-- The steps that may lower an account's balance or change its positions. -/
inductive Touches (D : Deployment) (env : Env) (w : World) (l : Label) (a : Address) : Prop where
  | withdraws {recipient : Address} {amount : Nat} (htx : l.call.tx = .withdrawTo recipient amount)
      (hsender : l.call.msg.sender = a)
  | trades {fills : List (Fill × FillContext)} {x : Settled} {p : Order × Bytes} {ctx : FillContext}
      (htx : l.call.tx = .settleFillsSigned fills) (hx : x ∈ l.settled) (hctx : (x.settlement.fill, ctx) ∈ fills)
      (hp : p ∈ x.signed) (howner : p.1.owner = a)
      (hsigned : SignedBy env l.call.msg ctx.wallet a (env.hashOrder p.1) p.2)
  | liquidated {marketId : MarketId} {maxSize : Nat} {h : AccountHealth}
      (htx : l.call.tx = .liquidate a marketId maxSize) (hh : Engine.accountHealth w a = .ok h)
      (hl : h.liquidatable = true)
  | deleveraged {marketId : MarketId} {maxSize : Nat} (htx : l.call.tx = .adl a marketId maxSize)
      (h : Deleverageable D w a marketId)

theorem isValidSignature_signedBy {wallet : Address → Bytes32 → Bytes → Bool} {digest : Bytes32} {signature : Bytes}
    (ha : ¬ D.IsProtocol a) (h : OrderLib.isValidSignature D env w msg wallet a digest signature = true) :
    SignedBy env msg wallet a digest signature := by
  have hins : a ≠ D.insurance := fun he => ha ⟨.insurance, he.symm⟩
  unfold OrderLib.isValidSignature at h
  split at h
  · rename_i hkey
    exact Or.inl hkey
  · split at h
    · exact absurd h Bool.false_ne_true
    · rename_i hcode
      rw [OrderLib.isValidERC1271Signature, if_neg hins, if_neg ha] at h
      exact Or.inr ⟨by simpa [ha] using hcode, h⟩

/-- **Every settled fill of a batch was submitted in it**, and settled with its own context's answers. -/
theorem Batch.mem {fills : List (Fill × FillContext)} {settled : List Settled}
    (h : Batch D env msg w fills settled w') {x : Settled} (hx : x ∈ settled) :
    ∃ ctx, (x.settlement.fill, ctx) ∈ fills ∧
      OrderGateway.settleOne D env x.before msg ctx.wallet x.settlement.fill = .ok (x.after, x.settlement) := by
  induction h with
  | nil w => exact absurd hx List.not_mem_nil
  | failed _ _ ih =>
    obtain ⟨ctx, hctx, hone⟩ := ih hx
    exact ⟨ctx, List.mem_cons_of_mem _ hctx, hone⟩
  | settled hone _ ih =>
    rcases List.mem_cons.1 hx with rfl | hx
    · exact ⟨_, List.mem_cons_self, hone⟩
    · obtain ⟨ctx, hctx, hone'⟩ := ih hx
      exact ⟨ctx, List.mem_cons_of_mem _ hctx, hone'⟩

theorem settleOne_signed {wallet : Address → Bytes32 → Bytes → Bool} {x : Settled} (ha : ¬ D.IsProtocol a)
    (h : OrderGateway.settleOne D env x.before msg wallet x.settlement.fill = .ok (x.after, x.settlement)) :
    ∀ p ∈ x.signed, p.1.owner = a → SignedBy env msg wallet a (env.hashOrder p.1) p.2 := by
  obtain ⟨w₁, w₂, w₃, hs⟩ := settleOne_ok h
  have hmaker := (consume_ok hs.maker).1.signature
  have htaker := (consume_ok hs.taker).1.signature
  simp only [Settled.signed, List.forall_mem_cons]
  refine ⟨?_, ?_, fun _ h => absurd h List.not_mem_nil⟩
  · intro howner
    rw [howner] at hmaker
    exact isValidSignature_signedBy ha hmaker
  · intro howner
    rw [howner] at htaker
    exact isValidSignature_signedBy ha htaker

theorem adl_deleverageable {marketId : MarketId} {maxSize : Nat}
    (h : Liquidation.adl D w a marketId maxSize = .ok w') : Deleverageable D w a marketId := by
  obtain ⟨shortfall, closeSize, price, -, -, -, hclose, -⟩ := Liquidation.adl_ok h
  simp only [Liquidation.adlClose, bind_ok_iff, World.whenNotPaused_ok, revertIf_ok, exists_const, pure_ok,
    Prod.mk.injEq, not_le, M.abs_eq, sub_pos] at hclose
  obtain ⟨-, -, -, _, hshort, hpos, -, -, _, hprice, n, hn, hgain, _, -, -, rfl, -, rfl⟩ := hclose
  exact ⟨_, _, n, hshort, hpos, hprice, hn, hgain⟩

/-! ## One step -/

section Kept
variable (ha : ¬ D.IsProtocol a)
include ha

theorem ne_of_not_protocol (c : Contract) : D.address c ≠ a := fun h => ha ⟨c, h⟩

theorem clears_kept {es : List (Event Address MarketId)} (h : Clears D w es w') (hes : ∀ e ∈ es, e.Spares a) :
    (books D w).Kept a (books D w') :=
  Clearing.run_kept (fun he => ha ⟨.engine, he.symm⟩) h hes

theorem chain_kept {settled : List Settled} (h : Chain D env msg w settled w')
    (hs : ∀ x ∈ settled, ∀ p ∈ x.signed, p.1.owner ≠ a) : (books D w).Kept a (books D w') := by
  induction h with
  | nil w => exact State.Kept.refl a _
  | @cons x settled w' wallet hone _ ih =>
    have hx := hs x List.mem_cons_self
    simp only [Settled.signed, List.forall_mem_cons] at hx
    obtain ⟨d, v, toInsurance, hrun⟩ := settleOne_clears hone
    refine (clears_kept ha hrun ?_).trans (ih fun y hy => hs y (List.mem_cons_of_mem _ hy))
    simp only [feeEvents, List.forall_mem_cons, Event.Spares]
    exact ⟨⟨hx.1, hx.2.1⟩, hx.2.1, hx.1, ne_of_not_protocol ha .feeRouter, ne_of_not_protocol ha .feeRouter,
      fun _ h => absurd h List.not_mem_nil⟩

theorem liquidate_kept {marketId : MarketId} {maxSize : Nat} {trader : Address} (ht : trader ≠ a)
    (h : Liquidation.liquidate D w msg trader marketId maxSize = .ok w') : (books D w).Kept a (books D w') := by
  obtain ⟨-, -, -, d, v, reward, rest, share, cover, -, -, -, -, hrun⟩ := liquidate_clears h
  refine clears_kept ha hrun ?_
  simp only [List.forall_mem_cons, Event.Spares]
  exact ⟨⟨ht, ne_of_not_protocol ha .insurance⟩, ht, ht, ne_of_not_protocol ha .feeRouter,
    ne_of_not_protocol ha .insurance, fun _ h => absurd h List.not_mem_nil⟩

theorem adl_kept {marketId : MarketId} {maxSize : Nat} {counterparty : Address} (hc : counterparty ≠ a)
    (h : Liquidation.adl D w counterparty marketId maxSize = .ok w') : (books D w).Kept a (books D w') := by
  obtain ⟨-, -, -, d, v, haircut, -, hrun⟩ := adl_clears h
  refine clears_kept ha hrun ?_
  simp only [List.forall_mem_cons, Event.Spares]
  exact ⟨⟨hc, ne_of_not_protocol ha .insurance⟩, hc, fun _ h => absurd h List.not_mem_nil⟩

theorem credit_kept {account : Address} {x : Int} (hx : 0 ≤ x) (h : Clears D w [.credit account x] w') :
    (books D w).Kept a (books D w') := by
  refine clears_kept ha h ?_
  simp only [List.forall_mem_singleton, Event.Spares]
  exact fun _ => hx

theorem withdrawal_kept {account recipient : Address} {amount : Nat} (hne : account ≠ a)
    (h : Clears D w [.credit account (-(amount * Decimals.SCALE)), .donate (returned D recipient amount)] w') :
    (books D w).Kept a (books D w') := by
  refine clears_kept ha h ?_
  simp only [List.forall_mem_cons, Event.Spares, true_and]
  exact ⟨fun he => absurd he hne, fun _ h => absurd h List.not_mem_nil⟩

/-- **A step that does not touch an account keeps its balance and its positions.** -/
theorem step_kept (h : (machine D env).step w l w') (hu : ¬ Touches D env w l a) :
    (books D w).Kept a (books D w') := by
  obtain ⟨hadm, hexec⟩ := h
  have hran := exec_ran hexec
  obtain ⟨⟨msg, tx⟩, settled⟩ := l
  have hsender : ∀ c, msg.sender ≠ D.address c := fun c hc => hadm.1 ⟨c, hc.symm⟩
  have hscaled : ∀ amount : Nat, (0 : Int) ≤ amount * Decimals.SCALE := fun _ =>
    mul_nonneg (Int.natCast_nonneg _) (Int.natCast_nonneg _)
  have hsame : ∀ {w' : World}, books D w' = books D w → (books D w).Kept a (books D w') := by
    intro w' hb
    rw [hb]
    exact State.Kept.refl a _
  cases hran with
  | config h => exact hsame (execConfig_configures _ _ h).books
  | deposit h | depositFor h | depositWithPermit2 h =>
    exact credit_kept ha (hscaled _) (pullAndCredit_clears (hsender .vault) h).2.2.2
  | withdrawTo h =>
    have hne : msg.sender ≠ a := fun he => hu (.withdraws rfl he)
    exact withdrawal_kept ha hne (withdrawTo_clears h).2.2.2
  | updateFunding h =>
    obtain ⟨-, δ, hrun⟩ := updateFunding_clears (D := D) h
    exact clears_kept ha hrun fun e he => by rw [List.mem_singleton.1 he]; trivial
  | settleFillsSigned h =>
    refine chain_kept ha h.chain fun x hx p hp howner => ?_
    obtain ⟨ctx, hctx, hone⟩ := h.mem hx
    exact hu (.trades rfl hx hctx hp howner (settleOne_signed ha hone p hp howner))
  | cancel _ _ _ _ _ => exact hsame rfl
  | donate h | stake h _ => exact credit_kept ha (hscaled _) (pullIntoVault_clears (hsender .vault) h).2.2
  | pool _ _ => exact hsame rfl
  | redeem _ h =>
    exact withdrawal_kept ha (ne_of_not_protocol ha .insurance) (Cleared.of_books rfl (withdrawTo_clears h).2.2.2)
  | settleBadDebt _ =>
    refine clears_kept ha (coveredWorld_clears _).2.2 fun e he => ?_
    rw [List.mem_singleton.1 he]
    exact ne_of_not_protocol ha .insurance
  | @liquidate trader marketId maxSize _ h =>
    refine liquidate_kept ha (fun ht => ?_) h
    subst ht
    obtain ⟨before, hh, hl⟩ := liquidate_liquidatable h
    exact hu (.liquidated rfl hh hl)
  | @adl counterparty marketId maxSize _ h =>
    refine adl_kept ha (fun hc => ?_) h
    subst hc
    exact hu (.deleveraged rfl (adl_deleverageable h))
  | claimTreasury _ h | claimReferral _ h =>
    exact withdrawal_kept ha (ne_of_not_protocol ha .feeRouter) (Cleared.of_books rfl (withdrawTo_clears h).2.2.2)
  | claimNothing _ => exact hsame rfl
  | moveUsdc balances => exact ⟨le_refl _, fun _ => rfl, fun _ => rfl, fun _ => rfl⟩
  | wait seconds => exact hsame rfl

end Kept

/-! ## Runs -/

theorem kept_positions (h : (books D w).Kept a (books D w')) (m : MarketId) :
    w'.engine.positions (a, m) = w.engine.positions (a, m) := by
  have hsize : (w'.engine.positions (a, m)).size = (w.engine.positions (a, m)).size := h.size m
  have hbasis : (w'.engine.positions (a, m)).openNotional = (w.engine.positions (a, m)).openNotional := h.basis m
  have hlast : (w'.engine.positions (a, m)).lastFundingIndex = (w.engine.positions (a, m)).lastFundingIndex := h.last m
  generalize w'.engine.positions (a, m) = p at *
  generalize w.engine.positions (a, m) = q at *
  cases p
  cases q
  simp_all

/-- **Custody.** Whatever run of the protocol lowered an account's balance or changed one of its positions, the account
was touched in it: at that step it withdrew itself, a fill settled an order that it had signed, it was liquidatable and
liquidated, or it was in profit and deleveraged against a shortfall; and until that step it had lost nothing. -/
theorem custody (ha : ¬ D.IsProtocol a) (h : Run (machine D env) w ls w')
    (hloss : w'.vault.balances a < w.vault.balances a ∨ ∃ m, w'.engine.positions (a, m) ≠ w.engine.positions (a, m)) :
    ∃ before u l v after, ls = before ++ l :: after ∧ Run (machine D env) w before u ∧ (machine D env).step u l v ∧
      Run (machine D env) v after w' ∧ Touches D env u l a ∧ w.vault.balances a ≤ u.vault.balances a ∧
      ∀ m, u.engine.positions (a, m) = w.engine.positions (a, m) := by
  have hbroken : ¬ (books D w).Kept a (books D w') := by
    rintro hk
    rcases hloss with hlt | ⟨m, hne⟩
    · exact absurd hk.bal (not_le.2 hlt)
    · exact hne (kept_positions hk m)
  obtain ⟨before, u, l, v, after, hls, hbefore, hstep, hafter, hk, -, htouch⟩ :=
    h.breaks (fun u => (books D w).Kept a (books D u)) (fun u l => Touches D env u l a)
      (fun _ _ _ hu hk hl => hk.trans (step_kept ha hl hu)) (State.Kept.refl a _) hbroken
  exact ⟨before, u, l, v, after, hls, hbefore, hstep, hafter, htouch, hk.bal, kept_positions hk⟩

theorem custody_liquidating : ∃ before u l v after,
    trace Sample.deployment Sample.env Sample.genesis Sample.liquidating = before ++ l :: after ∧
      Run (machine Sample.deployment Sample.env) Sample.genesis before u ∧
      (machine Sample.deployment Sample.env).step u l v ∧
      Run (machine Sample.deployment Sample.env) v after (Sample.outcome Sample.liquidating) ∧
      Touches Sample.deployment Sample.env u l Sample.alice ∧
      Sample.genesis.vault.balances Sample.alice ≤ u.vault.balances Sample.alice ∧
      ∀ m, u.engine.positions (Sample.alice, m) = Sample.genesis.engine.positions (Sample.alice, m) :=
  custody (by decide) (Sample.outcome_run Sample.liquidating (by decide +kernel))
    (Or.inr ⟨1, by decide +kernel⟩)

end Kryon
