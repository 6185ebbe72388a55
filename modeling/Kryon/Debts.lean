import Kryon.FeeLedger
import Kryon.Sample
/-!
# Debts — the recorded debts against the balances they stand for

Insurance records what a closed-out account still owes, and a deposit that repays a negative balance shrinks the record.
A credit that is no deposit does not: the record stays while the account recovers.  So the records are backed by negative
balances along every run whose fills, liquidations and deleveragings spare the accounts with a record.
-/
namespace Kryon

open Program
open Function (update)
open Clearing (Event)
open Transition

variable {D : Deployment} {env : Env} {w w' : World} {msg : Msg}

/-! ## The record -/

/-- Only `t`'s record was written, and `debt` is on it. -/
structure Rerecords (w w' : World) (t : Address) (debt : Int) : Prop where
  recorded : w'.insurance.recordedDebt = update w.insurance.recordedDebt t debt
  badDebt : w'.insurance.badDebt = w.insurance.badDebt - w.insurance.recordedDebt t + debt

/-- No record was written. -/
structure SameDebts (w w' : World) : Prop where
  recorded : w'.insurance.recordedDebt = w.insurance.recordedDebt
  badDebt : w'.insurance.badDebt = w.insurance.badDebt

theorem SameDebts.trans {w₁ w₂ w₃ : World} (h : SameDebts w₁ w₂) (h' : SameDebts w₂ w₃) : SameDebts w₁ w₃ :=
  ⟨h'.recorded.trans h.recorded, h'.badDebt.trans h.badDebt⟩

theorem sameDebts_of_insurance (h : w'.insurance = w.insurance) : SameDebts w w' := ⟨by rw [h], by rw [h]⟩

theorem SameDebts.rerecords (h : SameDebts w w') (t : Address) : Rerecords w w' t (w.insurance.recordedDebt t) := by
  refine ⟨by rw [h.recorded, Function.update_eq_self], ?_⟩
  rw [h.badDebt]
  omega

theorem Rerecords.of_same {w₁ : World} {t : Address} {debt : Int} (h : SameDebts w w₁) (h' : Rerecords w₁ w' t debt) :
    Rerecords w w' t debt :=
  ⟨by rw [h'.recorded, h.recorded], by rw [h'.badDebt, h.badDebt, h.recorded]⟩

theorem coveredWorld_rerecords (trader : Address) :
    Rerecords w (coveredWorld D w trader) trader (uncoveredAfter D w trader) := by
  unfold coveredWorld
  simp only
  split
  · exact ⟨rfl, rfl⟩
  · rename_i heq
    have hsame : SameDebts w (w.withBalances (Book.transfer w.vault.balances D.insurance trader (coverFor D w trader))) :=
      ⟨rfl, rfl⟩
    rw [not_not.1 heq]
    exact hsame.rerecords trader

theorem coveredWorld_balances (trader : Address) :
    (coveredWorld D w trader).vault.balances =
      Book.transfer w.vault.balances D.insurance trader (coverFor D w trader) := by
  unfold coveredWorld
  simp only
  split <;> rfl

/-- What a deposit of `x` leaves on an account's record. -/
def refreshedDebt (w : World) (account : Address) (x : Int) : Int :=
  if w.vault.balances account < 0 then
    min (w.insurance.recordedDebt account) (max 0 (-(w.vault.balances account + x)))
  else w.insurance.recordedDebt account

theorem refreshDebt_rerecords {caller t : Address} (h : Insurance.refreshDebt D w caller t = .ok w') :
    w'.vault = w.vault ∧ Rerecords w w' t (min (w.insurance.recordedDebt t) (max 0 (-w.vault.balances t))) := by
  simp only [Insurance.refreshDebt, bind_ok_iff, revertIf_ok, exists_const] at h
  obtain ⟨-, h⟩ := h
  have howed : (if w.vault.balances t < 0 then -w.vault.balances t else 0) = max 0 (-w.vault.balances t) := by
    split <;> omega
  rw [howed] at h
  split at h
  · rename_i hzero
    rw [pure_ok] at h
    subst h
    refine ⟨rfl, ?_⟩
    rw [hzero, min_eq_left (le_max_left _ _), ← hzero]
    exact SameDebts.rerecords ⟨rfl, rfl⟩ t
  · split at h
    · rename_i hle
      rw [pure_ok] at h
      subst h
      rw [min_eq_left hle]
      exact ⟨rfl, SameDebts.rerecords ⟨rfl, rfl⟩ t⟩
    · rename_i hlt
      rw [pure_ok] at h
      subst h
      rw [min_eq_right (not_le.1 hlt).le]
      exact ⟨rfl, rfl, rfl⟩

/-- **A deposit credits its account, and shrinks its record if the balance was negative.** -/
theorem credit_rerecords {account : Address} {amount : Nat} (h : Vault.credit D w account amount = .ok w') :
    w'.vault.balances = Book.post w.vault.balances account (amount * Decimals.SCALE) ∧
      Rerecords w w' account (refreshedDebt w account (amount * Decimals.SCALE)) := by
  simp only [Vault.credit, bind_ok_iff, Decimals.toInternal_ok] at h
  obtain ⟨_, ⟨-, rfl⟩, w₁, hmove, h⟩ := h
  have hw₁ := Vault.move_ok hmove
  have hcount : (Vault.countDeposit w account amount).vault.balances = w.vault.balances ∧
      (Vault.countDeposit w account amount).insurance = w.insurance := by
    unfold Vault.countDeposit
    split <;> exact ⟨rfl, rfl⟩
  have hbal : w₁.vault.balances = Book.post w.vault.balances account (amount * Decimals.SCALE) := by
    rw [hw₁, Vault.posted, hcount.1]
  have hsame : SameDebts w w₁ := by
    refine sameDebts_of_insurance ?_
    rw [hw₁]
    exact hcount.2
  have hself : w₁.vault.balances account = w.vault.balances account + amount * Decimals.SCALE := by
    rw [hbal, Book.post_apply, if_pos rfl]
  unfold refreshedDebt
  by_cases hneg : w.vault.balances account < 0
  · simp only [hneg, decide_true, if_true] at h ⊢
    obtain ⟨hvault, hre⟩ := refreshDebt_rerecords h
    rw [hself, hsame.recorded] at hre
    exact ⟨by rw [hvault, hbal], hre.of_same hsame⟩
  · simp only [hneg, decide_false, Bool.false_eq_true, if_false, pure_ok] at h ⊢
    subst h
    exact ⟨hbal, hsame.rerecords account⟩

theorem pullAndCredit_rerecords {payer account : Address} {amount : Nat}
    (h : Vault.pullAndCredit D w msg payer account amount = .ok w') :
    w'.vault.balances = Book.post w.vault.balances account (amount * Decimals.SCALE) ∧
      Rerecords w w' account (refreshedDebt w account (amount * Decimals.SCALE)) := by
  simp only [Vault.pullAndCredit, bind_ok_iff] at h
  obtain ⟨_, -, w₁, hpull, hcredit⟩ := h
  obtain ⟨-, rfl⟩ := usdcTransfer_ok hpull
  obtain ⟨hbal, hre⟩ := credit_rerecords hcredit
  exact ⟨hbal, hre.recorded, hre.badDebt⟩

theorem pullIntoVault_rerecords {amount : Nat} (h : Insurance.pullIntoVault D w msg amount = .ok w') :
    w'.vault.balances = Book.post w.vault.balances D.insurance (amount * Decimals.SCALE) ∧
      Rerecords w w' D.insurance (refreshedDebt w D.insurance (amount * Decimals.SCALE)) := by
  simp only [Insurance.pullIntoVault, bind_ok_iff] at h
  obtain ⟨w₁, hpull, h⟩ := h
  obtain ⟨-, rfl⟩ := usdcTransfer_ok hpull
  simp only [Vault.depositFor, bind_ok_iff, World.whenNotPaused_ok, exists_const] at h
  obtain ⟨hbal, hre⟩ := pullAndCredit_rerecords h.2
  exact ⟨hbal, hre.recorded, hre.badDebt⟩

theorem withdrawTo_debts {account recipient : Address} {amount : Nat}
    (h : Vault.withdrawTo D w msg account recipient amount = .ok w') : SameDebts w w' := by
  simp only [Vault.withdrawTo, bind_ok_iff] at h
  obtain ⟨_, -, _, -, _, -, _, -, _, -, _, -, w₁, hmove, hpay⟩ := h
  obtain ⟨-, rfl⟩ := usdcTransfer_ok hpay
  obtain rfl := Vault.move_ok hmove
  refine sameDebts_of_insurance ?_
  unfold Vault.countWithdrawal
  split <;> rfl

theorem updateFunding_debts {marketId : MarketId} (h : Engine.updateFunding w msg marketId = .ok w') :
    SameDebts w w' := by
  simp only [Engine.updateFunding, bind_ok_iff, pure_ok] at h
  obtain ⟨_, -, _, -, m, -, ⟨w₁, mark⟩, htwap, premium, -, next, hnext, _, -, _, -, _, -, rfl⟩ := h
  obtain ⟨marks, rfl⟩ := consumeTwap_ok htwap
  exact ⟨rfl, rfl⟩

theorem payPenalty_debts {trader : Address} {marketId : MarketId} {closeSize price : Int}
    (h : Liquidation.payPenalty D w msg trader marketId closeSize price = .ok w') : SameDebts w w' := by
  simp only [Liquidation.payPenalty, bind_ok_iff] at h
  obtain ⟨m, -, n, -, penalty, -, cap, -, w₁, hreward, h⟩ := h
  obtain ⟨-, rfl⟩ := Vault.transferInternal_ok hreward
  split at h
  · simp only [bind_ok_iff] at h
    obtain ⟨w₂, hrest, haccrue⟩ := h
    obtain ⟨-, rfl⟩ := Vault.transferInternal_ok hrest
    obtain ⟨-, share, -, -, rfl⟩ := accrueLiquidationFee_ok haccrue
    exact ⟨rfl, rfl⟩
  · rw [pure_ok] at h
    subst h
    exact ⟨rfl, rfl⟩

theorem settleOne_debts {wallet : Address → Bytes32 → Bytes → Bool} {f : Fill} {st : OrderGateway.Settlement}
    (h : OrderGateway.settleOne D env w msg wallet f = .ok (w', st)) : SameDebts w w' := by
  obtain ⟨orderState, unwound, happly⟩ := settleOne_progress h
  obtain ⟨w₁, mi, w₂, ti, hmaker, htaker, hcharge⟩ := apply_ok happly
  obtain ⟨-, -, t₁, st₁, x₁, -, rfl, -⟩ := Engine.applyFill_ok hmaker
  obtain ⟨-, -, t₂, st₂, x₂, -, rfl, -⟩ := Engine.applyFill_ok htaker
  obtain ⟨-, toInsurance, -, hw⟩ := chargeFill_ok hcharge
  rw [hw]
  exact ⟨rfl, rfl⟩

/-! ## What a transaction credits -/

/-- The accounts a call may credit other than by a deposit or by Insurance's cover. -/
def Call.credits (D : Deployment) (call : Call) : List Address :=
  match call.tx with
  | .settleFillsSigned fills => D.engine :: fills.flatMap fun f => [f.1.maker.owner, f.1.taker.owner]
  | .liquidate trader _ _ => [D.engine, trader, call.msg.sender]
  | .adl counterparty _ _ => [D.engine, counterparty]
  | _ => []

/-- No record was written, and the accounts outside the list were not credited; the fee router and Insurance may be. -/
structure Keeps (D : Deployment) (credited : List Address) (w w' : World) : Prop extends SameDebts w w' where
  balances : ∀ a, a ∉ credited → a ≠ D.feeRouter → a ≠ D.insurance → w'.vault.balances a ≤ w.vault.balances a

/-- What a transaction does to the records and to the balances behind them. -/
inductive DebtEffect (D : Deployment) (credited : List Address) (w : World) : World → Prop where
  | kept {w' : World} (h : Keeps D credited w w') : DebtEffect D credited w w'
  | deposited {w' : World} (account : Address) {x : Int} (hx : 0 ≤ x)
      (hbal : w'.vault.balances = Book.post w.vault.balances account x)
      (hre : Rerecords w w' account (refreshedDebt w account x)) : DebtEffect D credited w w'
  | settled {w₁ : World} {trader : Address} (h : Keeps D credited w w₁) (ht : trader ≠ D.insurance) :
      DebtEffect D credited w (coveredWorld D w₁ trader)

variable {credited : List Address}

theorem Keeps.trans {w₁ w₂ w₃ : World} (h : Keeps D credited w₁ w₂) (h' : Keeps D credited w₂ w₃) :
    Keeps D credited w₁ w₃ :=
  ⟨h.toSameDebts.trans h'.toSameDebts, fun a ha hf hi => (h'.balances a ha hf hi).trans (h.balances a ha hf hi)⟩

theorem keeps_of_eq (hd : SameDebts w w') (hb : w'.vault.balances = w.vault.balances) : Keeps D credited w w' :=
  ⟨hd, fun a _ _ _ => by rw [hb]⟩

theorem keeps_of_clears {es : List (Event Address MarketId)} (hd : SameDebts w w') (h : Clears D w es w')
    (hes : ∀ a, a ∉ credited → a ≠ D.feeRouter → a ≠ D.insurance → ∀ e ∈ es, ¬ e.Credits D.engine a) :
    Keeps D credited w w' :=
  ⟨hd, fun a ha hf hi => Clearing.run_bal_le h (hes a ha hf hi)⟩

theorem withdrawTo_keeps {account recipient : Address} {amount : Nat}
    (h : Vault.withdrawTo D w msg account recipient amount = .ok w') : Keeps D credited w w' := by
  refine keeps_of_clears (withdrawTo_debts h) (withdrawTo_clears h).2.2.2 ?_
  intro a _ _ _
  simp only [List.forall_mem_cons]
  refine ⟨fun hc => ?_, id, fun _ he => absurd he List.not_mem_nil⟩
  have hnn : (0 : Int) ≤ amount * Decimals.SCALE := mul_nonneg (Int.natCast_nonneg _) (Int.natCast_nonneg _)
  exact absurd hc.2 (by omega)

theorem withdrawal_keeps {w₁ : World} {account recipient : Address} {amount : Nat} (hd : SameDebts w w₁)
    (hb : w₁.vault.balances = w.vault.balances) (h : Vault.withdrawTo D w₁ msg account recipient amount = .ok w') :
    Keeps D credited w w' := (keeps_of_eq hd hb).trans (withdrawTo_keeps h)

theorem settleOne_keeps {wallet : Address → Bytes32 → Bytes → Bool} {f : Fill} {st : OrderGateway.Settlement}
    (hcredited : D.engine ∈ credited ∧ f.maker.owner ∈ credited ∧ f.taker.owner ∈ credited)
    (h : OrderGateway.settleOne D env w msg wallet f = .ok (w', st)) : Keeps D credited w w' := by
  obtain ⟨d, v, toInsurance, hrun⟩ := settleOne_clears h
  refine keeps_of_clears (settleOne_debts h) hrun ?_
  rintro a ha hf hi
  have hne : ∀ b ∈ credited, a ≠ b := fun b hb he => ha (he ▸ hb)
  simp only [feeEvents, List.forall_mem_cons, Event.Credits, not_or]
  exact ⟨⟨hne _ hcredited.2.1, hne _ hcredited.2.2, hne _ hcredited.1⟩, hf, hf, hne _ hcredited.2.1, hi,
    fun _ he => absurd he List.not_mem_nil⟩

theorem batch_keeps {fills : List (Fill × OrderGateway.FillContext)} {settled : List OrderGateway.Settled}
    (h : Batch D env msg w fills settled w') (hengine : D.engine ∈ credited)
    (howners : ∀ f ∈ fills, f.1.maker.owner ∈ credited ∧ f.1.taker.owner ∈ credited) : Keeps D credited w w' := by
  induction h with
  | nil w => exact keeps_of_eq ⟨rfl, rfl⟩ rfl
  | failed _ _ ih => exact ih fun f hf => howners f (List.mem_cons_of_mem _ hf)
  | settled h _ ih =>
    have hfirst := settleOne_keeps ⟨hengine, howners _ List.mem_cons_self⟩ h
    exact hfirst.trans (ih fun f hf => howners f (List.mem_cons_of_mem _ hf))

theorem liquidate_debts {trader : Address} {marketId : MarketId} {maxSize : Nat}
    (h : Liquidation.liquidate D w msg trader marketId maxSize = .ok w') :
    DebtEffect D [D.engine, trader, msg.sender] w w' := by
  obtain ⟨-, hins, closeSize, before, price, w₁, realized, w₂, after, -, -, htransfer, hpay, -, -, hw⟩ := liquidate_ok h
  have hkept : Keeps D [D.engine, trader, msg.sender] w w₂ := by
    obtain ⟨-, -, d, v, hrun₁⟩ := liquidationTransfer_clears htransfer
    obtain ⟨-, -, reward, rest, share, -, -, -, hrun₂⟩ := payPenalty_clears hpay
    have hsame : SameDebts w w₁ := by
      obtain ⟨delta, v, w₀, x, y, -, -, -, -, rfl, -, rfl, -⟩ := Engine.liquidationTransfer_ok htransfer
      exact ⟨rfl, rfl⟩
    refine keeps_of_clears (hsame.trans (payPenalty_debts hpay)) (hrun₁.append hrun₂) ?_
    intro a ha hf hi
    simp only [List.mem_cons, List.not_mem_nil, or_false, not_or] at ha
    simp only [List.cons_append, List.nil_append, List.forall_mem_cons, Event.Credits, not_or]
    exact ⟨⟨ha.2.1, hi, ha.1⟩, ha.2.2, hf, hi, fun _ he => absurd he List.not_mem_nil⟩
  rcases hw with ⟨rfl, -⟩ | rfl
  · exact .settled hkept hins
  · exact .kept hkept

theorem adl_keeps {counterparty : Address} {marketId : MarketId} {maxSize : Nat}
    (h : Liquidation.adl D w counterparty marketId maxSize = .ok w') : Keeps D [D.engine, counterparty] w w' := by
  obtain ⟨-, -, -, d, v, haircut, -, hrun⟩ := adl_clears h
  have hsame : SameDebts w w' := by
    simp only [Liquidation.adl, bind_ok_iff, World.whenNotPaused_ok, revertIf_ok, exists_const] at h
    obtain ⟨-, -, -, shortfall, -, -, -, -, price, -, notional, -, -, paying, -, -, ⟨w₁, realized⟩, htransfer, h⟩ := h
    obtain ⟨delta, v, w₀, x, y, -, -, -, rfl, -, -, rfl, -⟩ := Engine.adlTransfer_ok htransfer
    obtain rfl := transferIf_ok h
    exact ⟨rfl, rfl⟩
  refine keeps_of_clears hsame hrun ?_
  intro a ha hf hi
  simp only [List.mem_cons, List.not_mem_nil, or_false, not_or] at ha
  simp only [List.forall_mem_cons, Event.Credits, not_or]
  exact ⟨⟨ha.2, hi, ha.1⟩, hi, fun _ he => absurd he List.not_mem_nil⟩

theorem debtEffect_insurance {i : InsuranceStorage} (hi : i.recordedDebt = w'.insurance.recordedDebt)
    (hb : i.badDebt = w'.insurance.badDebt) {account : Address} {x : Int} (hx : 0 ≤ x)
    (hbal : w'.vault.balances = Book.post w.vault.balances account x)
    (hre : Rerecords w w' account (refreshedDebt w account x)) : DebtEffect D credited w (withInsurance w' i) :=
  .deposited account hx hbal ⟨hi.trans hre.recorded, hb.trans hre.badDebt⟩

/-- **What every transaction does to the records.** -/
theorem exec_debts {call : Call} {settled : List OrderGateway.Settled} (hadm : call.Admissible D w)
    (hexec : exec D env w call = .ok (w', settled)) : DebtEffect D (call.credits D) w w' := by
  have hran := exec_ran hexec
  obtain ⟨msg, tx⟩ := call
  have hnn : ∀ amount : Nat, (0 : Int) ≤ amount * Decimals.SCALE := fun amount =>
    mul_nonneg (Int.natCast_nonneg _) (Int.natCast_nonneg _)
  cases hran with
  | config h =>
    have hc := execConfig_configures _ _ h
    exact .kept (keeps_of_eq ⟨by rw [hc.insurance], by rw [hc.insurance]⟩ hc.balances)
  | deposit h | depositFor h | depositWithPermit2 h =>
    obtain ⟨hbal, hre⟩ := pullAndCredit_rerecords h
    exact .deposited _ (hnn _) hbal hre
  | withdrawTo h => exact .kept (withdrawTo_keeps h)
  | updateFunding h =>
    obtain ⟨-, δ, hrun⟩ := updateFunding_clears (D := D) h
    refine .kept (keeps_of_clears (updateFunding_debts h) hrun ?_)
    intro a _ _ _ e he
    rw [List.mem_singleton] at he
    subst he
    exact id
  | settleFillsSigned h =>
    refine .kept (batch_keeps h List.mem_cons_self fun f hf => ⟨?_, ?_⟩)
    · exact List.mem_cons_of_mem _ (List.mem_flatMap.2 ⟨f, hf, by simp⟩)
    · exact List.mem_cons_of_mem _ (List.mem_flatMap.2 ⟨f, hf, by simp⟩)
  | donate h =>
    obtain ⟨hbal, hre⟩ := pullIntoVault_rerecords h
    exact .deposited _ (hnn _) hbal hre
  | stake h hi =>
    obtain ⟨hbal, hre⟩ := pullIntoVault_rerecords h
    exact debtEffect_insurance hi.recordedDebt hi.badDebt (hnn _) hbal hre
  | pool _ hi => exact .kept (keeps_of_eq ⟨hi.recordedDebt, hi.badDebt⟩ rfl)
  | redeem hi h =>
    refine .kept (withdrawal_keeps ?_ ?_ h)
    · exact ⟨hi.recordedDebt, hi.badDebt⟩
    · rfl
  | settleBadDebt ht => exact .settled (keeps_of_eq ⟨rfl, rfl⟩ rfl) ht
  | liquidate h => exact liquidate_debts h
  | adl h => exact .kept (adl_keeps h)
  | claimTreasury _ h | claimReferral _ h =>
    refine .kept (withdrawal_keeps ?_ ?_ h)
    · exact ⟨rfl, rfl⟩
    · rfl
  | cancel _ _ _ _ _ | claimNothing _ | moveUsdc _ | wait _ => exact .kept (keeps_of_eq ⟨rfl, rfl⟩ rfl)

/-! ## The total -/

theorem DebtEffect.rerecords (h : DebtEffect D credited w w') : ∃ t debt, Rerecords w w' t debt := by
  cases h with
  | kept h => exact ⟨D.insurance, _, h.toSameDebts.rerecords D.insurance⟩
  | deposited account _ _ hre => exact ⟨account, _, hre⟩
  | @settled w₁ trader h _ => exact ⟨trader, _, (coveredWorld_rerecords trader).of_same h.toSameDebts⟩

theorem rerecords_total {t : Address} {debt : Int} (h : Rerecords w w' t debt)
    (hw : w.insurance.badDebt = Book.total w.insurance.recordedDebt) :
    w'.insurance.badDebt = Book.total w'.insurance.recordedDebt := by
  rw [h.badDebt, h.recorded, Book.total_update, hw]

/-- **The bad debt is the sum of the records, in every reachable world.** -/
theorem reachable_badDebt (h : Reachable (machine D env) w) :
    w.insurance.badDebt = Book.total w.insurance.recordedDebt := by
  refine h.invariant (fun w => w.insurance.badDebt = Book.total w.insurance.recordedDebt) (fun s hs => ?_) ?_
  · rw [hs.insurance]
    simp [Book.total]
  · intro s l t _ hs hstep
    obtain ⟨a, debt, hre⟩ := (exec_debts hstep.1 hstep.2).rerecords
    exact rerecords_total hre hs

/-! ## The balances behind the records -/

/-- The call credits no account with a record, other than by a deposit or by Insurance's cover. -/
def Call.SparesDebtors (D : Deployment) (w : World) (call : Call) : Prop :=
  ∀ a ∈ call.credits D, w.insurance.recordedDebt a = 0

instance (w : World) (call : Call) : Decidable (call.SparesDebtors D w) :=
  List.decidableBAll (fun a => w.insurance.recordedDebt a = 0) (call.credits D)

/-- Every record is of a negative balance at least as large. -/
structure BackedDebts (D : Deployment) (w : World) : Prop where
  nonneg : ∀ a, 0 ≤ w.insurance.recordedDebt a
  backed : ∀ a, w.insurance.recordedDebt a ≤ max 0 (-w.vault.balances a)
  insurance : w.insurance.recordedDebt D.insurance = 0

/-- **A backed record may be written**, while the accounts with another are not credited. -/
theorem BackedDebts.rerecord {t : Address} {debt : Int} (h : BackedDebts D w) (hre : Rerecords w w' t debt)
    (h0 : 0 ≤ debt) (hle : debt ≤ max 0 (-w'.vault.balances t)) (hins : t = D.insurance → debt = 0)
    (hother : ∀ a, a ≠ t → w.insurance.recordedDebt a ≠ 0 → w'.vault.balances a ≤ w.vault.balances a) :
    BackedDebts D w' := by
  refine ⟨fun a => ?_, fun a => ?_, ?_⟩
  · rw [hre.recorded]
    by_cases ha : a = t
    · rw [ha, Function.update_self]
      exact h0
    · rw [Function.update_of_ne ha]
      exact h.nonneg a
  · rw [hre.recorded]
    by_cases ha : a = t
    · rw [ha, Function.update_self]
      exact hle
    · rw [Function.update_of_ne ha]
      by_cases hz : w.insurance.recordedDebt a = 0
      · rw [hz]
        exact le_max_left _ _
      · have hfall := hother a ha hz
        have hback := h.backed a
        omega
  · rw [hre.recorded]
    by_cases ht : D.insurance = t
    · rw [← ht, Function.update_self]
      exact hins ht.symm
    · rw [Function.update_of_ne ht]
      exact h.insurance

theorem keeps_backed (h : Keeps D credited w w') (hb : BackedDebts D w)
    (hspare : ∀ a ∈ credited, w.insurance.recordedDebt a = 0) (hfee : w.insurance.recordedDebt D.feeRouter = 0) :
    BackedDebts D w' := by
  have hzero : w.insurance.recordedDebt D.insurance = 0 := hb.insurance
  refine hb.rerecord (h.toSameDebts.rerecords D.insurance) hzero.ge ?_ (fun _ => hzero) ?_
  · rw [hzero]
    exact le_max_left _ _
  · intro a ha hz
    exact h.balances a (fun hmem => hz (hspare a hmem)) (fun he => hz (he ▸ hfee)) ha

theorem deposited_backed {account : Address} {x : Int} (hx : 0 ≤ x)
    (hbal : w'.vault.balances = Book.post w.vault.balances account x)
    (hre : Rerecords w w' account (refreshedDebt w account x)) (hb : BackedDebts D w) : BackedDebts D w' := by
  have hnn := hb.nonneg account
  have hself : w'.vault.balances account = w.vault.balances account + x := by
    rw [hbal, Book.post_apply, if_pos rfl]
  refine hb.rerecord hre ?_ ?_ ?_ ?_
  · unfold refreshedDebt
    split <;> omega
  · have hback := hb.backed account
    rw [hself]
    unfold refreshedDebt
    split <;> omega
  · intro hins
    have hzero := hb.insurance
    rw [← hins] at hzero
    unfold refreshedDebt
    rw [hzero]
    split <;> omega
  · intro a ha _
    rw [hbal, Book.post_of_ne _ ha]

theorem coverFor_le (trader : Address) : coverFor D w trader ≤ max (-w.vault.balances trader) 0 := min_le_left _ _

/-- **Insurance's cover leaves on record what it did not pay.** -/
theorem covered_backed {trader : Address} (ht : trader ≠ D.insurance) (hb : BackedDebts D w) :
    BackedDebts D (coveredWorld D w trader) := by
  have hcover := coverFor_nonneg (D := D) (w := w) trader
  have hle := coverFor_le (D := D) (w := w) trader
  have hself : (coveredWorld D w trader).vault.balances trader = w.vault.balances trader + coverFor D w trader := by
    rw [coveredWorld_balances, Book.transfer_apply, if_neg ht, if_pos rfl, add_zero]
  refine hb.rerecord (coveredWorld_rerecords trader) ?_ ?_ (fun he => absurd he ht) ?_
  · unfold uncoveredAfter
    omega
  · rw [hself]
    unfold uncoveredAfter
    omega
  · intro a ha hz
    have hins : a ≠ D.insurance := by
      rintro rfl
      exact hz hb.insurance
    rw [coveredWorld_balances, Book.transfer_of_ne _ hins ha]

/-- The fee router's balance is never negative, so a backed record of it is empty. -/
theorem feeRouter_record (hf : Funded D w) (hb : BackedDebts D w) : w.insurance.recordedDebt D.feeRouter = 0 := by
  have hbuckets : 0 ≤ FeeRouter.buckets w.feeRouter :=
    add_nonneg hf.booked.treasury (Finset.sum_nonneg fun a _ => hf.booked.referral a)
  have hbal := hf.unclaimed
  rw [unclaimed] at hbal
  have hback := hb.backed D.feeRouter
  have hnn := hb.nonneg D.feeRouter
  omega

/-- **One step keeps the records backed** if it credits no account with one. -/
theorem step_backed {l : Label} (hf : Funded D w) (hb : BackedDebts D w) (hspare : l.call.SparesDebtors D w)
    (h : (machine D env).step w l w') : BackedDebts D w' := by
  have hfee := feeRouter_record hf hb
  cases exec_debts h.1 h.2 with
  | kept hk => exact keeps_backed hk hb hspare hfee
  | deposited account hx hbal hre => exact deposited_backed hx hbal hre hb
  | settled hk ht => exact covered_backed ht (keeps_backed hk hb hspare hfee)

theorem genesis_backed (h : Genesis D w) : BackedDebts D w := by
  refine ⟨fun a => ?_, fun a => ?_, ?_⟩
  · rw [h.insurance]
  · rw [h.insurance]
    exact le_max_left _ _
  · rw [h.insurance]

/-- **Recorded debt.** The bad debt is the sum of the records in every reachable world; and in every run whose fills,
liquidations and deleveragings spare the accounts with a record, every record is at most what its account owes. -/
theorem recorded_debts (hk : Keyless env D.feeRouter) (h : Reachable (machine D env) w) :
    w.insurance.badDebt = ∑ a, w.insurance.recordedDebt a ∧
      ∀ w₀ ls, Genesis D w₀ → Run ((machine D env).restrict fun w l => l.call.SparesDebtors D w) w₀ ls w →
        ∀ a, w.insurance.recordedDebt a ≤ max 0 (-w.vault.balances a) := by
  refine ⟨reachable_badDebt h, fun w₀ ls h₀ hrun => ?_⟩
  have hkept := hrun.preserves (fun w => Reachable (machine D env) w ∧ BackedDebts D w) ?_
    ⟨⟨w₀, [], h₀, Run.nil⟩, genesis_backed h₀⟩
  · exact hkept.2.backed
  · rintro s l t ⟨hr, hb⟩ ⟨hspare, hstep⟩
    exact ⟨hr.step hstep, step_backed (reachable_funded hk hr) hb hspare hstep⟩

/-- The bankrupt Alice owes what is on her record. -/
theorem recorded_debts_bankrupt :
    (Sample.outcome Sample.bankrupt).insurance.recordedDebt Sample.alice = 6632 * 10 ^ 17 ∧
      (Sample.outcome Sample.bankrupt).insurance.badDebt =
        ∑ a, (Sample.outcome Sample.bankrupt).insurance.recordedDebt a ∧
      (Sample.outcome Sample.bankrupt).insurance.recordedDebt Sample.alice ≤
        max 0 (-(Sample.outcome Sample.bankrupt).vault.balances Sample.alice) := by
  have h := recorded_debts (Sample.keyless .feeRouter) (Sample.outcome_reachable Sample.bankrupt)
  have hrun := Sample.outcome_run_restrict (fun w call => call.SparesDebtors Sample.deployment w) Sample.bankrupt
    (by decide +kernel) (by decide +kernel)
  exact ⟨by decide +kernel, h.1, h.2 _ _ Sample.genesis_ok hrun Sample.alice⟩

/-- Alice's record stays while the reward for liquidating Carol pays a part of her debt. -/
theorem recorded_debt_not_backed :
    ¬ ∀ w, Reachable (machine Sample.deployment Sample.env) w →
      ∀ a, w.insurance.recordedDebt a ≤ max 0 (-w.vault.balances a) := by
  intro h
  have hle := h _ (Sample.outcome_reachable Sample.rewarded) Sample.alice
  have hgt : max 0 (-(Sample.outcome Sample.rewarded).vault.balances Sample.alice) <
      (Sample.outcome Sample.rewarded).insurance.recordedDebt Sample.alice := by decide +kernel
  omega

end Kryon
