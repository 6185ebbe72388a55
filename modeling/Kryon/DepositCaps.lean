import Kryon.Effects
import Kryon.Sample
/-!
# DepositCaps — the caps bound what the customers have brought in

The vault counts every deposit to an account that is not exempt, and every withdrawal from one, into a total and a net
for the account; a withdrawal of gains is floored at zero.  A counted deposit is held to both caps.  So until a cap is
lowered the counters are within the caps, and as the floors only ever raise a counter, what the customers have brought in
net of what they took out is within the caps as well.
-/
namespace Kryon

open Program Transition
open OrderGateway (Settled)

variable {D : Deployment} {env : Env} {w w' : World} {msg : Msg} {l : Label} {ls : List Label}

/-! ## The counters -/

/-- The vault's configuration: the caps, the exemptions and whether USDC may be deposited. -/
structure SameCaps (w w' : World) : Prop where
  depositCap : w'.vault.depositCap = w.vault.depositCap
  accountDepositCap : w'.vault.accountDepositCap = w.vault.accountDepositCap
  capExempt : w'.vault.capExempt = w.vault.capExempt
  collateralActive : w'.vault.collateralActive = w.vault.collateralActive

/-- The counters of net deposits. -/
structure SameCounters (w w' : World) : Prop extends SameCaps w w' where
  totalDeposited : w'.vault.totalDeposited = w.vault.totalDeposited
  netDeposited : w'.vault.netDeposited = w.vault.netDeposited

theorem SameCaps.trans {w₁ w₂ w₃ : World} (h : SameCaps w₁ w₂) (h' : SameCaps w₂ w₃) : SameCaps w₁ w₃ :=
  ⟨h'.1.trans h.1, h'.2.trans h.2, h'.3.trans h.3, h'.4.trans h.4⟩

theorem SameCounters.of_vault (h : w'.vault = w.vault) : SameCounters w w' :=
  ⟨⟨by rw [h], by rw [h], by rw [h], by rw [h]⟩, by rw [h], by rw [h]⟩

theorem SameCounters.refl (w : World) : SameCounters w w := .of_vault rfl

theorem SameCounters.trans {w₁ w₂ w₃ : World} (h : SameCounters w₁ w₂) (h' : SameCounters w₂ w₃) : SameCounters w₁ w₃ :=
  ⟨h.toSameCaps.trans h'.toSameCaps, h'.2.trans h.2, h'.3.trans h.3⟩

/-- What a deposit of `amount` to `account` counts. -/
structure Deposited (w : World) (account : Address) (amount : Nat) (w' : World) : Prop extends SameCaps w w' where
  exempt : w.vault.capExempt account = true → SameCounters w w'
  total : w.vault.capExempt account = false → w'.vault.totalDeposited = w.vault.totalDeposited + amount ∧
    w.vault.totalDeposited + amount ≤ w.vault.depositCap
  net : w.vault.capExempt account = false → w'.vault.netDeposited = Function.update w.vault.netDeposited account
      (w.vault.netDeposited account + amount) ∧ w.vault.netDeposited account + amount ≤ w.vault.accountDepositCap

/-- What a withdrawal of `amount` from `account` counts. -/
structure Withdrawn (w : World) (account : Address) (amount : Nat) (w' : World) : Prop extends SameCaps w w' where
  exempt : w.vault.capExempt account = true → SameCounters w w'
  total : w.vault.capExempt account = false → w'.vault.totalDeposited = w.vault.totalDeposited - amount
  net : w.vault.capExempt account = false → w'.vault.netDeposited = Function.update w.vault.netDeposited account
    (w.vault.netDeposited account - amount)

/-- **A deposit that returns is counted within the caps**, unless its account is exempt. -/
theorem pullAndCredit_deposited {payer account : Address} {amount : Nat}
    (h : Vault.pullAndCredit D w msg payer account amount = .ok w') : Deposited w account amount w' := by
  simp only [Vault.pullAndCredit, bind_ok_iff] at h
  obtain ⟨_, hcheck, w₁, hpull, hcredit⟩ := h
  obtain ⟨-, rfl⟩ := usdcTransfer_ok hpull
  obtain ⟨d, b, rfl⟩ := credit_ok hcredit
  simp only [Vault.checkDeposit, bind_ok_iff, revertIf_ok, exists_const] at hcheck
  obtain ⟨-, -, -, hcheck⟩ := hcheck
  unfold Vault.countDeposit
  cases hex : w.vault.capExempt account with
  | true =>
    simp only [if_true]
    exact ⟨⟨rfl, rfl, rfl, rfl⟩, fun _ => ⟨⟨rfl, rfl, rfl, rfl⟩, rfl, rfl⟩, fun h => absurd h (by simp [hex]),
      fun h => absurd h (by simp [hex])⟩
  | false =>
    simp only [hex, Bool.false_eq_true, if_false, bind_ok_iff, Vault.addU256, revertIf_ok, pure_ok, exists_const,
      gt_iff_lt, not_lt] at hcheck ⊢
    obtain ⟨_, ⟨-, rfl⟩, htotal, _, ⟨-, rfl⟩, hnet⟩ := hcheck
    exact ⟨⟨rfl, rfl, rfl, rfl⟩, fun h => absurd h (by simp [hex]), fun _ => ⟨rfl, htotal⟩, fun _ => ⟨rfl, hnet⟩⟩

theorem withdrawTo_withdrawn {account recipient : Address} {amount : Nat}
    (h : Vault.withdrawTo D w msg account recipient amount = .ok w') : Withdrawn w account amount w' := by
  simp only [Vault.withdrawTo, bind_ok_iff, World.whenNotPaused_ok, revertIf_ok, exists_const] at h
  obtain ⟨-, -, -, x, -, -, _, -, w₁, hmove, hpay⟩ := h
  obtain ⟨-, rfl⟩ := usdcTransfer_ok hpay
  obtain rfl := Vault.move_ok hmove
  unfold Vault.countWithdrawal
  cases hex : w.vault.capExempt account with
  | true =>
    have hcount : (Vault.posted w account (-x)).vault.capExempt account = true := hex
    simp only [hcount, if_true]
    exact ⟨⟨rfl, rfl, rfl, rfl⟩, fun _ => ⟨⟨rfl, rfl, rfl, rfl⟩, rfl, rfl⟩, fun h => absurd h (by simp [hex]),
      fun h => absurd h (by simp [hex])⟩
  | false =>
    have hcount : (Vault.posted w account (-x)).vault.capExempt account = false := hex
    simp only [hcount, Bool.false_eq_true, if_false]
    exact ⟨⟨rfl, rfl, rfl, rfl⟩, fun h => absurd h (by simp [hex]), fun _ => rfl, fun _ => rfl⟩

theorem Deposited.of_vault {w₁ : World} {account : Address} {amount : Nat} (hd : Deposited w₁ account amount w')
    (h : w₁.vault = w.vault) : Deposited w account amount w' := by
  obtain ⟨hcaps, hex, htotal, hnet⟩ := hd
  rw [h] at hex htotal hnet
  have hsame : SameCounters w w₁ := .of_vault h
  exact ⟨hsame.toSameCaps.trans hcaps, fun he => hsame.trans (hex he), htotal, hnet⟩

theorem Withdrawn.of_vault {w₁ : World} {account : Address} {amount : Nat} (hd : Withdrawn w₁ account amount w')
    (h : w₁.vault = w.vault) : Withdrawn w account amount w' := by
  obtain ⟨hcaps, hex, htotal, hnet⟩ := hd
  rw [h] at hex htotal hnet
  have hsame : SameCounters w w₁ := .of_vault h
  exact ⟨hsame.toSameCaps.trans hcaps, fun he => hsame.trans (hex he), htotal, hnet⟩

/-! ## Everything else leaves the counters alone -/

theorem applyFill_counters {caller trader : Address} {marketId : MarketId} {isBuy : Bool} {size price notional : Int}
    {reduceOnly increased : Bool}
    (h : Engine.applyFill D w caller trader marketId isBuy size price notional reduceOnly = .ok (w', increased)) :
    SameCounters w w' := by
  obtain ⟨-, -, t, st, x, -, rfl, -⟩ := Engine.applyFill_ok h
  exact ⟨⟨rfl, rfl, rfl, rfl⟩, rfl, rfl⟩

theorem settleOne_counters {wallet : Address → Bytes32 → Bytes → Bool} {f : Fill} {st : OrderGateway.Settlement}
    (h : OrderGateway.settleOne D env w msg wallet f = .ok (w', st)) : SameCounters w w' := by
  obtain ⟨orderState, unwound, happly⟩ := settleOne_progress h
  obtain ⟨w₁, mi, w₂, ti, hmaker, htaker, hcharge⟩ := apply_ok happly
  obtain ⟨-, toInsurance, -, hw⟩ := chargeFill_ok hcharge
  have hprogress : SameCounters w (withProgress w orderState unwound) := ⟨⟨rfl, rfl, rfl, rfl⟩, rfl, rfl⟩
  have hcharged : SameCounters w₂ w' := by
    rw [hw]
    exact ⟨⟨rfl, rfl, rfl, rfl⟩, rfl, rfl⟩
  exact ((hprogress.trans (applyFill_counters hmaker)).trans (applyFill_counters htaker)).trans hcharged

theorem payPenalty_counters {trader : Address} {marketId : MarketId} {closeSize price : Int}
    (h : Liquidation.payPenalty D w msg trader marketId closeSize price = .ok w') : SameCounters w w' := by
  simp only [Liquidation.payPenalty, bind_ok_iff] at h
  obtain ⟨m, -, n, -, penalty, -, cap, -, w₁, hreward, h⟩ := h
  obtain ⟨-, rfl⟩ := Vault.transferInternal_ok hreward
  split at h
  · simp only [bind_ok_iff] at h
    obtain ⟨w₂, hrest, haccrue⟩ := h
    obtain ⟨-, rfl⟩ := Vault.transferInternal_ok hrest
    obtain ⟨-, x, -, -, rfl⟩ := accrueLiquidationFee_ok haccrue
    exact ⟨⟨rfl, rfl, rfl, rfl⟩, rfl, rfl⟩
  · rw [pure_ok] at h
    subst h
    exact ⟨⟨rfl, rfl, rfl, rfl⟩, rfl, rfl⟩

theorem coveredWorld_counters (trader : Address) : SameCounters w (coveredWorld D w trader) := by
  unfold coveredWorld
  simp only
  split <;> exact ⟨⟨rfl, rfl, rfl, rfl⟩, rfl, rfl⟩

theorem liquidate_counters {trader : Address} {marketId : MarketId} {maxSize : Nat}
    (h : Liquidation.liquidate D w msg trader marketId maxSize = .ok w') : SameCounters w w' := by
  obtain ⟨-, -, _, _, _, w₁, _, w₂, _, -, -, htransfer, hpay, -, -, hw⟩ := liquidate_ok h
  obtain ⟨d, v, w₃, x, y, -, -, -, -, rfl, -, rfl, -⟩ := Engine.liquidationTransfer_ok htransfer
  have hclosed := payPenalty_counters hpay
  have hmoved : SameCounters w w₂ := ⟨⟨hclosed.1.1, hclosed.1.2, hclosed.1.3, hclosed.1.4⟩, hclosed.2, hclosed.3⟩
  rcases hw with ⟨rfl, -⟩ | rfl
  · exact hmoved.trans (coveredWorld_counters trader)
  · exact hmoved

theorem adl_counters {counterparty : Address} {marketId : MarketId} {maxSize : Nat}
    (h : Liquidation.adl D w counterparty marketId maxSize = .ok w') : SameCounters w w' := by
  simp only [Liquidation.adl, bind_ok_iff, World.whenNotPaused_ok, revertIf_ok, exists_const] at h
  obtain ⟨-, -, -, shortfall, -, -, -, -, price, -, n, -, -, paying, -, -, ⟨w₁, realized⟩, htransfer, h⟩ := h
  obtain ⟨d, v, w₂, x, y, -, -, -, rfl, -, -, rfl, -⟩ := Engine.adlTransfer_ok htransfer
  rw [transferIf_ok h]
  exact ⟨⟨rfl, rfl, rfl, rfl⟩, rfl, rfl⟩

theorem updateFunding_counters {marketId : MarketId} (h : Engine.updateFunding w msg marketId = .ok w') :
    SameCounters w w' := by
  simp only [Engine.updateFunding, bind_ok_iff, World.onlyRole_ok, World.whenNotPaused_ok, M.bound128_ok, pure_ok,
    exists_const] at h
  obtain ⟨-, -, m, -, ⟨w₁, mark⟩, htwap, premium, -, next, -, _, -, _, -, _, -, rfl⟩ := h
  obtain ⟨marks, rfl⟩ := consumeTwap_ok htwap
  exact ⟨⟨rfl, rfl, rfl, rfl⟩, rfl, rfl⟩

theorem pullIntoVault_deposited {amount : Nat} (h : Insurance.pullIntoVault D w msg amount = .ok w') :
    Deposited w D.insurance amount w' := by
  simp only [Insurance.pullIntoVault, bind_ok_iff] at h
  obtain ⟨w₁, hpull, h⟩ := h
  obtain ⟨-, rfl⟩ := usdcTransfer_ok hpull
  simp only [Vault.depositFor, bind_ok_iff, World.whenNotPaused_ok, exists_const] at h
  have hd := pullAndCredit_deposited h.2
  exact hd.of_vault rfl

/-! ## One call -/

/-- The account a call deposits to, and the amount. -/
def Call.deposits (D : Deployment) (call : Call) : Option (Address × Nat) :=
  match call.tx with
  | .deposit amount | .depositWithPermit2 _ amount => some (call.msg.sender, amount)
  | .depositFor account amount => some (account, amount)
  | .donate amount | .stake amount => some (D.insurance, amount)
  | _ => none

/-- The account a caller withdraws from, and the amount. -/
def Call.withdraws (call : Call) : Option (Address × Nat) :=
  match call.tx with
  | .withdrawTo _ amount => some (call.msg.sender, amount)
  | _ => none

/-- What a call that configures nothing counts. -/
inductive Counts (D : Deployment) (w : World) (call : Call) (w' : World) : Prop where
  | deposited {account : Address} {amount : Nat} (hd : call.deposits D = some (account, amount))
      (hw : call.withdraws = none) (h : Deposited w account amount w')
  | withdrawn {account : Address} {amount : Nat} (hd : call.deposits D = none)
      (hw : call.withdraws = some (account, amount)) (h : Withdrawn w account amount w')
  /-- Insurance or the fee router pays out. -/
  | paid {account : Address} {amount : Nat} (hd : call.deposits D = none) (hw : call.withdraws = none)
      (ha : account = D.insurance ∨ account = D.feeRouter) (h : Withdrawn w account amount w')
  | none (hd : call.deposits D = none) (hw : call.withdraws = none) (h : SameCounters w w')

/-- **What every call that configures nothing counts.** -/
theorem exec_counts {call : Call} {settled : List Settled} (hc : ∀ c, call.tx ≠ .config c)
    (hexec : exec D env w call = .ok (w', settled)) : Counts D w call w' := by
  obtain ⟨msg, tx⟩ := call
  cases tx with
  | config c => exact absurd rfl (hc c)
  | settleFillsSigned fills =>
    simp only [exec, OrderGateway.settleFillsSigned, bind_ok_iff] at hexec
    obtain ⟨_, -, _, -, _, -, h⟩ := hexec
    refine .none rfl rfl ((settleFills_batch fills w w' settled h).chain.relates SameCounters .refl
      (fun _ _ _ => .trans) fun _ _ _ _ _ => settleOne_counters)
  | moveUsdc balances | wait seconds =>
    simp only [exec, pure_ok, Prod.mk.injEq] at hexec
    obtain ⟨rfl, -⟩ := hexec
    exact .none rfl rfl (.of_vault rfl)
  | deposit amount | depositFor account amount | depositWithPermit2 token amount =>
    have h := (unsettled_ok.1 hexec).1
    simp only [Vault.deposit, Vault.depositFor, Vault.depositWithPermit2, bind_ok_iff, World.whenNotPaused_ok,
      revertIf_ok, exists_const] at h
    first
      | exact .deposited rfl rfl (pullAndCredit_deposited h.2)
      | exact .deposited rfl rfl (pullAndCredit_deposited h.2.2)
  | withdrawTo recipient amount => exact .withdrawn rfl rfl (withdrawTo_withdrawn (unsettled_ok.1 hexec).1)
  | updateFunding marketId => exact .none rfl rfl (updateFunding_counters (unsettled_ok.1 hexec).1)
  | cancelOrder nonce =>
    have h := (unsettled_ok.1 hexec).1
    rw [pure_ok] at h
    subst h
    exact .none rfl rfl (.of_vault rfl)
  | cancelOrders nonces =>
    have h := (unsettled_ok.1 hexec).1
    rw [pure_ok] at h
    subst h
    obtain ⟨cancelled, heq, -⟩ := cancelOrders_eq w msg nonces
    rw [heq]
    exact .none rfl rfl (.of_vault rfl)
  | cancelUpTo newMinNonce =>
    have h := (unsettled_ok.1 hexec).1
    simp only [OrderGateway.cancelUpTo, bind_ok_iff, pure_ok] at h
    obtain ⟨_, -, rfl⟩ := h
    exact .none rfl rfl (.of_vault rfl)
  | cancelSigned c signature =>
    have h := (unsettled_ok.1 hexec).1
    simp only [OrderGateway.cancelSigned, bind_ok_iff, pure_ok] at h
    obtain ⟨_, -, _, -, rfl⟩ := h
    exact .none rfl rfl (.of_vault rfl)
  | donate amount =>
    have h := (unsettled_ok.1 hexec).1
    simp only [Insurance.donate, bind_ok_iff, World.whenNotPaused_ok, revertIf_ok, exists_const] at h
    exact .deposited rfl rfl (pullIntoVault_deposited h.2.2)
  | stake amount =>
    obtain ⟨w₁, minted, hpull, -, -, rfl⟩ := stake_ok (unsettled_ok.1 hexec).1
    obtain ⟨hcaps, hex, htotal, hnet⟩ := pullIntoVault_deposited hpull
    exact .deposited rfl rfl ⟨⟨hcaps.1, hcaps.2, hcaps.3, hcaps.4⟩,
      fun he => ⟨⟨hcaps.1, hcaps.2, hcaps.3, hcaps.4⟩, (hex he).2, (hex he).3⟩, htotal, hnet⟩
  | requestUnstake shares =>
    obtain ⟨-, -, rfl⟩ := requestUnstake_ok (unsettled_ok.1 hexec).1
    exact .none rfl rfl (.of_vault rfl)
  | withdrawUnstaked =>
    obtain ⟨-, -, ⟨-, rfl⟩ | ⟨-, w₁, amount, rfl, h | rfl⟩⟩ := withdrawUnstaked_ok (unsettled_ok.1 hexec).1
    · exact .none rfl rfl (.of_vault rfl)
    · have hd := withdrawTo_withdrawn h
      exact .paid rfl rfl (Or.inl rfl) (hd.of_vault rfl)
    · exact .none rfl rfl (.of_vault rfl)
  | sweepToOperating amount =>
    obtain ⟨swept, -, -, rfl | rfl⟩ := sweepToOperating_ok (unsettled_ok.1 hexec).1
    · exact .none rfl rfl (.refl _)
    · exact .none rfl rfl (.of_vault rfl)
  | settleBadDebt trader =>
    have h := (unsettled_ok.1 hexec).1
    rw [map_ok] at h
    obtain ⟨⟨w₁, covered⟩, hcover, rfl⟩ := h
    obtain ⟨-, -, -, -, rfl⟩ := settleBadDebt_ok hcover
    exact .none rfl rfl (coveredWorld_counters trader)
  | liquidate trader marketId maxSize => exact .none rfl rfl (liquidate_counters (unsettled_ok.1 hexec).1)
  | adl counterparty marketId maxSize => exact .none rfl rfl (adl_counters (unsettled_ok.1 hexec).1)
  | claimTreasury =>
    rcases claimTreasury_ok (unsettled_ok.1 hexec).1 with rfl | ⟨w₁, amount, -, rfl, h⟩
    · exact .none rfl rfl (.refl _)
    · have hd := withdrawTo_withdrawn h
      exact .paid rfl rfl (Or.inr rfl) (hd.of_vault rfl)
  | claimReferral referrer =>
    rcases claimReferral_ok (unsettled_ok.1 hexec).1 with rfl | ⟨w₁, amount, -, rfl, h⟩
    · exact .none rfl rfl (.refl _)
    · have hd := withdrawTo_withdrawn h
      exact .paid rfl rfl (Or.inr rfl) (hd.of_vault rfl)

/-! ## Over a run -/

/-- The calls that neither lower a cap nor change who is exempt. -/
def KeepsCaps (w : World) (call : Call) : Prop :=
  match call.tx with
  | .config (.setCapExempt _ _) => False
  | .config (.setDepositCaps total perAccount) => w.vault.depositCap ≤ total ∧ w.vault.accountDepositCap ≤ perAccount
  | _ => True

instance (w : World) : (call : Call) → Decidable (KeepsCaps w call)
  | ⟨_, tx⟩ => by
    cases tx with
    | config c =>
      cases c with
      | setCapExempt => exact instDecidableFalse
      | setDepositCaps => exact instDecidableAnd
      | _ => exact instDecidableTrue
    | _ => exact instDecidableTrue

/-- Whether the vault is wired not to count an account. -/
def Uncounted (D : Deployment) (a : Address) : Prop := a = D.insurance ∨ a = D.feeRouter

instance (D : Deployment) (a : Address) : Decidable (Uncounted D a) := inferInstanceAs (Decidable (_ ∨ _))

/-- What the customers' accounts receive from outside the protocol in a call. -/
def Call.inflow (D : Deployment) (call : Call) : Nat :=
  ((call.deposits D).map fun d => if Uncounted D d.1 then 0 else d.2).getD 0

def Call.outflow (call : Call) : Nat := ((call.withdraws).map fun d => d.2).getD 0

/-- What one account receives. -/
def Call.inflowTo (D : Deployment) (a : Address) (call : Call) : Nat :=
  ((call.deposits D).map fun d => if d.1 = a then d.2 else 0).getD 0

def Call.outflowFrom (a : Address) (call : Call) : Nat :=
  ((call.withdraws).map fun d => if d.1 = a then d.2 else 0).getD 0

/-- The counters are within the caps, and only Insurance and the fee router are not counted. -/
structure DepositsCapped (D : Deployment) (w : World) : Prop where
  exempt : ∀ a, w.vault.capExempt a = decide (Uncounted D a)
  total : w.vault.totalDeposited ≤ w.vault.depositCap
  net : ∀ a, w.vault.netDeposited a ≤ w.vault.accountDepositCap

theorem Genesis.depositsCapped (h : Genesis D w) : DepositsCapped D w := by
  have hvault := h.vault
  exact ⟨fun a => by rw [hvault]; rfl, by rw [hvault], fun a => by rw [hvault]⟩

theorem DepositsCapped.of_counters (hw : DepositsCapped D w) (h : SameCounters w w') : DepositsCapped D w' := by
  obtain ⟨hexempt, htotal, hnet⟩ := hw
  exact ⟨fun a => by rw [h.capExempt, hexempt], by rw [h.totalDeposited, h.depositCap]; exact htotal,
    fun a => by rw [h.netDeposited, h.accountDepositCap]; exact hnet a⟩

theorem Deposited.depositsCapped {account : Address} {amount : Nat} (hw : DepositsCapped D w) (h : Deposited w account amount w') :
    DepositsCapped D w' := by
  cases hex : w.vault.capExempt account with
  | true => exact hw.of_counters (h.exempt hex)
  | false =>
    obtain ⟨htotal, hwithin⟩ := h.total hex
    obtain ⟨hnet, haccount⟩ := h.net hex
    refine ⟨fun a => by rw [h.capExempt, hw.exempt], by rw [htotal, h.depositCap]; exact hwithin, fun a => ?_⟩
    rw [hnet, h.accountDepositCap]
    by_cases ha : a = account
    · subst ha
      rw [Function.update_self]
      exact haccount
    · rw [Function.update_of_ne ha]
      exact hw.net a

theorem Withdrawn.depositsCapped {account : Address} {amount : Nat} (hw : DepositsCapped D w) (h : Withdrawn w account amount w') :
    DepositsCapped D w' := by
  cases hex : w.vault.capExempt account with
  | true => exact hw.of_counters (h.exempt hex)
  | false =>
    refine ⟨fun a => by rw [h.capExempt, hw.exempt], ?_, fun a => ?_⟩
    · rw [h.total hex, h.depositCap]
      exact (Nat.sub_le _ _).trans hw.total
    · rw [h.net hex, h.accountDepositCap]
      by_cases ha : a = account
      · subst ha
        rw [Function.update_self]
        exact (Nat.sub_le _ _).trans (hw.net a)
      · rw [Function.update_of_ne ha]
        exact hw.net a

/-- What a configuration call that keeps the caps leaves of the vault. -/
structure Recapped (w w' : World) : Prop where
  capExempt : w'.vault.capExempt = w.vault.capExempt
  totalDeposited : w'.vault.totalDeposited = w.vault.totalDeposited
  netDeposited : w'.vault.netDeposited = w.vault.netDeposited
  depositCap : w.vault.depositCap ≤ w'.vault.depositCap
  accountDepositCap : w.vault.accountDepositCap ≤ w'.vault.accountDepositCap

theorem Recapped.of_vault (h : w'.vault = w.vault) : Recapped w w' :=
  ⟨by rw [h], by rw [h], by rw [h], by rw [h], by rw [h]⟩

theorem execConfig_recapped {c : Config} (hkeeps : KeepsCaps w ⟨msg, .config c⟩) :
    Returns (Recapped w) (execConfig D w msg c) := by
  cases c with
  | setCapExempt account exempt => exact hkeeps.elim
  | setDepositCaps total perAccount =>
    obtain ⟨htotal, haccount⟩ := hkeeps
    exact Returns.bind fun _ => Returns.pure ⟨rfl, rfl, rfl, htotal, haccount⟩
  | setCollateral token active =>
    exact Returns.bind fun _ => Returns.bind fun _ => Returns.pure ⟨rfl, rfl, rfl, le_refl _, le_refl _⟩
  | _ =>
    simp only [execConfig, KryonUpgradeable.pause, KryonUpgradeable.pauseIndefinitely, KryonUpgradeable.unpause,
      KryonUpgradeable.changeRole, KryonUpgradeable.renounceRole, OracleAdapter.setPublishers,
      RiskParams.setMarket, RiskParams.setMarketActive,
      RiskParams.setFundingConfig, RiskParams.setOiPolicy, RiskParams.setMaxTotalOiPolicyBps, OracleAdapter.setFeed,
      OracleAdapter.setReferenceFeed, OracleAdapter.pushPrices, FeeRouter.setMarketFees, FeeRouter.defineTier,
      FeeRouter.setAccountTier, FeeRouter.setMinNetRate, FeeRouter.setRebatesEnabled, FeeRouter.setReferralsEnabled,
      FeeRouter.setReferrerApproved, FeeRouter.setSplit, FeeRouter.setLiquidationSplit, FeeRouter.setTreasury,
      Insurance.setUnwindLimits, Liquidation.setParams]
    repeat' first
      | exact Returns.pure (.of_vault rfl)
      | refine Returns.bind fun _ => ?_

/-- What a step does to the counters, with what the call brings in and takes out. -/
structure Counted (D : Deployment) (w : World) (call : Call) (w' : World) : Prop where
  capped : DepositsCapped D w'
  total : w.vault.totalDeposited + call.inflow D ≤ w'.vault.totalDeposited + call.outflow
  net : ∀ a, ¬ Uncounted D a → w.vault.netDeposited a + call.inflowTo D a ≤ w'.vault.netDeposited a + call.outflowFrom a

theorem Deposited.counted {call : Call} {account : Address} {amount : Nat} (hw : DepositsCapped D w)
    (hd : call.deposits D = some (account, amount)) (h : Deposited w account amount w') : Counted D w call w' := by
  refine ⟨h.depositsCapped hw, ?_, fun a ha => ?_⟩
  · simp only [Call.inflow, hd, Option.map_some, Option.getD_some]
    cases hex : w.vault.capExempt account with
    | true =>
      have huncounted : Uncounted D account := by simpa [hw.exempt] using hex
      rw [if_pos huncounted, (h.exempt hex).totalDeposited]
      omega
    | false =>
      have hcounted : ¬ Uncounted D account := by simpa [hw.exempt] using hex
      rw [if_neg hcounted, (h.total hex).1]
      omega
  · simp only [Call.inflowTo, hd, Option.map_some, Option.getD_some]
    by_cases hne : account = a
    · subst hne
      have hex : w.vault.capExempt account = false := by simpa [hw.exempt] using ha
      rw [if_pos rfl, (h.net hex).1, Function.update_self]
      omega
    · rw [if_neg hne]
      cases hex : w.vault.capExempt account with
      | true =>
        rw [(h.exempt hex).netDeposited]
        omega
      | false =>
        rw [(h.net hex).1, Function.update_of_ne (Ne.symm hne)]
        omega

theorem Withdrawn.counted {call : Call} {account : Address} {amount : Nat} (hw : DepositsCapped D w)
    (hd : call.deposits D = none) (hwd : call.withdraws = some (account, amount)) (h : Withdrawn w account amount w') :
    Counted D w call w' := by
  refine ⟨h.depositsCapped hw, ?_, fun a ha => ?_⟩
  · simp only [Call.inflow, Call.outflow, hd, hwd, Option.map_none, Option.map_some, Option.getD_none, Option.getD_some]
    cases hex : w.vault.capExempt account with
    | true =>
      rw [(h.exempt hex).totalDeposited]
      omega
    | false =>
      rw [h.total hex]
      omega
  · simp only [Call.inflowTo, Call.outflowFrom, hd, hwd, Option.map_none, Option.map_some, Option.getD_none,
      Option.getD_some]
    by_cases hne : account = a
    · subst hne
      have hex : w.vault.capExempt account = false := by simpa [hw.exempt] using ha
      rw [if_pos rfl, h.net hex, Function.update_self]
      omega
    · cases hex : w.vault.capExempt account with
      | true =>
        rw [(h.exempt hex).netDeposited]
        omega
      | false =>
        rw [h.net hex, Function.update_of_ne (Ne.symm hne)]
        omega

theorem Counted.of_recapped {call : Call} (hw : DepositsCapped D w) (hd : call.deposits D = none) (h : Recapped w w') :
    Counted D w call w' := by
  refine ⟨⟨fun a => by rw [h.capExempt, hw.exempt], ?_, fun a => ?_⟩, ?_, fun a _ => ?_⟩
  · rw [h.totalDeposited]
    exact hw.total.trans h.depositCap
  · rw [h.netDeposited]
    exact (hw.net a).trans h.accountDepositCap
  · simp only [Call.inflow, hd, Option.map_none, Option.getD_none, h.totalDeposited]
    omega
  · simp only [Call.inflowTo, hd, Option.map_none, Option.getD_none, h.netDeposited]
    omega

theorem SameCounters.recapped (h : SameCounters w w') : Recapped w w' :=
  ⟨h.capExempt, h.totalDeposited, h.netDeposited, h.depositCap.ge, h.accountDepositCap.ge⟩

/-- **A step that keeps the caps keeps the counters within them**, and counts what it brings in. -/
theorem step_counted (hw : DepositsCapped D w) (hkeeps : KeepsCaps w l.call) (h : (machine D env).step w l w') :
    Counted D w l.call w' := by
  obtain ⟨-, hexec⟩ := h
  obtain ⟨⟨msg, tx⟩, settled⟩ := l
  by_cases hc : ∃ c, tx = .config c
  · obtain ⟨c, rfl⟩ := hc
    exact .of_recapped hw rfl (execConfig_recapped hkeeps w' (unsettled_ok.1 hexec).1)
  · have hc' : ∀ c, tx ≠ .config c := fun c hc' => hc ⟨c, hc'⟩
    have hcounts : Counts D w ⟨msg, tx⟩ w' := exec_counts hc' hexec
    rcases hcounts with ⟨hd, -, h⟩ | ⟨hd, hwd, h⟩ | @⟨account, _, hd, -, ha, h⟩ | ⟨hd, -, h⟩
    · exact h.counted hw hd
    · exact h.counted hw hd hwd
    · have hex : w.vault.capExempt account = true := by rw [hw.exempt]; exact decide_eq_true ha
      exact .of_recapped hw hd (h.exempt hex).recapped
    · exact .of_recapped hw hd h.recapped

/-- **What the customers bring in stays within the caps.**  As long as no cap is lowered and no exemption changed, all that
the customers' accounts ever received from outside the protocol, net of what they withdrew, is at most the deposit cap;
and for each account it is at most the account's cap. -/
theorem inflow_capped (hw : Genesis D w) (h : Run ((machine D env).restrict fun w l => KeepsCaps w l.call) w ls w') :
    (ls.map fun l => l.call.inflow D).sum ≤ w'.vault.depositCap + (ls.map fun l => l.call.outflow).sum ∧
      ∀ a, ¬ Uncounted D a → (ls.map fun l => l.call.inflowTo D a).sum ≤
        w'.vault.accountDepositCap + (ls.map fun l => l.call.outflowFrom a).sum := by
  have hkeep : ∀ s l t, DepositsCapped D s → ((machine D env).restrict fun w l => KeepsCaps w l.call).step s l t →
      DepositsCapped D t :=
    fun s l t hs hl => (step_counted hs hl.1 hl.2).capped
  have hcapped := h.preserves (DepositsCapped D) hkeep hw.depositsCapped
  refine ⟨?_, fun a ha => ?_⟩
  · have htotal := h.raises (DepositsCapped D) (fun w => w.vault.totalDeposited) (fun l => l.call.inflow D)
      (fun l => l.call.outflow) hkeep (fun s l t hs hl => (step_counted hs hl.1 hl.2).total) hw.depositsCapped
    have hwithin := hcapped.total
    omega
  · have hnet := h.raises (DepositsCapped D) (fun w => w.vault.netDeposited a) (fun l => l.call.inflowTo D a)
      (fun l => l.call.outflowFrom a) hkeep (fun s l t hs hl => (step_counted hs hl.1 hl.2).net a ha) hw.depositsCapped
    have hwithin := hcapped.net a
    omega

namespace Sample

/-- Both sides fund and trade, the cap is raised, and Alice takes some out again. -/
def topUp : List Call := trading ++ [
  call admin (.config (.setDepositCaps (10 ^ 13) (10 ^ 12))), call alice (.withdrawTo alice (100 * 10 ^ 6)),
  call carol (.depositFor alice (300 * 10 ^ 6)), call carol (.donate (10 * 10 ^ 6))]

end Sample

theorem inflow_capped_topUp :
    let ls := trace Sample.deployment Sample.env Sample.genesis Sample.topUp
    (ls.map fun l => l.call.inflow Sample.deployment).sum ≤
        (Sample.outcome Sample.topUp).vault.depositCap + (ls.map fun l => l.call.outflow).sum ∧
      ∀ a, ¬ Uncounted Sample.deployment a → (ls.map fun l => l.call.inflowTo Sample.deployment a).sum ≤
        (Sample.outcome Sample.topUp).vault.accountDepositCap + (ls.map fun l => l.call.outflowFrom a).sum :=
  inflow_capped Sample.genesis_ok
    (Sample.outcome_run_restrict KeepsCaps Sample.topUp (by decide +kernel) (by decide +kernel))

end Kryon
