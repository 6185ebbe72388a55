import Kryon.Books
import Kryon.Margins
import Kryon.Sample
/-!
# Withdrawals — the health after a withdrawal is the health recomputed

`RiskLib.applyWithdrawal` edits a health instead of computing it again.  Over cross positions the edit is exact: no
margin is locked, the second and the last loop add up what the first one did, and the balance enters the figures only
through its own sum.  The vault then lowers the ledger balance by what the check removed, and nothing the health reads
besides.
-/
namespace Kryon

open Program

namespace RiskLib

theorem noHaircut_ok {b v : Int} : collateralValueAfterHaircut b 0 = .ok v ↔ (0 ≤ b → M.InRange b) ∧ b = v := by
  unfold collateralValueAfterHaircut
  split
  · rename_i hneg
    rw [pure_ok]
    exact ⟨fun h => ⟨fun hb => absurd hneg (not_lt.2 hb), h⟩, fun h => h.2⟩
  · rename_i hpos
    have hzero : M.InRange 0 := by decide
    have hbps : (0 : Int) ≤ M.BPS_DENOMINATOR := by decide
    simp only [bind_ok_iff, M.applyBps_ok, M.sub_ok, Nat.cast_zero, mul_zero, Int.zero_tdiv, hzero, hbps, and_true,
      true_and]
    constructor
    · rintro ⟨_, ⟨hb, rfl⟩, -, rfl⟩
      exact ⟨fun _ => hb, (sub_zero b).symm⟩
    · rintro ⟨hb, rfl⟩
      have hrange := hb (not_lt.1 hpos)
      refine ⟨0, ⟨hrange, rfl⟩, ⟨hrange, hzero, ?_⟩, sub_zero b⟩
      rwa [sub_zero]

theorem addCollateral_iff {b v : Int} :
    [(⟨b, 0⟩ : RiskCollateral)].foldlM addCollateral 0 = .ok v ↔ M.InRange b ∧ b = v := by
  have hzero : M.InRange 0 := by decide
  simp only [List.foldlM_cons, List.foldlM_nil, addCollateral, bind_ok_iff, pure_ok, noHaircut_ok, M.add_ok]
  constructor
  · rintro ⟨_, ⟨_, ⟨-, rfl⟩, ⟨-, hb, -⟩, rfl⟩, rfl⟩
    exact ⟨hb, (zero_add b).symm⟩
  · rintro ⟨hb, rfl⟩
    refine ⟨b, ⟨b, ⟨fun _ => hb, rfl⟩, ⟨hzero, hb, ?_⟩, zero_add b⟩, rfl⟩
    rwa [zero_add]

/-! ## Cross positions -/

section Cross
variable {ps : List RiskPosition} {ms : List RiskMarket}

theorem addPosition_cross {t t' : Totals} {p : RiskPosition} {i : Nat} (hp : p.isolated = false)
    (h : addPosition ms t (p, i) = .ok t') :
    t'.lockedIsolated = t.lockedIsolated ∧ t'.anyIsolatedLiquidatable = t.anyIsolatedLiquidatable ∧
      addCrossMaintenance ms t.maintenance p = .ok t'.maintenance := by
  simp only [addPosition, bind_ok_iff, hp, Bool.false_eq_true, if_false, pure_ok] at h
  obtain ⟨_, -, m, hm, _, -, _, -, _, -, _, -, n, hn, _, -, _, -, mm, hmm, maintenance, hmaintenance, rfl⟩ := h
  refine ⟨rfl, rfl, ?_⟩
  simp only [addCrossMaintenance, hp, Bool.false_eq_true, if_false, bind_ok_iff]
  exact ⟨m, hm, n, hn, mm, hmm, hmaintenance⟩

/-- **The first loop over cross positions** locks no margin, and the last loop repeats its maintenance. -/
theorem addPositions_cross : ∀ (ps : List RiskPosition) (k : Nat) (t t' : Totals), (∀ p ∈ ps, p.isolated = false) →
    (ps.zipIdx k).foldlM (addPosition ms) t = .ok t' →
    t'.lockedIsolated = t.lockedIsolated ∧ t'.anyIsolatedLiquidatable = t.anyIsolatedLiquidatable ∧
      ps.foldlM (addCrossMaintenance ms) t.maintenance = .ok t'.maintenance
  | [], k, t, t', _, h => by
    simp only [List.zipIdx_nil, List.foldlM_nil, pure_ok] at h
    subst h
    exact ⟨rfl, rfl, rfl⟩
  | p :: ps, k, t, t', hps, h => by
    simp only [List.zipIdx_cons, List.foldlM_cons, bind_ok_iff] at h
    obtain ⟨t₁, hp, h⟩ := h
    obtain ⟨hlock, hany, hcross⟩ := addPosition_cross (hps p List.mem_cons_self) hp
    obtain ⟨hlock', hany', hcross'⟩ :=
      addPositions_cross ps (k + 1) t₁ t' (fun q hq => hps q (List.mem_cons_of_mem p hq)) h
    refine ⟨hlock'.trans hlock, hany'.trans hany, ?_⟩
    rw [List.foldlM_cons, hcross]
    exact hcross'

theorem addEquities_cross {upnls : List Int} {t t' : Int × Int} (hps : ∀ p ∈ ps, p.isolated = false)
    (h : (ps.zip upnls).foldlM addEquity t = .ok t') : t'.1 = t.1 := by
  refine foldlM_invariant (fun s => s.1 = t.1) addEquity (ps.zip upnls) t t' rfl (fun s e s' he hs hstep => ?_) h
  simp only [addEquity, hps e.1 (List.of_mem_zip he).1, Bool.false_eq_true, if_false, bind_ok_iff, pure_ok] at hstep
  obtain ⟨_, -, rfl⟩ := hstep
  exact hs

/-- **The edited health is the health recomputed**: taking `x` from a cross account's health gives the health of the
same positions over `x` less collateral. -/
theorem accountHealth_withdrawn {b x : Int} {before after : AccountHealth} (hps : ∀ p ∈ ps, p.isolated = false)
    (hb : accountHealth [⟨b, 0⟩] ps ms = .ok before) (ha : applyWithdrawal before x = .ok after) :
    accountHealth [⟨b - x, 0⟩] ps ms = .ok after := by
  simp only [accountHealth, bind_ok_iff, addCollateral_iff, M.sub_ok, M.add_ok, pure_ok] at hb
  obtain ⟨_, ⟨-, rfl⟩, ⟨upnls, initial, maintenance, locked, any⟩, ht, _, ⟨-, rfl⟩, ⟨iso, cross⟩, he, unrealized,
    hunrealized, _, ⟨hcross, rfl⟩, _, ⟨-, rfl⟩, _, ⟨-, rfl⟩, ratio, -, crossMaintenance, hmaintenance, _, -, rfl⟩ := hb
  obtain ⟨hlocked, hany, hlast⟩ := addPositions_cross ps 0 _ _ hps ht
  obtain rfl : locked = 0 := hlocked
  obtain rfl : any = false := hany
  obtain rfl : iso = 0 := addEquities_cross hps he
  obtain rfl := ok_unique hmaintenance hlast
  have hzero : M.InRange 0 := by decide
  have hmoved : b - x + cross = b + cross - x := sub_add_eq_add_sub b x cross
  simp only [applyWithdrawal, bind_ok_iff, M.sub_ok, pure_ok, add_zero, sub_zero] at ha hcross
  obtain ⟨_, ⟨⟨-, -, hcollateral⟩, rfl⟩, _, ⟨⟨-, -, hequity⟩, rfl⟩, _, ⟨hfree, rfl⟩, ratio', hratio, rfl⟩ := ha
  have hsum : (M.InRange (b - x) ∧ M.InRange cross ∧ M.InRange (b - x + cross)) ∧ b - x + cross = b + cross - x :=
    ⟨⟨hcollateral, hcross.2.1, by rwa [hmoved]⟩, hmoved⟩
  have hunlocked : (M.InRange (b - x) ∧ M.InRange 0 ∧ M.InRange (b - x - 0)) ∧ b - x - 0 = b - x := by
    simp [hcollateral, hzero]
  have hcrossOnly : (M.InRange (b + cross - x) ∧ M.InRange 0 ∧ M.InRange (b + cross - x + 0)) ∧
      b + cross - x + 0 = b + cross - x := by
    simp [hequity, hzero]
  simp only [accountHealth, bind_ok_iff, addCollateral_iff, M.sub_ok, M.add_ok, pure_ok]
  refine ⟨b - x, ⟨hcollateral, rfl⟩, _, ht, b - x, hunlocked, _, he, unrealized, hunrealized, b + cross - x, hsum,
    b + cross - x, hcrossOnly, _, ⟨hfree, rfl⟩, ratio', hratio, crossMaintenance, hmaintenance, b + cross - x, hsum, ?_⟩
  rw [Bool.or_false]

end Cross
end RiskLib

/-! ## The vault -/

section Vault
variable {D : Deployment} {w w' : World} {account : Address}

theorem Engine.riskInputs_paid (h : Moves w w') (he : w'.engine = w.engine) {c : List RiskCollateral}
    {ps : List RiskPosition} {ms : List RiskMarket} (hi : Engine.riskInputs w account = .ok (c, ps, ms)) :
    c = [⟨w.vault.balances account, 0⟩] ∧ (∀ p ∈ ps, p.isolated = false) ∧
      Engine.riskInputs w' account = .ok ([⟨w'.vault.balances account, 0⟩], ps, ms) := by
  have hsame : Engine.riskInput w' account = Engine.riskInput w account := by
    funext m
    simp only [Engine.riskInput, Engine.indexOf, OracleAdapter.getPrice, RiskParams.market, he, h.timestamp, h.oracle,
      h.risk]
  obtain ⟨rfl, hps, -, -⟩ := Engine.riskInputs_ok hi
  simp only [Engine.riskInputs, bind_ok_iff, pure_ok, Prod.mk.injEq] at hi ⊢
  obtain ⟨inputs, hinputs, -, rfl, rfl⟩ := hi
  refine ⟨trivial, fun p hp => ?_, inputs, ?_, trivial, rfl, rfl⟩
  · rw [hps] at hp
    obtain ⟨m, -, rfl⟩ := List.mem_map.1 hp
    rfl
  · rwa [he, hsame]

theorem Vault.withdrawTo_ok {msg : Msg} {recipient : Address} {amount : Nat}
    (h : Vault.withdrawTo D w msg account recipient amount = .ok w') :
    ∃ x health, Decimals.toInternal amount = .ok x ∧ x ≤ w.vault.balances account ∧
      Engine.validateWithdrawal w account x = .ok health ∧ w'.vault.balances account = w.vault.balances account - x := by
  simp only [Vault.withdrawTo, bind_ok_iff, World.whenNotPaused_ok, revertIf_ok, not_lt, exists_const] at h
  obtain ⟨-, -, -, x, hx, hbal, health, hhealth, w₁, hmove, hpay⟩ := h
  obtain ⟨-, rfl⟩ := usdcTransfer_ok hpay
  obtain rfl := Vault.move_ok hmove
  refine ⟨x, health, hx, hbal, hhealth, ?_⟩
  have hcount : (Vault.countWithdrawal (Vault.posted w account (-x)) account amount).vault.balances =
      (Vault.posted w account (-x)).vault.balances := by
    unfold Vault.countWithdrawal
    split <;> rfl
  show (Vault.countWithdrawal (Vault.posted w account (-x)) account amount).vault.balances account = _
  rw [hcount]
  simp [Vault.posted, Book.post, sub_eq_add_neg]

end Vault

/-- **The withdrawal check is exact.** -/
theorem withdrawal_exact (D : Deployment) :
    (∀ (ps : List RiskPosition) (ms : List RiskMarket) (b x : Int) (before after : AccountHealth),
      (∀ p ∈ ps, p.isolated = false) → RiskLib.accountHealth [⟨b, 0⟩] ps ms = .ok before →
      RiskLib.applyWithdrawal before x = .ok after → RiskLib.accountHealth [⟨b - x, 0⟩] ps ms = .ok after) ∧
    (∀ (w w' : World) (msg : Msg) (account recipient : Address) (amount : Nat),
      Vault.withdrawTo D w msg account recipient amount = .ok w' →
      ∃ health, Engine.accountHealth w' account = .ok health ∧ health.initialMarginRequired ≤ health.equity ∧
        0 ≤ w'.vault.balances account) := by
  refine ⟨fun ps ms b x before after hps hb ha => RiskLib.accountHealth_withdrawn hps hb ha, ?_⟩
  intro w w' msg account recipient amount h
  obtain ⟨hmoves, hengine, -, -⟩ := withdrawTo_clears h
  obtain ⟨x, health, -, hbal, hcheck, hpaid⟩ := Vault.withdrawTo_ok h
  simp only [Engine.validateWithdrawal, RiskLib.validateWithdrawal, bind_ok_iff, revertIf_ok, not_lt, pure_ok,
    exists_const] at hcheck
  obtain ⟨⟨c, ps, ms⟩, hinputs, -, before, hbefore, after, hafter, hmargin, -⟩ := hcheck
  obtain ⟨rfl, hcross, hinputs'⟩ := Engine.riskInputs_paid hmoves hengine hinputs
  refine ⟨after, ?_, hmargin, by omega⟩
  rw [Engine.accountHealth, hinputs', hpaid]
  exact RiskLib.accountHealth_withdrawn hcross hbefore hafter

/-- A long of ten bought at 100 under a thousand of collateral, and Alice's own, of which she withdraws half her
deposit. -/
theorem withdrawal_exact_trading :
    (∃ before after,
      RiskLib.accountHealth [⟨1000 * 10 ^ 18, 0⟩] [Engine.positionInput (Sample.outcome Sample.trading) Sample.alice 1]
        [Engine.marketInput (Sample.outcome Sample.trading) 1] = .ok before ∧
      RiskLib.applyWithdrawal before (500 * 10 ^ 18) = .ok after ∧
      RiskLib.accountHealth [⟨500 * 10 ^ 18, 0⟩] [Engine.positionInput (Sample.outcome Sample.trading) Sample.alice 1]
        [Engine.marketInput (Sample.outcome Sample.trading) 1] = .ok after) ∧
    (∃ w', Vault.withdrawTo Sample.deployment (Sample.outcome Sample.trading) (Sample.push 0 0).msg Sample.alice
        Sample.alice (500 * 10 ^ 6) = .ok w' ∧
      ∃ health, Engine.accountHealth w' Sample.alice = .ok health ∧ health.initialMarginRequired ≤ health.equity ∧
        0 ≤ w'.vault.balances Sample.alice) := by
  obtain ⟨hexact, hvault⟩ := withdrawal_exact Sample.deployment
  constructor
  · obtain ⟨before, hbefore, hwithdrawn⟩ := ok_of_returnsWith (x := RiskLib.accountHealth [⟨1000 * 10 ^ 18, 0⟩]
      [Engine.positionInput (Sample.outcome Sample.trading) Sample.alice 1]
      [Engine.marketInput (Sample.outcome Sample.trading) 1])
      (P := fun h => (RiskLib.applyWithdrawal h (500 * 10 ^ 18)).isOk) (by decide +kernel)
    obtain ⟨after, hafter⟩ := ok_of_isOk hwithdrawn
    refine ⟨before, after, hbefore, hafter, ?_⟩
    have h := hexact _ _ _ (500 * 10 ^ 18) before after (List.forall_mem_singleton.2 rfl) hbefore hafter
    exact h
  · obtain ⟨w', hw'⟩ := ok_of_isOk (x := Vault.withdrawTo Sample.deployment (Sample.outcome Sample.trading)
      (Sample.push 0 0).msg Sample.alice Sample.alice (500 * 10 ^ 6)) (by decide +kernel)
    exact ⟨w', hw', hvault _ _ _ _ _ _ hw'⟩

end Kryon
