import Kryon.Effects
import Kryon.Sample
/-!
# Solvency — assets cover what the vault owes, and open interest is balanced

The books of every reachable world are balanced (`reachable_balanced`), so the stored totals are the sums they stand for.
The surplus of the vault's USDC over what it owes starts at the genesis holdings and moves only by donations, and a fill, a
liquidation or an ADL moves neither side.
-/
namespace Kryon

open Program Transition
open Clearing (Balanced Event State)
open OrderGateway (Settled)

variable {D : Deployment} {env : Env} {w w' : World} {l : Label}

/-- The vault's USDC, in ledger units. -/
def assets (D : Deployment) (w : World) : Int := (w.usdc D.vault : Int) * Decimals.SCALE

/-- The sum of the ledger balances less the sum of the positions' cost bases. -/
def exposure (w : World) : Int := ∑ a, w.vault.balances a - ∑ k, (w.engine.positions k).openNotional

theorem genesis_books (h : Genesis D w) : books D w = State.empty Address MarketId (assets D w) := by
  simp only [books, State.empty, assets, h.vault, h.engine, Position.empty]

/-! ## Runs of the books -/

theorem clears_balanced {es : List (Event Address MarketId)} (hb : Balanced (books D w)) (h : Clears D w es w') :
    Balanced (books D w') :=
  h.preserves Balanced (fun _ _ _ hs hstep => Clearing.step_balanced hs hstep) hb

theorem step_books (h : (machine D env).step w l w') : Cleared D env w l.call w' := exec_cleared h.1 h.2

/-- **The books of every reachable world are balanced.** -/
theorem reachable_balanced (h : Reachable (machine D env) w) : Balanced (books D w) := by
  refine h.invariant (fun w => Balanced (books D w)) ?_ ?_
  · intro s hs
    rw [genesis_books hs]
    exact Clearing.balanced_empty _
  · intro s l t _ hs hstep
    obtain ⟨es, hrun, -⟩ := step_books hstep
    exact clears_balanced hs hrun

theorem clears_surplus {es : List (Event Address MarketId)} (h : Clears D w es w') :
    (books D w').surplus = (books D w).surplus + (es.map Event.donated).sum :=
  h.accumulates State.surplus Event.donated (fun _ _ _ => Clearing.step_surplus)

theorem clears_donated_nonneg {es : List (Event Address MarketId)} (h : Clears D w es w') :
    0 ≤ (es.map Event.donated).sum := by
  refine List.sum_nonneg fun x hx => ?_
  obtain ⟨e, he, rfl⟩ := List.mem_map.1 hx
  exact h.forall_labels (fun e => 0 ≤ e.donated) (fun _ _ _ hstep => Clearing.donated_nonneg hstep) e he

theorem step_surplus_le (h : (machine D env).step w l w') : (books D w).surplus ≤ (books D w').surplus := by
  obtain ⟨es, hrun, -⟩ := step_books h
  rw [clears_surplus hrun]
  have := clears_donated_nonneg hrun
  omega

theorem step_surplus_eq (h : (machine D env).step w l w') (hd : ¬ l.call.Donates D w) :
    (books D w').surplus = (books D w).surplus := by
  obtain ⟨es, hrun, hes⟩ := step_books h
  have hzero : (es.map Event.donated).sum = 0 :=
    List.sum_eq_zero fun x hx => by
      obtain ⟨e, he, rfl⟩ := List.mem_map.1 hx
      exact (hes e he).2 hd
  rw [clears_surplus hrun, hzero, add_zero]

theorem genesis_surplus (h : Genesis D w) : (books D w).surplus = assets D w := by
  rw [genesis_books h]
  simp [State.surplus, State.empty]

theorem assets_nonneg (D : Deployment) (w : World) : 0 ≤ assets D w :=
  mul_nonneg (Int.natCast_nonneg _) (Int.natCast_nonneg _)

theorem reachable_surplus (h : Reachable (machine D env) w) : 0 ≤ (books D w).surplus := by
  refine h.invariant (fun w => 0 ≤ (books D w).surplus) ?_ ?_
  · intro s hs
    rw [genesis_surplus hs]
    exact assets_nonneg D s
  · intro s l t _ hs hstep
    exact hs.trans (step_surplus_le hstep)

/-- **Without donations the surplus is what the vault held at genesis.** -/
theorem run_surplus {w₀ : World} {ls : List Label} (h₀ : Genesis D w₀)
    (h : Run ((machine D env).restrict fun w l => ¬ l.call.Donates D w) w₀ ls w) :
    (books D w).surplus = assets D w₀ := by
  refine h.preserves (fun w => (books D w).surplus = assets D w₀) ?_ (genesis_surplus h₀)
  intro s l t hs hstep
  rw [step_surplus_eq hstep.2 hstep.1, hs]

theorem surplus_eq (hb : Balanced (books D w)) : (books D w).surplus = assets D w - exposure w := by
  rw [State.surplus, hb.total, hb.netBasis]
  rfl

/-! ## What a fill, a liquidation and an ADL owe -/

theorem clears_exposure {es : List (Event Address MarketId)} (h : Clears D w es w') :
    exposure w' = exposure w + (es.map Event.credited).sum :=
  h.accumulates State.exposure Event.credited (fun _ _ _ => Clearing.step_exposure)

theorem settleOne_exposure {msg : Msg} {wallet : Address → Bytes32 → Bytes → Bool} {f : Fill}
    {st : OrderGateway.Settlement} (h : OrderGateway.settleOne D env w msg wallet f = .ok (w', st)) :
    exposure w' = exposure w := by
  obtain ⟨d, v, toInsurance, hrun⟩ := settleOne_clears h
  rw [clears_exposure hrun]
  simp [feeEvents, Event.credited]

theorem liquidate_exposure {msg : Msg} {trader : Address} {marketId : MarketId} {maxSize : Nat}
    (h : Liquidation.liquidate D w msg trader marketId maxSize = .ok w') : exposure w' = exposure w := by
  obtain ⟨-, -, -, d, v, reward, rest, share, cover, -, -, -, -, hrun⟩ := liquidate_clears h
  rw [clears_exposure hrun]
  simp [Event.credited]

theorem liquidationTransfer_exposure {caller trader receiver : Address} {marketId : MarketId}
    {size price realized : Int}
    (h : Engine.liquidationTransfer D w caller trader receiver marketId size price = .ok (w', realized)) :
    exposure w' = exposure w := by
  obtain ⟨-, -, d, v, hrun⟩ := liquidationTransfer_clears h
  rw [clears_exposure hrun]
  simp [Event.credited]

theorem adl_exposure {counterparty : Address} {marketId : MarketId} {maxSize : Nat}
    (h : Liquidation.adl D w counterparty marketId maxSize = .ok w') : exposure w' = exposure w := by
  obtain ⟨-, -, -, d, v, haircut, -, hrun⟩ := adl_clears h
  rw [clears_exposure hrun]
  simp [Event.credited]

theorem adlTransfer_exposure {caller backstop counterparty : Address} {marketId : MarketId} {size price realized : Int}
    (h : Engine.adlTransfer D w caller backstop counterparty marketId size price = .ok (w', realized)) :
    exposure w' = exposure w := by
  obtain ⟨-, -, d, v, hrun⟩ := adlTransfer_clears h
  rw [clears_exposure hrun]
  simp [Event.credited]

/-- The two-sided moves of positions: a settled fill, the transfer of a liquidation and of an ADL, and the whole
liquidation and ADL calls. -/
inductive Pairs (D : Deployment) (env : Env) (w w' : World) : Prop where
  | fill {msg : Msg} {wallet : Address → Bytes32 → Bytes → Bool} {f : Fill} {st : OrderGateway.Settlement}
      (h : OrderGateway.settleOne D env w msg wallet f = .ok (w', st))
  | liquidation {caller trader receiver : Address} {marketId : MarketId} {size price realized : Int}
      (h : Engine.liquidationTransfer D w caller trader receiver marketId size price = .ok (w', realized))
  | liquidate {msg : Msg} {trader : Address} {marketId : MarketId} {maxSize : Nat}
      (h : Liquidation.liquidate D w msg trader marketId maxSize = .ok w')
  | adlTransfer {caller backstop counterparty : Address} {marketId : MarketId} {size price realized : Int}
      (h : Engine.adlTransfer D w caller backstop counterparty marketId size price = .ok (w', realized))
  | adl {counterparty : Address} {marketId : MarketId} {maxSize : Nat}
      (h : Liquidation.adl D w counterparty marketId maxSize = .ok w')

theorem pairs_exposure (h : Pairs D env w w') : exposure w' = exposure w := by
  cases h with
  | fill h => exact settleOne_exposure h
  | liquidation h => exact liquidationTransfer_exposure h
  | liquidate h => exact liquidate_exposure h
  | adlTransfer h => exact adlTransfer_exposure h
  | adl h => exact adl_exposure h

/-- **Solvency.** In every reachable world the vault's USDC covers the ledger less the net cost basis, both of which are
the sums they stand for; on a run in which USDC reaches the vault only through deposits the two are equal; and a two-sided
move of positions changes the sum of balances less the sum of cost bases by exactly zero. -/
theorem vault_solvent (h : Reachable (machine D env) w) :
    w.vault.totalLedger = ∑ a, w.vault.balances a ∧
      w.engine.netCostBasis = ∑ k, (w.engine.positions k).openNotional ∧
      w.vault.totalLedger - w.engine.netCostBasis ≤ assets D w ∧
      (∀ w₀ ls, Genesis D w₀ → w₀.usdc D.vault = 0 →
        Run ((machine D env).restrict fun w l => ¬ l.call.Donates D w) w₀ ls w →
        assets D w = w.vault.totalLedger - w.engine.netCostBasis) ∧
      ∀ w', Pairs D env w w' → exposure w' = exposure w := by
  have hb := reachable_balanced h
  have hs := surplus_eq hb
  have htotal : w.vault.totalLedger = ∑ a, w.vault.balances a := hb.total
  have hbasis : w.engine.netCostBasis = ∑ k, (w.engine.positions k).openNotional := hb.netBasis
  have hexp : exposure w = w.vault.totalLedger - w.engine.netCostBasis := by rw [exposure, htotal, hbasis]
  rw [hexp] at hs
  refine ⟨htotal, hbasis, ?_, ?_, fun w' hp => pairs_exposure hp⟩
  · have hnn := reachable_surplus h
    omega
  · intro w₀ ls h₀ hzero hrun
    have hsurplus := run_surplus h₀ hrun
    have hassets : assets D w₀ = 0 := by simp [assets, hzero]
    omega

/-- After deposits and a fill the sample vault holds 2000 USDC, and owes exactly that. -/
theorem vault_solvent_trading :
    assets Sample.deployment (Sample.outcome Sample.trading) = 2000 * 10 ^ 18 ∧
      (Sample.outcome Sample.trading).engine.netCostBasis = 0 ∧
      (Sample.outcome Sample.trading).vault.totalLedger - (Sample.outcome Sample.trading).engine.netCostBasis ≤
        assets Sample.deployment (Sample.outcome Sample.trading) :=
  ⟨by decide +kernel, by decide +kernel, (vault_solvent (Sample.outcome_reachable Sample.trading)).2.2.1⟩

/-! ## Open interest -/

theorem sum_longPart (f : Address → Int) : ∑ a, Clearing.longPart (f a) = ∑ a with 0 < f a, f a := by
  rw [Finset.sum_filter]
  refine Finset.sum_congr rfl fun a _ => ?_
  unfold Clearing.longPart
  split <;> omega

theorem sum_shortPart (f : Address → Int) : ∑ a, Clearing.shortPart (f a) = ∑ a with f a < 0, |f a| := by
  rw [Finset.sum_filter]
  refine Finset.sum_congr rfl fun a _ => ?_
  unfold Clearing.shortPart
  split
  · rename_i hneg
    rw [abs_of_neg hneg]
    omega
  · omega

/-- **Open interest is balanced**: in every reachable world each side of a market is the sum of that side's positions, and
the two sides are equal. -/
theorem openInterest_balanced (h : Reachable (machine D env) w) (m : MarketId) :
    (w.engine.openInterest m).long =
        ∑ a with 0 < (w.engine.positions (a, m)).size, (w.engine.positions (a, m)).size ∧
      (w.engine.openInterest m).short =
        ∑ a with (w.engine.positions (a, m)).size < 0, |(w.engine.positions (a, m)).size| ∧
      (w.engine.openInterest m).long = (w.engine.openInterest m).short := by
  have hb := reachable_balanced h
  refine ⟨?_, ?_, hb.long_eq_short m⟩
  · rw [← sum_longPart fun a => (w.engine.positions (a, m)).size]
    exact hb.long m
  · rw [← sum_shortPart fun a => (w.engine.positions (a, m)).size]
    exact hb.short m

/-- Alice's 10 long against Bob is the sample market's open interest on both sides. -/
theorem openInterest_balanced_trading :
    ((Sample.outcome Sample.trading).engine.positions (Sample.alice, 1)).size = 10 * 10 ^ 18 ∧
      ((Sample.outcome Sample.trading).engine.openInterest 1).long = 10 * 10 ^ 18 ∧
      ((Sample.outcome Sample.trading).engine.openInterest 1).long =
        ((Sample.outcome Sample.trading).engine.openInterest 1).short :=
  ⟨by decide +kernel, by decide +kernel, (openInterest_balanced (Sample.outcome_reachable Sample.trading) 1).2.2⟩

end Kryon
