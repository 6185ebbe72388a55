import Kryon.Holdings
import Kryon.Health
import Mathlib.Algebra.BigOperators.Group.Finset.Basic
/-!
# Margins — what an account's health is

`Engine.accountHealth` reads an account's open markets into arrays and folds over them.  When it returns, every open
market was listed and priced, and each figure is the balance and a sum over the markets: the marked PnL, the initial and
the maintenance margins.  Every position the engine holds is a cross position, so one comparison decides whether the
account is liquidatable.
-/
namespace Kryon.Engine

open Program

variable {w : World} {a : Address}

/-! ## One market -/

/-- The stored price of a market's feed. -/
def indexAt (w : World) (m : MarketId) : Int := (w.oracle.snapshots (w.risk.markets m).oracleId).price

theorem indexPrice_ok {m : MarketId} {x : Int} (h : indexPrice w m = .ok x) :
    RiskParams.market w m = .ok (w.risk.markets m) ∧ x = indexAt w m := by
  simp only [indexPrice, indexOf, RiskParams.market, OracleAdapter.getPrice, bind_ok_iff, revertIf_ok, pure_ok,
    exists_const] at h
  obtain ⟨_, ⟨hlisted, rfl⟩, _, ⟨-, -, -, _, -, rfl⟩, rfl⟩ := h
  refine ⟨?_, rfl⟩
  simp only [RiskParams.market, bind_ok_iff, revertIf_ok, pure_ok, exists_const]
  exact ⟨hlisted, trivial⟩

/-- The entry price the risk library reads: the basis for each unit, floored at one. -/
def entryOf (p : Position) : Int := max 1 ((|p.openNotional| * PRECISION).tdiv |p.size|)

/-- What a position gains between its entry and a price. -/
def tradePnlOf (p : Position) (x : Int) : Int :=
  (|p.size| * (if p.size > 0 then x - entryOf p else entryOf p - x)).tdiv PRECISION

/-- What a position's pending funding adds to its account. -/
def fundingPnlOf (f : FundingState) (p : Position) : Int :=
  -(|p.size| * (sideIndex f p.size - p.lastFundingIndex)).tdiv PRECISION

/-- A position's PnL as the account's equity counts it. -/
def markedPnl (w : World) (a : Address) (m : MarketId) : Int :=
  tradePnlOf (w.engine.positions (a, m)) (indexAt w m) + fundingPnlOf (w.engine.funding m) (w.engine.positions (a, m))

def notionalOf (p : Position) (x : Int) : Int := (|p.size| * x).tdiv PRECISION

def marginOf (p : Position) (x : Int) (bps : Nat) : Int := (notionalOf p x * bps).tdiv M.BPS_DENOMINATOR

def initialOf (w : World) (a : Address) (m : MarketId) : Int :=
  marginOf (w.engine.positions (a, m)) (indexAt w m) (w.risk.markets m).initialMarginBps

def maintenanceOf (w : World) (a : Address) (m : MarketId) : Int :=
  marginOf (w.engine.positions (a, m)) (indexAt w m) (w.risk.markets m).maintenanceMarginBps

/-- The position as the risk library reads it. -/
def positionInput (w : World) (a : Address) (m : MarketId) : RiskPosition where
  positionId := m.toNat
  marketId := m
  size := |(w.engine.positions (a, m)).size|
  entryPrice := entryOf (w.engine.positions (a, m))
  margin := 0
  isLong := decide ((w.engine.positions (a, m)).size > 0)
  lastFundingIndex := (w.engine.positions (a, m)).lastFundingIndex
  isolated := false

/-- The market as the risk library reads it. -/
def marketInput (w : World) (m : MarketId) : RiskMarket where
  marketId := m
  initialMarginBps := (w.risk.markets m).initialMarginBps
  maintenanceMarginBps := (w.risk.markets m).maintenanceMarginBps
  liquidationFeeBps := (w.risk.markets m).liquidationFeeBps
  active := true
  oraclePrice := indexAt w m
  fundingIndexLong := (w.engine.funding m).longIndex
  fundingIndexShort := (w.engine.funding m).shortIndex

theorem riskInput_ok {m : MarketId} {r : RiskPosition × RiskMarket} (h : riskInput w a m = .ok r) :
    r = (positionInput w a m, marketInput w m) := by
  simp only [riskInput, bind_ok_iff, M.divPrecision_ok, M.abs_eq, M.max_eq, RiskParams.market, revertIf_ok, pure_ok,
    exists_const] at h
  obtain ⟨_, ⟨hlisted, rfl⟩, _, ⟨-, rfl⟩, x, hx, rfl⟩ := h
  have hprice : indexPrice w m = .ok x := by
    simp only [indexPrice, RiskParams.market, bind_ok_iff, revertIf_ok, pure_ok, exists_const]
    exact ⟨_, ⟨hlisted, rfl⟩, hx⟩
  obtain ⟨-, rfl⟩ := indexPrice_ok hprice
  rfl

theorem riskInput_price {m : MarketId} {r : RiskPosition × RiskMarket} (h : riskInput w a m = .ok r) :
    indexPrice w m = .ok (indexAt w m) := by
  simp only [riskInput, bind_ok_iff, RiskParams.market, revertIf_ok, pure_ok, exists_const] at h
  obtain ⟨_, ⟨hlisted, rfl⟩, _, -, x, hx, rfl⟩ := h
  have hprice : indexPrice w m = .ok x := by
    simp only [indexPrice, RiskParams.market, bind_ok_iff, revertIf_ok, pure_ok, exists_const]
    exact ⟨_, ⟨hlisted, rfl⟩, hx⟩
  rw [hprice, (indexPrice_ok hprice).2]

/-! ## The folds -/

/-- The arrays of a list of markets. -/
abbrev positionInputs (w : World) (a : Address) (ids : List MarketId) : List RiskPosition := ids.map (positionInput w a)

abbrev marketInputs (w : World) (ids : List MarketId) : List RiskMarket := ids.map (marketInput w)

theorem findMarket_inputs {ids : List MarketId} {m : MarketId} {r : RiskMarket}
    (h : RiskLib.findMarket (marketInputs w ids) m = .ok r) : r = marketInput w m := by
  unfold RiskLib.findMarket at h
  split at h
  · rename_i r' hfind
    obtain rfl := Except.ok.inj h
    have hid : r'.marketId = m := by simpa using List.find?_some hfind
    obtain ⟨id, -, rfl⟩ := List.mem_map.1 (List.mem_of_find?_eq_some hfind)
    have : id = m := hid
    rw [this]
  · exact absurd h (by simp)

theorem notional_ok {size price n : Int} (h : RiskLib.notional size price = .ok n) :
    0 < size ∧ 0 < price ∧ n = (size * price).tdiv PRECISION := by
  simp only [RiskLib.notional, bind_ok_iff, revertIf_ok, not_or, not_le, M.mulPrecision_ok, exists_const] at h
  exact ⟨h.1.1, h.1.2, h.2.2.symm⟩

/-- **One turn of the first pass**: a cross position adds its PnL and its two margins. -/
theorem addPosition_ok {ids : List MarketId} {t t' : RiskLib.Totals} {m : MarketId} {i : Nat}
    (h : RiskLib.addPosition (marketInputs w ids) t (positionInput w a m, i) = .ok t') :
    0 < indexAt w m ∧ t' = { t with
      upnls := t.upnls ++ [markedPnl w a m]
      initial := t.initial + initialOf w a m
      maintenance := t.maintenance + maintenanceOf w a m } := by
  simp only [RiskLib.addPosition, bind_ok_iff, revertIf_ok, exists_const] at h
  obtain ⟨-, r, hr, -, tradePnl, htrade, fundingPnl, hfunding, upnl, hupnl, n, hn, im, him, initial, hinitial, mm, hmm,
    maintenance, hmaintenance, h⟩ := h
  obtain rfl := findMarket_inputs hr
  obtain ⟨-, hprice, rfl⟩ := notional_ok hn
  simp only [M.add_ok, M.applyBps_ok] at hupnl him hinitial hmm hmaintenance
  obtain ⟨-, rfl⟩ := hupnl
  obtain ⟨-, rfl⟩ := him
  obtain ⟨-, rfl⟩ := hinitial
  obtain ⟨-, rfl⟩ := hmm
  obtain ⟨-, rfl⟩ := hmaintenance
  have htradeOf : tradePnl = tradePnlOf (w.engine.positions (a, m)) (indexAt w m) := by
    simp only [RiskLib.signedPositionPnl, positionInput, marketInput, bind_ok_iff, M.mulPrecision_ok,
      decide_eq_true_eq] at htrade
    obtain ⟨_, -, d, hd, -, rfl⟩ := htrade
    unfold tradePnlOf
    split at hd
    · rename_i hlong
      rw [M.sub_ok] at hd
      rw [if_pos hlong, ← hd.2]
    · rename_i hshort
      rw [M.sub_ok] at hd
      rw [if_neg hshort, ← hd.2]
  have hfundingOf : fundingPnl = fundingPnlOf (w.engine.funding m) (w.engine.positions (a, m)) := by
    simp only [RiskLib.fundingPnl, positionInput, marketInput, bind_ok_iff, M.sub_ok, M.mulPrecision_ok,
      decide_eq_true_eq, zero_sub] at hfunding
    obtain ⟨_, ⟨-, rfl⟩, _, ⟨-, rfl⟩, -, rfl⟩ := hfunding
    rfl
  rw [htradeOf, hfundingOf] at h
  simp only [positionInput, Bool.false_eq_true, if_false, pure_ok] at h
  subst h
  exact ⟨hprice, rfl⟩

/-- **The first pass** over an account's positions. -/
theorem addPositions_ok {all : List MarketId} :
    ∀ (ids : List MarketId) (k : Nat) (t t' : RiskLib.Totals),
      ((positionInputs w a ids).zipIdx k).foldlM (RiskLib.addPosition (marketInputs w all)) t = .ok t' →
      (∀ m ∈ ids, 0 < indexAt w m) ∧ t' = { t with
        upnls := t.upnls ++ ids.map (markedPnl w a)
        initial := t.initial + (ids.map (initialOf w a)).sum
        maintenance := t.maintenance + (ids.map (maintenanceOf w a)).sum }
  | [], k, t, t', h => by
    simp only [positionInputs, List.map_nil, List.zipIdx_nil, List.foldlM_nil, pure_ok] at h
    simp [h]
  | m :: ids, k, t, t', h => by
    simp only [positionInputs, List.map_cons, List.zipIdx_cons, List.foldlM_cons, bind_ok_iff] at h
    obtain ⟨t₁, hm, h⟩ := h
    obtain ⟨hprice, rfl⟩ := addPosition_ok hm
    obtain ⟨hprices, rfl⟩ := addPositions_ok ids (k + 1) _ t' h
    refine ⟨List.forall_mem_cons.2 ⟨hprice, hprices⟩, ?_⟩
    simp [add_assoc]

/-- **The second pass** adds up the PnL of the cross positions, and every position is one. -/
theorem addEquities_ok :
    ∀ (ids : List MarketId) (t t' : Int × Int),
      ((positionInputs w a ids).zip (ids.map (markedPnl w a))).foldlM RiskLib.addEquity t = .ok t' →
      t' = (t.1, t.2 + (ids.map (markedPnl w a)).sum)
  | [], t, t', h => by
    simp only [positionInputs, List.map_nil, List.zip_nil_left, List.foldlM_nil, pure_ok] at h
    simp [h]
  | m :: ids, t, t', h => by
    simp only [positionInputs, List.map_cons, List.zip_cons_cons, List.foldlM_cons, bind_ok_iff] at h
    obtain ⟨t₁, hm, h⟩ := h
    simp only [RiskLib.addEquity, positionInput, Bool.false_eq_true, if_false, bind_ok_iff, M.add_ok, pure_ok] at hm
    obtain ⟨_, ⟨-, rfl⟩, rfl⟩ := hm
    rw [addEquities_ok ids _ t' h]
    simp [add_assoc]

theorem addCrossMaintenances_ok {all ids : List MarketId} {t t' : Int}
    (h : (positionInputs w a ids).foldlM (RiskLib.addCrossMaintenance (marketInputs w all)) t = .ok t') :
    t' = t + (ids.map (maintenanceOf w a)).sum := by
  have hsum := foldlM_accumulates (fun p : RiskPosition => maintenanceOf w a p.marketId)
    (RiskLib.addCrossMaintenance (marketInputs w all)) (positionInputs w a ids) t t' ?_ h
  · rw [hsum, List.map_map]
    rfl
  · intro s p s' hp hs
    obtain ⟨m, -, rfl⟩ := List.mem_map.1 hp
    simp only [RiskLib.addCrossMaintenance, positionInput, Bool.false_eq_true, if_false, bind_ok_iff] at hs
    obtain ⟨r, hr, n, hn, mm, hmm, hs⟩ := hs
    obtain rfl := findMarket_inputs hr
    obtain ⟨-, -, rfl⟩ := notional_ok hn
    rw [M.applyBps_ok] at hmm
    rw [M.add_ok] at hs
    rw [← hs.2, ← hmm.2]
    rfl

theorem addCollateral_ok {b v : Int} (h : [(⟨b, 0⟩ : RiskCollateral)].foldlM RiskLib.addCollateral 0 = .ok v) :
    v = b := by
  simp only [List.foldlM_cons, List.foldlM_nil, RiskLib.addCollateral, RiskLib.collateralValueAfterHaircut,
    bind_ok_iff, pure_ok, M.add_ok, zero_add] at h
  obtain ⟨_, ⟨b', hb, -, rfl⟩, rfl⟩ := h
  split at hb
  · rw [pure_ok] at hb
    exact hb.symm
  · simp only [bind_ok_iff, M.applyBps_ok, M.sub_ok] at hb
    obtain ⟨_, ⟨-, rfl⟩, -, rfl⟩ := hb
    simp

/-! ## The health -/

theorem sum_open (hl : Listed w.engine) {f : MarketId → Int}
    (hf : ∀ m, (w.engine.positions (a, m)).size = 0 → f m = 0) :
    ((Bitmap.marketIds (w.engine.marketBitmap a)).map f).sum = ∑ m, f m := by
  rw [← List.sum_toFinset f (Bitmap.marketIds_nodup (hl.word a))]
  refine Finset.sum_subset (Finset.subset_univ _) fun m _ hm => hf m ?_
  by_contra hopen
  exact hm (List.mem_toFinset.2 (hl.mem.2 hopen))

section
variable {m : MarketId} (h : (w.engine.positions (a, m)).size = 0)
include h

theorem markedPnl_flat : markedPnl w a m = 0 := by
  simp [markedPnl, tradePnlOf, fundingPnlOf, h]

theorem initialOf_flat : initialOf w a m = 0 := by
  simp [initialOf, marginOf, notionalOf, h]

theorem maintenanceOf_flat : maintenanceOf w a m = 0 := by
  simp [maintenanceOf, marginOf, notionalOf, h]

end

/-- The equity of an account: its balance and what its positions are marked at. -/
def equityOf (w : World) (a : Address) : Int := w.vault.balances a + ∑ m, markedPnl w a m

/-- An account whose open markets all have a price. -/
def Priced (w : World) (a : Address) : Prop :=
  ∀ m, (w.engine.positions (a, m)).size ≠ 0 → indexPrice w m = .ok (indexAt w m) ∧ 0 < indexAt w m

/-- What `accountHealth` returns. -/
structure IsHealth (w : World) (a : Address) (h : AccountHealth) : Prop where
  priced : Priced w a
  collateral : h.collateralValue = w.vault.balances a
  equity : h.equity = equityOf w a
  initial : h.initialMarginRequired = ∑ m, initialOf w a m
  maintenance : h.maintenanceMarginRequired = ∑ m, maintenanceOf w a m
  ratio : RiskLib.marginRatioOf h.equity h.maintenanceMarginRequired = .ok h.marginRatio
  liquidatable : h.liquidatable = true ↔
    0 < h.maintenanceMarginRequired ∧ h.equity < h.maintenanceMarginRequired

theorem riskInputs_ok {c : List RiskCollateral} {p : List RiskPosition} {mk : List RiskMarket}
    (h : riskInputs w a = .ok (c, p, mk)) :
    c = [⟨w.vault.balances a, 0⟩] ∧ p = positionInputs w a (Bitmap.marketIds (w.engine.marketBitmap a)) ∧
      mk = marketInputs w (Bitmap.marketIds (w.engine.marketBitmap a)) ∧
      ∀ m ∈ Bitmap.marketIds (w.engine.marketBitmap a), riskInput w a m = .ok (positionInput w a m, marketInput w m) := by
  simp only [riskInputs, bind_ok_iff, pure_ok, Prod.mk.injEq] at h
  obtain ⟨inputs, hinputs, rfl, rfl, rfl⟩ := h
  obtain ⟨rfl, hall⟩ := mapM_ok (fun m => (positionInput w a m, marketInput w m)) (riskInput w a) _ _
    (fun m r _ hr => riskInput_ok hr) hinputs
  refine ⟨rfl, ?_, ?_, hall⟩ <;>
  · rw [List.map_map]
    rfl

/-- **An account's health is its balance and sums over its markets.** -/
theorem accountHealth_ok (hl : Listed w.engine) {h : AccountHealth} (hh : accountHealth w a = .ok h) :
    IsHealth w a h := by
  simp only [accountHealth, bind_ok_iff] at hh
  obtain ⟨⟨_, _, _⟩, hinputs, hh⟩ := hh
  obtain ⟨rfl, rfl, rfl, hall⟩ := riskInputs_ok hinputs
  set ids := Bitmap.marketIds (w.engine.marketBitmap a) with hids
  simp only [RiskLib.accountHealth, bind_ok_iff] at hh
  obtain ⟨total, htotal, t, ht, cross, hcross, e, he, unrealized, hunrealized, crossEq, hcrossEq, equity, hequity, free,
    hfree, ratio, hratio, cm, hcm, ce, hce, hh⟩ := hh
  obtain ⟨hprices, rfl⟩ := addPositions_ok ids 0 _ t ht
  simp only [List.nil_append, zero_add] at he hunrealized hfree hratio hh hcross
  obtain rfl := addEquities_ok ids _ e he
  have hcm' := addCrossMaintenances_ok hcm
  rw [zero_add] at hcm'
  have hinitial : (ids.map (initialOf w a)).sum = ∑ m, initialOf w a m := sum_open hl fun m h0 => initialOf_flat h0
  have hmaintenance : (ids.map (maintenanceOf w a)).sum = ∑ m, maintenanceOf w a m :=
    sum_open hl fun m h0 => maintenanceOf_flat h0
  have hpnl : (ids.map (markedPnl w a)).sum = ∑ m, markedPnl w a m := sum_open hl fun m h0 => markedPnl_flat h0
  simp only [M.sub_ok, M.add_ok] at hcross hcrossEq hequity hfree hce
  obtain ⟨-, rfl⟩ := hcross
  obtain ⟨-, rfl⟩ := hcrossEq
  obtain ⟨-, rfl⟩ := hequity
  obtain ⟨-, rfl⟩ := hfree
  obtain ⟨-, rfl⟩ := hce
  rw [pure_ok] at hh
  subst hh
  obtain rfl := addCollateral_ok htotal
  have heq : w.vault.balances a - 0 + (0 + (ids.map (markedPnl w a)).sum) + 0 = equityOf w a := by
    rw [equityOf, hpnl]
    ring
  refine ⟨fun m hm => ?_, rfl, heq, hinitial, hmaintenance, hratio, ?_⟩
  · have hmem : m ∈ ids := hl.mem.2 hm
    exact ⟨riskInput_price (hall m hmem), hprices m hmem⟩
  · simp only [hcm', Bool.or_false, Bool.and_eq_true, decide_eq_true_eq, gt_iff_lt, add_zero]

end Kryon.Engine
