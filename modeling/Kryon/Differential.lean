import Kryon.RiskLib
import Kryon.RiskEngine
import Kryon.Lib.Agreement
/-!
# Differential — the Solidity libraries against the Rust reference

Every function of `risk_engine` and its Solidity port agree on every input: the same value, or the same error.  An
`i128` stands for the `int256` it is, a `u32` or `u64` for the `uint256` it is, and the `Map` of markets for any array
that lists its entries.
-/
namespace Kryon

open Program

/-! ## What a Rust value is in Solidity -/

/-- The Solidity error of the same name. -/
def CoreError.toError : CoreError → Error
  | .mathOverflow => .mathOverflow
  | .divisionByZero => .divisionByZero
  | .invalidAmount => .invalidAmount
  | .invalidPrice => .invalidPrice
  | .invalidConfig => .invalidConfig
  | .insufficientCollateral => .insufficientCollateral
  | .notLiquidatable => .notLiquidatable

def SameError (e : CoreError) (e' : Error) : Prop := e.toError = e'

def SameValue (a : I128) (b : Int) : Prop := a.val = b

def ProtocolCore.CollateralBalance.toRisk (c : ProtocolCore.CollateralBalance) : RiskCollateral :=
  ⟨c.value.val, c.haircutBps.toNat⟩

def ProtocolCore.Position.toRisk (p : ProtocolCore.Position) : RiskPosition where
  positionId := p.positionId.toNat
  marketId := p.marketId
  size := p.size.val
  entryPrice := p.entryPrice.val
  margin := p.margin.val
  isLong := p.isLong
  lastFundingIndex := p.lastFundingIndex.val
  isolated := decide (p.mode = .isolated)

def ProtocolCore.MarketSnapshot.toRisk (marketId : MarketId) (m : ProtocolCore.MarketSnapshot) : RiskMarket where
  marketId := marketId
  initialMarginBps := m.config.initialMarginBps.toNat
  maintenanceMarginBps := m.config.maintenanceMarginBps.toNat
  liquidationFeeBps := m.config.liquidationFeeBps.toNat
  active := m.config.active
  oraclePrice := m.oraclePrice.val
  fundingIndexLong := m.fundingIndexLong.val
  fundingIndexShort := m.fundingIndexShort.val

def ProtocolCore.Markets.toRisk (markets : ProtocolCore.Markets) : List RiskMarket :=
  markets.entries.map (fun e => e.2.toRisk e.1)

/-- **The array answers every lookup as the map does.** -/
def ProtocolCore.Markets.Listed (markets : ProtocolCore.Markets) (ms : List RiskMarket) : Prop :=
  ∀ marketId, ms.find? (fun m => m.marketId = marketId) = (markets.get marketId).map (·.toRisk marketId)

def RiskEngine.AccountHealth.toRisk (h : RiskEngine.AccountHealth) : Kryon.AccountHealth where
  collateralValue := h.collateralValue.val
  unrealizedPnl := h.unrealizedPnl.val
  equity := h.equity.val
  initialMarginRequired := h.initialMarginRequired.val
  maintenanceMarginRequired := h.maintenanceMarginRequired.val
  freeCollateral := h.freeCollateral.val
  marginRatio := h.marginRatio.val
  liquidatable := h.liquidatable

def RiskEngine.LiquidationPlan.toRisk (p : RiskEngine.LiquidationPlan) : Kryon.LiquidationPlan where
  mode := p.mode
  positionId := p.positionId.toNat
  closeSize := p.closeSize.val
  penalty := p.penalty.val
  expectedHealth := p.expectedHealth.toRisk

def RiskEngine.FundingConfig.toRisk (c : RiskEngine.FundingConfig) : Kryon.FundingConfig :=
  ⟨c.imbalanceCoeff.val, c.maxRatePerHour.val⟩

def RiskEngine.FundingState.toRisk (s : RiskEngine.FundingState) : Kryon.FundingState :=
  ⟨s.longIndex.val, s.shortIndex.val, s.ratePerHour.val, s.lastUpdate.toNat⟩

namespace ProtocolCore

theorem Markets.listed_of_perm {markets : Markets} {ms : List RiskMarket} (h : ms.Perm markets.toRisk) :
    markets.Listed ms := by
  intro marketId
  have hnodup : (ms.map RiskMarket.marketId).Nodup := by
    have hp := h.map RiskMarket.marketId
    rw [Markets.toRisk, List.map_map] at hp
    exact hp.nodup_iff.2 markets.nodup
  have hkey : ∀ m ∈ ms, ∀ m' ∈ ms, m.marketId = m'.marketId → m = m' := fun m hm m' hm' =>
    List.inj_on_of_nodup_map hnodup hm hm'
  unfold Markets.get
  cases hfind : markets.entries.find? (fun e => e.1 = marketId) with
  | none =>
    rw [List.find?_eq_none] at hfind
    simp only [Option.map_none, List.find?_eq_none, decide_eq_true_eq]
    intro m hm heq
    obtain ⟨e, he, rfl⟩ := List.mem_map.1 (h.mem_iff.1 hm)
    exact hfind e he (decide_eq_true heq)
  | some e =>
    have he : e ∈ markets.entries := List.mem_of_find?_eq_some hfind
    have hid : e.1 = marketId := by simpa using List.find?_some hfind
    have hm : e.2.toRisk e.1 ∈ ms := h.mem_iff.2 (List.mem_map.2 ⟨e, he, rfl⟩)
    subst hid
    cases hms : ms.find? (fun m => m.marketId = e.1) with
    | none =>
      rw [List.find?_eq_none] at hms
      exact absurd (hms _ hm) (by simp [MarketSnapshot.toRisk])
    | some m =>
      have hmid : m.marketId = e.1 := by simpa using List.find?_some hms
      rw [hkey m (List.mem_of_find?_eq_some hms) _ hm hmid]
      rfl

/-! ## fixed.rs -/

theorem bound128_val (a : I128) : M.bound128 a.val = .ok a.val := (M.bound128_ok _ _).2 ⟨a.inRange, rfl⟩

theorem checked_agree (v : Int) : Agree SameError SameValue (okOr (I128.checked v) .mathOverflow) (M.bound128 v) := by
  unfold I128.checked
  by_cases h : M.InRange v
  · rw [dif_pos h, (M.bound128_ok v v).2 ⟨h, rfl⟩]
    rfl
  · rw [dif_neg h]
    have hb : M.bound128 v = .error .mathOverflow := by
      cases hv : M.bound128 v with
      | ok w => exact absurd ((M.bound128_ok v w).1 hv).1 h
      | error e =>
        unfold M.bound128 at hv
        split at hv
        · exact hv.symm
        · cases hv
    rw [hb]
    rfl

theorem checkedAdd_agree (a b : I128) : Agree SameError SameValue (checkedAdd a b) (M.add a.val b.val) := by
  unfold M.add
  rw [bound128_val, ok_bind, bound128_val, ok_bind]
  exact checked_agree _

theorem checkedSub_agree (a b : I128) : Agree SameError SameValue (checkedSub a b) (M.sub a.val b.val) := by
  unfold M.sub
  rw [bound128_val, ok_bind, bound128_val, ok_bind]
  exact checked_agree _

/-- No product of two `i128` leaves 256 bits. -/
theorem mul_in256 (a b : I128) : -2 ^ 255 < a.val * b.val ∧ a.val * b.val < 2 ^ 255 := by
  have ha := a.inRange
  have hb := b.inRange
  simp only [M.InRange, I128_MIN, I128_MAX] at ha hb
  have habs : (a.val * b.val).natAbs ≤ 2 ^ 127 * 2 ^ 127 := by
    rw [Int.natAbs_mul]
    exact Nat.mul_le_mul (by omega) (by omega)
  omega

theorem tdiv_in256 {v : Int} (h : -2 ^ 255 < v ∧ v < 2 ^ 255) (d : Int) :
    -2 ^ 255 ≤ v.tdiv d ∧ v.tdiv d < 2 ^ 255 := by
  have habs := Int.natAbs_tdiv_le_natAbs v d
  omega

/-- **The 256-bit intermediate of the one is the `int256` intermediate of the other.** -/
theorem wide_mulDiv (a b d : I128) (hd : d.val ≠ 0) : ∃ v : I256, v.val = (a.val * b.val).tdiv d.val ∧
    (I256.checkedMul (.ofI128 a) (.ofI128 b)).bind (I256.checkedDiv · (.ofI128 d)) = some v := by
  have hmul := mul_in256 a b
  have hdiv := tdiv_in256 hmul d.val
  refine ⟨⟨_, hdiv⟩, rfl, ?_⟩
  have h1 : I256.checkedMul (.ofI128 a) (.ofI128 b) = some ⟨a.val * b.val, ⟨hmul.1.le, hmul.2⟩⟩ :=
    dif_pos (⟨hmul.1.le, hmul.2⟩ : -2 ^ 255 ≤ a.val * b.val ∧ a.val * b.val < 2 ^ 255)
  have h2 : I256.checkedDiv ⟨a.val * b.val, ⟨hmul.1.le, hmul.2⟩⟩ (.ofI128 d) = some ⟨_, hdiv⟩ := by
    rw [I256.checkedDiv, if_neg (show (I256.ofI128 d).val ≠ 0 from hd)]
    exact dif_pos hdiv
  rw [h1, Option.bind_some, h2]

theorem mulDiv_agree (a b d : I128) : Agree SameError SameValue (mulDiv a b d) (M.mulDiv a.val b.val d.val) := by
  unfold mulDiv M.mulDiv
  refine Agree.guard (E := SameError) Iff.rfl rfl (fun hd => ?_)
  obtain ⟨v, hv, hwide⟩ := wide_mulDiv a b d hd
  rw [hwide, bound128_val, ok_bind, bound128_val, ok_bind, bound128_val, ok_bind, ← hv]
  exact checked_agree v.val

theorem mulPrecision_agree (a b : I128) :
    Agree SameError SameValue (mulPrecision a b) (M.mulPrecision a.val b.val) := mulDiv_agree a b PRECISION

theorem divPrecision_agree (a b : I128) :
    Agree SameError SameValue (divPrecision a b) (M.divPrecision a.val b.val) := mulDiv_agree a PRECISION b

theorem applyBps_agree (amount : I128) (bps : UInt32) :
    Agree SameError SameValue (applyBps amount bps) (M.applyBps amount.val bps.toNat) := by
  unfold applyBps M.applyBps
  refine Agree.guard (E := SameError) Iff.rfl rfl (fun _ => ?_)
  exact mulDiv_agree amount (.ofU32 bps) BPS_DENOMINATOR

/-! ## accounting.rs -/

theorem collateralValueAfterHaircut_agree (value : I128) (haircutBps : UInt32) :
    Agree SameError SameValue (collateralValueAfterHaircut value haircutBps)
      (RiskLib.collateralValueAfterHaircut value.val haircutBps.toNat) := by
  unfold collateralValueAfterHaircut RiskLib.collateralValueAfterHaircut
  apply Agree.ite Iff.rfl
  · intro _
    rfl
  · intro _
    apply Agree.bind (applyBps_agree value haircutBps)
    rintro haircut _ rfl
    exact checkedSub_agree value haircut

theorem notional_agree (size price : I128) :
    Agree SameError SameValue (notional size price) (RiskLib.notional size.val price.val) := by
  unfold notional RiskLib.notional
  refine Agree.guard (E := SameError) Iff.rfl rfl (fun _ => ?_)
  exact mulPrecision_agree size price

theorem signedPositionPnl_agree (p : Position) (markPrice : I128) :
    Agree SameError SameValue (signedPositionPnl p markPrice) (RiskLib.signedPositionPnl p.toRisk markPrice.val) := by
  unfold signedPositionPnl RiskLib.signedPositionPnl
  refine Agree.guard (E := SameError) Iff.rfl rfl (fun _ => ?_)
  apply Agree.bind (Agree.ite Iff.rfl (fun _ => checkedSub_agree markPrice p.entryPrice)
    (fun _ => checkedSub_agree p.entryPrice markPrice))
  rintro priceDelta _ rfl
  exact mulPrecision_agree p.size priceDelta

theorem fundingPnl_agree (p : Position) (currentIndex : I128) :
    Agree SameError SameValue (fundingPnl p currentIndex) (RiskLib.fundingPnl p.toRisk currentIndex.val) := by
  unfold fundingPnl RiskLib.fundingPnl
  apply Agree.bind (checkedSub_agree currentIndex p.lastFundingIndex)
  rintro delta _ rfl
  apply Agree.bind (mulPrecision_agree p.size delta)
  rintro owed _ rfl
  exact checkedSub_agree .ZERO owed

end ProtocolCore

/-! ## margin.rs -/

namespace RiskEngine

open ProtocolCore

variable {markets : Markets} {ms : List RiskMarket}

theorem getMarket_agree (hms : markets.Listed ms) (marketId : MarketId) :
    Agree SameError (fun m m' => m.toRisk marketId = m') (getMarket markets marketId) (RiskLib.findMarket ms marketId) := by
  unfold getMarket RiskLib.findMarket
  rw [hms marketId]
  cases markets.get marketId with
  | none => rfl
  | some m => rfl

theorem addCollateral_agree (total : I128) (c : CollateralBalance) :
    Agree SameError SameValue (addCollateral total c) (RiskLib.addCollateral total.val c.toRisk) := by
  unfold addCollateral RiskLib.addCollateral
  apply Agree.bind (collateralValueAfterHaircut_agree c.value c.haircutBps)
  rintro v _ rfl
  exact checkedAdd_agree total v

/-- The first pass keeps the same totals, and has filled as much of its buffer as it has seen positions. -/
def SameTotals (n : Nat) (t : Totals) (t' : RiskLib.Totals) : Prop :=
  t.pnlBuf.length = n ∧
    t' = ⟨t.pnlBuf.map I128.val, t.initial.val, t.maintenance.val, t.lockedIsolatedMargin.val, t.anyIsolatedLiquidatable⟩

/-- **One turn of the first pass agrees.** -/
theorem addPosition_agree (hms : markets.Listed ms) (n : Nat) (t : Totals) (t' : RiskLib.Totals)
    (p : ProtocolCore.Position) (ht : SameTotals n t t') :
    Agree SameError (SameTotals (n + 1)) (addPosition markets t p) (RiskLib.addPosition ms t' (p.toRisk, n)) := by
  obtain ⟨rfl, rfl⟩ := ht
  unfold addPosition RiskLib.addPosition
  refine Agree.guard (E := SameError) Iff.rfl rfl (fun _ => ?_)
  apply Agree.bind (getMarket_agree hms p.marketId)
  rintro m _ rfl
  refine Agree.guard (E := SameError) Iff.rfl rfl (fun _ => ?_)
  apply Agree.bind (signedPositionPnl_agree p m.oraclePrice)
  rintro tradePnl _ rfl
  have hfunding : (if p.toRisk.isLong then (m.toRisk p.marketId).fundingIndexLong
      else (m.toRisk p.marketId).fundingIndexShort) =
        (if p.isLong then m.fundingIndexLong else m.fundingIndexShort).val := by
    cases h : p.isLong <;> simp [Position.toRisk, MarketSnapshot.toRisk, h]
  simp only [hfunding]
  apply Agree.bind (fundingPnl_agree p _)
  rintro fPnl _ rfl
  apply Agree.bind (checkedAdd_agree tradePnl fPnl)
  rintro upnl _ rfl
  apply Agree.bind (notional_agree p.size m.oraclePrice)
  rintro notional _ rfl
  apply Agree.bind (applyBps_agree notional m.config.initialMarginBps)
  rintro im _ rfl
  apply Agree.bind (checkedAdd_agree t.initial im)
  rintro initial _ rfl
  apply Agree.bind (applyBps_agree notional m.config.maintenanceMarginBps)
  rintro mm _ rfl
  apply Agree.bind (checkedAdd_agree t.maintenance mm)
  rintro maintenance _ rfl
  apply Agree.ite (by simp [Position.toRisk])
  · intro _
    apply Agree.bind (checkedAdd_agree t.lockedIsolatedMargin p.margin)
    rintro locked _ rfl
    apply Agree.bind (applyBps_agree notional m.config.maintenanceMarginBps)
    rintro isoMaintenance _ rfl
    apply Agree.bind (checkedAdd_agree p.margin upnl)
    rintro isoEquity _ rfl
    rw [agree_pure]
    refine ⟨by simp, ?_⟩
    rw [List.map_append]
    congr 1
    by_cases hiso : isoMaintenance.val > 0 ∧ isoEquity.val < isoMaintenance.val
    · simp [hiso]
    · rw [if_neg hiso, ← Bool.decide_and, decide_eq_false hiso, Bool.or_false]
  · intro _
    rw [agree_pure]
    exact ⟨by simp, by simp⟩

theorem addEquity_agree (t : I128 × I128) (t' : Int × Int) (e : ProtocolCore.Position × I128)
    (ht : (t.1.val, t.2.val) = t') :
    Agree SameError (fun t t' => (t.1.val, t.2.val) = t') (addEquity t e)
      (RiskLib.addEquity t' (Prod.map Position.toRisk I128.val e)) := by
  subst ht
  unfold addEquity RiskLib.addEquity
  apply Agree.ite (by simp [Position.toRisk])
  · intro _
    apply Agree.bind (checkedAdd_agree e.1.margin e.2)
    rintro iso _ rfl
    apply Agree.bind (checkedAdd_agree t.1 iso)
    rintro isolatedEquity _ rfl
    rfl
  · intro _
    apply Agree.bind (checkedAdd_agree t.2 e.2)
    rintro crossUnrealized _ rfl
    rfl

theorem addCrossMaintenance_agree (hms : markets.Listed ms) (t : I128) (t' : Int) (p : ProtocolCore.Position)
    (ht : SameValue t t') :
    Agree SameError SameValue (addCrossMaintenance markets t p) (RiskLib.addCrossMaintenance ms t' p.toRisk) := by
  cases ht
  unfold addCrossMaintenance RiskLib.addCrossMaintenance
  cases hmode : p.mode with
  | isolated =>
    have hiso : p.toRisk.isolated = true := by simp [Position.toRisk, hmode]
    rw [if_neg (by simp), if_pos hiso]
    rfl
  | cross =>
    have hiso : ¬ p.toRisk.isolated = true := by simp [Position.toRisk, hmode]
    rw [if_pos rfl, if_neg hiso]
    apply Agree.bind (getMarket_agree hms p.marketId)
    rintro m _ rfl
    apply Agree.bind (notional_agree p.size m.oraclePrice)
    rintro n _ rfl
    apply Agree.bind (applyBps_agree n m.config.maintenanceMarginBps)
    rintro mm _ rfl
    exact checkedAdd_agree t mm

theorem addSigned_agree (values : List I128) :
    Agree SameError SameValue (addSigned values) ((values.map I128.val).foldlM M.add 0) := by
  unfold addSigned
  apply Agree.foldlM_map
  · rintro s _ v rfl
    exact checkedAdd_agree s v
  · rfl

theorem marginRatioOf_agree (equity maintenance : I128) :
    Agree SameError SameValue (marginRatioOf equity maintenance) (RiskLib.marginRatioOf equity.val maintenance.val) := by
  unfold marginRatioOf RiskLib.marginRatioOf
  exact Agree.ite Iff.rfl (fun _ => divPrecision_agree equity maintenance) (fun _ => rfl)

def SameHealth (h : AccountHealth) (h' : Kryon.AccountHealth) : Prop := h.toRisk = h'

theorem collateral_agree (collateral : List CollateralBalance) :
    Agree SameError SameValue (collateral.foldlM addCollateral .ZERO)
      ((collateral.map CollateralBalance.toRisk).foldlM RiskLib.addCollateral 0) := by
  apply Agree.foldlM_map
  · rintro s _ c rfl
    exact addCollateral_agree s c
  · rfl

theorem positions_agree (hms : markets.Listed ms) (positions : List ProtocolCore.Position) :
    Agree SameError (SameTotals positions.length)
      (positions.foldlM (addPosition markets) ⟨[], .ZERO, .ZERO, .ZERO, false⟩)
      ((positions.map Position.toRisk).zipIdx.foldlM (RiskLib.addPosition ms) ⟨[], 0, 0, 0, false⟩) := by
  have h := Agree.foldlM_zipIdx (fun n t t' p => addPosition_agree hms n t t' p) positions 0
    ⟨[], .ZERO, .ZERO, .ZERO, false⟩ ⟨[], 0, 0, 0, false⟩ ⟨rfl, rfl⟩
  rwa [Nat.zero_add] at h

theorem equity_agree (positions : List ProtocolCore.Position) (pnlBuf : List I128) :
    Agree SameError (fun t t' => (t.1.val, t.2.val) = t') ((positions.zip pnlBuf).foldlM addEquity (.ZERO, .ZERO))
      (((positions.map Position.toRisk).zip (pnlBuf.map I128.val)).foldlM RiskLib.addEquity (0, 0)) := by
  rw [List.zip_map]
  apply Agree.foldlM_map
  · intro t t' e ht
    exact addEquity_agree t t' e ht
  · rfl

theorem crossMaintenance_agree (hms : markets.Listed ms) (positions : List ProtocolCore.Position) :
    Agree SameError SameValue (positions.foldlM (addCrossMaintenance markets) .ZERO)
      ((positions.map Position.toRisk).foldlM (RiskLib.addCrossMaintenance ms) 0) := by
  apply Agree.foldlM_map
  · intro t t' p ht
    exact addCrossMaintenance_agree hms t t' p ht
  · rfl

/-- **The account health agrees.** -/
theorem accountHealth_agree (hms : markets.Listed ms) (account : AccountSnapshot) :
    Agree SameError SameHealth (accountHealth account markets)
      (RiskLib.accountHealth (account.collateral.map CollateralBalance.toRisk)
        (account.positions.map Position.toRisk) ms) := by
  unfold accountHealth RiskLib.accountHealth
  apply Agree.bind (collateral_agree account.collateral)
  rintro total _ rfl
  apply Agree.bind (positions_agree hms account.positions)
  rintro t _ ⟨-, rfl⟩
  apply Agree.bind (checkedSub_agree total t.lockedIsolatedMargin)
  rintro crossCollateral _ rfl
  apply Agree.bind (equity_agree account.positions t.pnlBuf)
  rintro ⟨isolatedEquity, crossUnrealized⟩ _ rfl
  apply Agree.bind (addSigned_agree t.pnlBuf)
  rintro unrealized _ rfl
  apply Agree.bind (checkedAdd_agree crossCollateral crossUnrealized)
  rintro cross _ rfl
  apply Agree.bind (checkedAdd_agree cross isolatedEquity)
  rintro equity _ rfl
  apply Agree.bind (checkedSub_agree equity t.initial)
  rintro freeCollateral _ rfl
  apply Agree.bind (marginRatioOf_agree equity t.maintenance)
  rintro marginRatio _ rfl
  apply Agree.bind (crossMaintenance_agree hms account.positions)
  rintro crossMaintenance _ rfl
  apply Agree.bind (checkedAdd_agree crossCollateral crossUnrealized)
  rintro crossEquity _ rfl
  rfl

theorem validateWithdrawal_agree (hms : markets.Listed ms) (account : AccountSnapshot) (withdrawalValue : I128) :
    Agree SameError SameHealth (validateWithdrawal account markets withdrawalValue)
      (RiskLib.validateWithdrawal (account.collateral.map CollateralBalance.toRisk)
        (account.positions.map Position.toRisk) ms withdrawalValue.val) := by
  unfold validateWithdrawal RiskLib.validateWithdrawal RiskLib.applyWithdrawal
  refine Agree.guard (E := SameError) Iff.rfl rfl (fun _ => ?_)
  apply Agree.bind (accountHealth_agree hms account)
  rintro h _ rfl
  simp only [bind_assoc, pure_bind]
  apply Agree.bind (checkedSub_agree h.collateralValue withdrawalValue)
  rintro collateralValue _ rfl
  apply Agree.bind (checkedSub_agree h.equity withdrawalValue)
  rintro equity _ rfl
  apply Agree.bind (checkedSub_agree equity h.initialMarginRequired)
  rintro freeCollateral _ rfl
  apply Agree.bind (marginRatioOf_agree equity h.maintenanceMarginRequired)
  rintro marginRatio _ rfl
  refine Agree.guard (E := SameError) Iff.rfl rfl (fun _ => ?_)
  rfl

/-! ## liquidation.rs -/

def SamePlan (p : LiquidationPlan) (p' : Kryon.LiquidationPlan) : Prop := p.toRisk = p'

theorem findPosition_agree (account : AccountSnapshot) (positionId : UInt64) :
    Agree SameError (fun p p' => p.toRisk = p') (findPosition account positionId)
      (LiquidationLib.find (account.positions.map Position.toRisk) positionId.toNat) := by
  unfold findPosition LiquidationLib.find
  rw [List.find?_map]
  have hsame : ((fun p : RiskPosition => decide (p.positionId = positionId.toNat)) ∘ Position.toRisk) =
      fun p : ProtocolCore.Position => decide (p.positionId = positionId) := by
    funext p
    simp [Position.toRisk, UInt64.toNat_inj]
  rw [hsame]
  cases account.positions.find? (fun p => decide (p.positionId = positionId)) with
  | none => rfl
  | some p => rfl

theorem minSizeToCover_agree (p : ProtocolCore.Position) (m : MarketSnapshot) (shortfall notional : I128) :
    Agree SameError SameValue (minSizeToCover p m shortfall notional)
      (LiquidationLib.minToCover p.toRisk (m.toRisk p.marketId) shortfall.val notional.val) := by
  unfold minSizeToCover LiquidationLib.minToCover
  apply Agree.ite Iff.rfl
  · intro _
    rfl
  · intro _
    apply Agree.bind (mulDiv_agree notional
      (.subU32 m.config.maintenanceMarginBps m.config.liquidationFeeBps) BPS_DENOMINATOR)
    rintro freed _ rfl
    apply Agree.ite Iff.rfl
    · intro _
      rfl
    · intro _
      apply Agree.bind (mulDiv_agree p.size shortfall freed)
      rintro q _ rfl
      exact checkedAdd_agree q .ONE

/-- **The liquidation plan agrees.** -/
theorem planLiquidation_agree (hms : markets.Listed ms) (account : AccountSnapshot) (targetPositionId : UInt64)
    (partialLiquidationBps : UInt32) :
    Agree SameError SamePlan (planLiquidation account markets targetPositionId partialLiquidationBps)
      (LiquidationLib.planLiquidation (account.collateral.map CollateralBalance.toRisk)
        (account.positions.map Position.toRisk) ms targetPositionId.toNat partialLiquidationBps.toNat) := by
  unfold planLiquidation LiquidationLib.planLiquidation
  apply Agree.bind (accountHealth_agree hms account)
  rintro h _ rfl
  refine Agree.guard (E := SameError) Iff.rfl rfl (fun _ => ?_)
  refine Agree.guard (E := SameError) Iff.rfl rfl (fun _ => ?_)
  apply Agree.bind (findPosition_agree account targetPositionId)
  rintro p _ rfl
  apply Agree.bind (getMarket_agree hms p.marketId)
  rintro m _ rfl
  apply Agree.bind (checkedSub_agree h.maintenanceMarginRequired h.equity)
  rintro shortfall _ rfl
  apply Agree.bind (notional_agree p.size m.oraclePrice)
  rintro notional _ rfl
  apply Agree.bind (mulDiv_agree p.size (.ofU32 partialLiquidationBps) BPS_DENOMINATOR)
  rintro maxPartial _ rfl
  apply Agree.bind (minSizeToCover_agree p m shortfall notional)
  rintro cover _ rfl
  have hclose : (if cover.val ≥ p.toRisk.size then p.toRisk.size
      else if cover.val ≤ maxPartial.val then cover.val else maxPartial.val) =
        (if cover.val ≥ p.size.val then p.size else if cover.val ≤ maxPartial.val then cover else maxPartial).val := by
    rw [apply_ite I128.val, apply_ite I128.val]
    rfl
  simp only [hclose]
  apply Agree.bind (notional_agree _ m.oraclePrice)
  rintro closeNotional _ rfl
  apply Agree.bind (applyBps_agree closeNotional m.config.liquidationFeeBps)
  rintro penalty _ rfl
  rfl

/-! ## funding.rs -/

def SameFunding (s : FundingState) (s' : Kryon.FundingState) : Prop := s.toRisk = s'

theorem clamp_val (value min max : I128) : (clamp value min max).val = M.clamp value.val min.val max.val := by
  unfold clamp M.clamp
  split
  · rfl
  · split <;> rfl

theorem elapsed_val {last now : UInt64} (h : last < now) :
    (I128.ofU64 (Min.min (now - last) MAX_FUNDING_ELAPSED_SECS)).val =
      (Nat.min (now.toNat - last.toNat) MAX_FUNDING_ELAPSED_SECS.toNat : Int) := by
  have hsub : (now - last).toNat = now.toNat - last.toNat := UInt64.toNat_sub_of_le now last (UInt64.le_of_lt h)
  change ((if now - last ≤ MAX_FUNDING_ELAPSED_SECS then now - last else MAX_FUNDING_ELAPSED_SECS).toNat : Int) = _
  rw [← hsub]
  split
  · rename_i hle
    have := UInt64.le_iff_toNat_le.1 hle
    exact_mod_cast (Nat.min_eq_left this).symm
  · rename_i hle
    have := UInt64.le_iff_toNat_le.1 (UInt64.le_of_lt (UInt64.not_le.1 hle))
    exact_mod_cast (Nat.min_eq_right this).symm

/-- **The funding update agrees.** -/
theorem updateFromPremium_agree (cfg : FundingConfig) (state : FundingState) (premium : I128) (now : UInt64) :
    Agree SameError SameFunding (updateFromPremium cfg state premium now)
      (FundingLib.updateFromPremium cfg.toRisk state.toRisk premium.val now.toNat) := by
  unfold updateFromPremium FundingLib.updateFromPremium
  by_cases hcfg : cfg.imbalanceCoeff.val < 0 ∨ cfg.maxRatePerHour.val ≤ 0
  · have hrevert : revertIf (cfg.toRisk.premiumCoeff < 0 ∨ cfg.toRisk.maxRatePerHour ≤ 0) Error.invalidConfig =
        .error .invalidConfig := if_pos hcfg
    rw [dif_pos hcfg, hrevert]
    rfl
  · rw [dif_neg hcfg, revertIf_of_not (show ¬ (cfg.toRisk.premiumCoeff < 0 ∨ cfg.toRisk.maxRatePerHour ≤ 0) from hcfg),
      ok_bind]
    apply Agree.ite UInt64.le_iff_toNat_le
    · intro _
      rfl
    · intro hnow
      apply Agree.bind (mulPrecision_agree premium cfg.imbalanceCoeff)
      rintro rawRate _ rfl
      have hmax : 0 < cfg.maxRatePerHour.val := by omega
      have helapsed : (Nat.min (now.toNat - state.toRisk.lastUpdate) FundingLib.MAX_FUNDING_ELAPSED_SECS : Int) =
          (I128.ofU64 (Min.min (now - state.lastUpdate) MAX_FUNDING_ELAPSED_SECS)).val := by
        rw [elapsed_val (UInt64.not_le.1 hnow)]
        rfl
      have hrate : M.clamp rawRate.val (-cfg.toRisk.maxRatePerHour) cfg.toRisk.maxRatePerHour =
          (clamp rawRate (cfg.maxRatePerHour.neg hmax) cfg.maxRatePerHour).val :=
        (clamp_val rawRate (cfg.maxRatePerHour.neg hmax) cfg.maxRatePerHour).symm
      simp only [hrate, helapsed]
      apply Agree.bind (mulDiv_agree _ _ (.ofU64 SECS_PER_HOUR))
      rintro delta _ rfl
      apply Agree.bind (checkedAdd_agree state.longIndex delta)
      rintro longIndex _ rfl
      apply Agree.bind (checkedSub_agree state.shortIndex delta)
      rintro shortIndex _ rfl
      rfl

theorem premiumFromMark_agree (mark index : I128) :
    Agree SameError SameValue (premiumFromMark mark index) (FundingLib.premiumFromMark mark.val index.val) := by
  unfold premiumFromMark FundingLib.premiumFromMark
  refine Agree.guard (E := SameError) Iff.rfl rfl (fun _ => ?_)
  apply Agree.bind (checkedSub_agree mark index)
  rintro d _ rfl
  exact divPrecision_agree d index

end RiskEngine

/-- **The two risk engines agree on every input**, value for value and error for error: the account health, the
withdrawal check, the liquidation plan, the funding update and the premium it is fed. -/
theorem risk_engines_agree (account : ProtocolCore.AccountSnapshot) (markets : ProtocolCore.Markets)
    (ms : List RiskMarket) (hms : markets.Listed ms) (withdrawalValue : I128) (targetPositionId : UInt64)
    (partialLiquidationBps : UInt32) (cfg : RiskEngine.FundingConfig) (state : RiskEngine.FundingState)
    (premium mark index : I128) (now : UInt64) :
    let collateral := account.collateral.map (·.toRisk)
    let positions := account.positions.map (·.toRisk)
    Agree SameError (fun h h' => h.toRisk = h') (RiskEngine.accountHealth account markets)
        (RiskLib.accountHealth collateral positions ms) ∧
      Agree SameError (fun h h' => h.toRisk = h') (RiskEngine.validateWithdrawal account markets withdrawalValue)
        (RiskLib.validateWithdrawal collateral positions ms withdrawalValue.val) ∧
      Agree SameError (fun p p' => p.toRisk = p')
        (RiskEngine.planLiquidation account markets targetPositionId partialLiquidationBps)
        (LiquidationLib.planLiquidation collateral positions ms targetPositionId.toNat partialLiquidationBps.toNat) ∧
      Agree SameError (fun s s' => s.toRisk = s') (RiskEngine.updateFromPremium cfg state premium now)
        (FundingLib.updateFromPremium cfg.toRisk state.toRisk premium.val now.toNat) ∧
      Agree SameError SameValue (RiskEngine.premiumFromMark mark index)
        (FundingLib.premiumFromMark mark.val index.val) :=
  ⟨RiskEngine.accountHealth_agree hms account, RiskEngine.validateWithdrawal_agree hms account withdrawalValue,
    RiskEngine.planLiquidation_agree hms account targetPositionId partialLiquidationBps,
    RiskEngine.updateFromPremium_agree cfg state premium now, RiskEngine.premiumFromMark_agree mark index⟩

/-! ## One account in both -/

namespace Breach

open ProtocolCore

def price : I128 := ⟨93700000000000000000, by decide⟩
def hundred : I128 := ⟨100 * 10 ^ 18, by decide⟩
def thousand : I128 := ⟨1000 * 10 ^ 18, by decide⟩

/-- 1,000 of collateral and 100 long at 100. -/
def account : AccountSnapshot where
  collateral := [⟨thousand, 0⟩]
  positions := [⟨42, 1, hundred, hundred, .ZERO, true, .ZERO, .cross⟩]

/-- The market is marked at 93.7; another one stands beside it. -/
def markets : Markets where
  entries := [(1, ⟨⟨1000, 500, 50, true⟩, price, .ZERO, .ZERO⟩), (2, ⟨⟨1000, 500, 50, true⟩, hundred, .ZERO, .ZERO⟩)]
  nodup := by decide

end Breach

/-- The array may list the markets the other way round; the breach is closed in part by both. -/
theorem risk_engines_agree_breach :
    Breach.markets.Listed Breach.markets.toRisk.reverse ∧
      Agree SameError (fun p p' => p.toRisk = p') (RiskEngine.planLiquidation Breach.account Breach.markets 42 5000)
        (LiquidationLib.planLiquidation (Breach.account.collateral.map (·.toRisk))
          (Breach.account.positions.map (·.toRisk)) Breach.markets.toRisk.reverse 42 5000) ∧
      (RiskEngine.planLiquidation Breach.account Breach.markets 42 5000).map (fun p => (p.mode, p.closeSize.val)) =
        .ok (.partial_, 23360607138622079925) := by
  have hlisted : Breach.markets.Listed Breach.markets.toRisk.reverse :=
    ProtocolCore.Markets.listed_of_perm (List.reverse_perm _)
  have hagree := risk_engines_agree Breach.account Breach.markets Breach.markets.toRisk.reverse hlisted .ZERO 42 5000
    ⟨.ZERO, .ONE⟩ ⟨.ZERO, .ZERO, .ZERO, 0⟩ .ZERO .ONE .ONE 0
  exact ⟨hlisted, hagree.2.2.1, by decide⟩

end Kryon
