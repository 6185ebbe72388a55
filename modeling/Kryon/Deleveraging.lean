import Kryon.Margins
import Kryon.Basis
import Kryon.Backstop
import Kryon.Debts
/-!
# Deleveraging — what a sequence of `adl` calls takes

Each `adl` call takes at most the shortfall it reads, and that raises the backstop's marked operating balance by what it
took, up to the rounding of the two trades and of the marks.  So a sequence of calls takes at most what the recorded debt
exceeds the marked balance by when it starts, and the rounding of its calls.
-/
namespace Kryon

open Program Transition
open Function (update)

namespace Engine

/-! ## Marks -/

/-- A unit's entry, floored at one, marks a basis up to one for each unit. -/
theorem entry_near {s b : Int} (hs : 0 < s) (hb : 0 ≤ b) :
    |s * max 1 ((b * PRECISION).tdiv s) - b * PRECISION| ≤ s := by
  have hbp : 0 ≤ b * PRECISION := mul_nonneg hb (by decide)
  rw [Int.tdiv_eq_ediv_of_nonneg hbp]
  have hlow := Int.mul_ediv_self_le (x := b * PRECISION) hs.ne'
  have hhigh := Int.lt_mul_ediv_self_add (x := b * PRECISION) hs
  rw [abs_le]
  rcases le_or_gt 1 (b * PRECISION / s) with h1 | h1
  · rw [max_eq_right h1]
    constructor <;> omega
  · have h0 : b * PRECISION / s = 0 := by
      have := Int.ediv_nonneg hbp hs.le
      omega
    rw [max_eq_left h1.le]
    rw [h0] at hlow hhigh
    constructor <;> omega

/-- **A position's trade PnL is its value at the price over its basis**, up to one unit and one for each unit held. -/
theorem tradePnlOf_near {p : Position} (hs : Sided p) (x : Int) :
    |tradePnlOf p x * PRECISION - (p.size * x - p.openNotional * PRECISION)| < |p.size| + PRECISION := by
  unfold tradePnlOf entryOf
  rcases lt_trichotomy p.size 0 with hneg | hzero | hpos
  · have hb := hs.short hneg
    have hentry := entry_near (neg_pos.2 hneg) (neg_nonneg.2 hb)
    rw [if_neg (by omega), abs_of_neg hneg, abs_of_nonpos hb]
    set e := max 1 ((-p.openNotional * PRECISION).tdiv (-p.size))
    have hround := M.tdiv_near (-p.size * (e - x))
    rw [abs_le] at hentry
    rw [abs_lt] at hround ⊢
    constructor <;> linarith [mul_sub (-p.size) e x, neg_mul p.size x, neg_mul p.openNotional PRECISION]
  · simp [hzero, hs.flat hzero, PRECISION]
  · have hb := hs.long hpos
    have hentry := entry_near hpos hb
    rw [if_pos hpos, abs_of_pos hpos, abs_of_nonneg hb]
    set e := max 1 ((p.openNotional * PRECISION).tdiv p.size)
    have hround := M.tdiv_near (p.size * (x - e))
    rw [abs_le] at hentry
    rw [abs_lt] at hround ⊢
    constructor <;> linarith [mul_sub p.size x e]

theorem signedValue_near {d n x : Int} (hn : n = (|d| * x).tdiv PRECISION) :
    |signedValue d n * PRECISION - d * x| < PRECISION := by
  have hround := M.tdiv_near (|d| * x)
  rw [← hn, abs_lt] at hround
  rw [abs_lt]
  unfold signedValue
  split
  · rename_i hd
    rw [abs_of_pos hd] at hround
    constructor <;> linarith
  · rename_i hd
    rw [abs_of_nonpos (not_lt.1 hd)] at hround
    constructor <;> linarith

/-! ## What a reduction leaves of an account's value -/

variable {D : Deployment} {w w' : World} {trader : Address} {marketId : MarketId}

/-- Closing at the price is worth what it was marked at, up to the rounding of the notional and of the two marks. -/
theorem closing_near {p p' : Position} {d n x bc : Int} (hs : Sided p) (hs' : Sided p') (hsize : p'.size = p.size + d)
    (hbasis : p'.openNotional = p.openNotional + bc) (hless : |p'.size| ≤ |p.size|)
    (hn : n = (|d| * x).tdiv PRECISION) :
    |tradePnlOf p x - (tradePnlOf p' x + (bc - signedValue d n))| ≤ 3 + 2 * |p.size| / PRECISION := by
  have hold := tradePnlOf_near hs x
  have hnew := tradePnlOf_near hs' x
  rw [hsize, hbasis] at hnew
  have hvalue := signedValue_near hn
  rw [hsize] at hless
  rw [abs_lt] at hold hnew hvalue
  have hhigh : (tradePnlOf p x - tradePnlOf p' x - (bc - signedValue d n)) * PRECISION <
      3 * PRECISION + 2 * |p.size| := by
    linarith [add_mul p.size d x, add_mul p.openNotional bc PRECISION]
  have hlow : -(3 * PRECISION + 2 * |p.size|) <
      (tradePnlOf p x - tradePnlOf p' x - (bc - signedValue d n)) * PRECISION := by
    linarith [add_mul p.size d x, add_mul p.openNotional bc PRECISION]
  rw [abs_le]
  simp only [PRECISION] at hhigh hlow ⊢
  constructor <;> omega

theorem fundingPnlOf_settled {f : FundingState} {p : Position} (h : p.size ≠ 0 → p.lastFundingIndex = sideIndex f p.size) :
    fundingPnlOf f p = 0 := by
  by_cases h0 : p.size = 0
  · simp [fundingPnlOf, h0]
  · simp [fundingPnlOf, h h0]

theorem le_paymentOf (f : FundingState) (p : Position) : -fundingPnlOf f p ≤ paymentOf f p := by
  rw [fundingPnlOf, neg_neg]
  change (fundingOwed f p).tdiv PRECISION ≤ paymentOf f p
  unfold paymentOf
  split
  · rw [Int.tdiv_eq_ediv_of_nonneg (by omega), Int.tdiv_eq_ediv_of_nonneg (by omega)]
    simp only [PRECISION]
    omega
  · exact le_refl _

theorem paymentOf_le (f : FundingState) (p : Position) : paymentOf f p ≤ -fundingPnlOf f p + 1 := by
  rw [fundingPnlOf, neg_neg]
  change paymentOf f p ≤ (fundingOwed f p).tdiv PRECISION + 1
  unfold paymentOf
  split
  · rw [Int.tdiv_eq_ediv_of_nonneg (by omega), Int.tdiv_eq_ediv_of_nonneg (by omega)]
    have hle := Int.ediv_le_ediv (c := PRECISION) (by decide) (Int.sub_le_self (fundingOwed f p) zero_le_one)
    omega
  · omega

/-- **Reducing a position at the index keeps its account's value**, up to the rounding. -/
theorem reduce_value {m : MarketParams} {d n x : Int} {increased : Bool} {realized : Int} (hs : SidedBook w.engine)
    (ht : trader ≠ D.engine) (hd : d ≠ 0) (hx : 0 ≤ x) (hn : n = (|d| * x).tdiv PRECISION)
    (h : trade D w trader marketId m d x n true false = .ok (w', increased, realized)) :
    |w.vault.balances trader + (tradePnlOf (w.engine.positions (trader, marketId)) x +
        fundingPnlOf (w.engine.funding marketId) (w.engine.positions (trader, marketId))) -
      (w'.vault.balances trader + (tradePnlOf (w'.engine.positions (trader, marketId)) x +
        fundingPnlOf (w.engine.funding marketId) (w'.engine.positions (trader, marketId))))| ≤
      4 + 2 * |(w.engine.positions (trader, marketId)).size| / PRECISION := by
  have hbal := trade_balances hd h
  have hs' := trade_sided hs hd hx hn h (trader, marketId)
  obtain ⟨y, hy, hw', hreal, hreduces⟩ := trade_ok hd h
  obtain ⟨hopen, hside, hle⟩ := hreduces rfl
  set p := w.engine.positions (trader, marketId) with hp
  have hp' : w'.engine.positions (trader, marketId) = nextPosition p d y := by
    rw [hw']
    exact Function.update_self _ _ _
  rw [hp'] at hs' ⊢
  have hsize := nextPosition_size p d y
  have hbasis : (nextPosition p d y).openNotional = p.openNotional + y.basisChange := by
    unfold nextPosition
    split
    · rename_i h0
      exact (hy.flat h0).1.symm
    · rfl
  have hlast : (nextPosition p d y).size ≠ 0 →
      (nextPosition p d y).lastFundingIndex = sideIndex (w.engine.funding marketId) (nextPosition p d y).size := by
    intro hopen'
    rw [hsize] at hopen' ⊢
    rw [nextPosition, if_neg hopen']
    exact hy.last hopen'
  have hless : |(nextPosition p d y).size| ≤ |p.size| := by
    rw [hsize]
    exact (shrinks_of_reduces ⟨hopen, hside, hle⟩).1
  have hclose := closing_near (hs _) hs' hsize hbasis hless hn
  have hfund := paymentOf_le (w.engine.funding marketId) p
  have hfund' := le_paymentOf (w.engine.funding marketId) p
  have hbal' : w'.vault.balances trader = w.vault.balances trader - paymentOf (w.engine.funding marketId) p + realized := by
    rw [hbal, Book.post_apply, Book.transfer_apply, if_pos rfl, if_pos rfl, if_neg ht]
    ring
  rw [fundingPnlOf_settled hlast, hbal', hreal]
  rw [abs_le] at hclose ⊢
  constructor <;> linarith

theorem equityOf_congr {a : Address} (hr : w'.risk = w.risk) (ho : w'.oracle = w.oracle)
    (hf : w'.engine.funding = w.engine.funding) (hp : ∀ m, w'.engine.positions (a, m) = w.engine.positions (a, m))
    (hb : w'.vault.balances a = w.vault.balances a) : equityOf w' a = equityOf w a := by
  simp only [equityOf, markedPnl, indexAt, hr, ho, hf, hp, hb]

theorem sum_of_ne {f g : MarketId → Int} (marketId : MarketId) (h : ∀ m, m ≠ marketId → g m = f m) :
    ∑ m, g m = ∑ m, f m - f marketId + g marketId := by
  have hupdate : g = update f marketId (g marketId) := by
    funext m
    by_cases hm : m = marketId
    · rw [hm, Function.update_self]
    · rw [Function.update_of_ne hm, h m hm]
  have htotal := Book.total_update f marketId (g marketId)
  rw [← hupdate] at htotal
  exact htotal

theorem equityOf_update {a : Address} (hr : w'.risk = w.risk) (ho : w'.oracle = w.oracle)
    (hf : w'.engine.funding = w.engine.funding)
    (hp : ∀ m, m ≠ marketId → w'.engine.positions (a, m) = w.engine.positions (a, m)) :
    equityOf w' a - equityOf w a = w'.vault.balances a + markedPnl w' a marketId -
      (w.vault.balances a + markedPnl w a marketId) := by
  have hsum := sum_of_ne (f := markedPnl w a) (g := markedPnl w' a) marketId
    fun m hm => by simp only [markedPnl, indexAt, hr, ho, hf, hp m hm]
  rw [equityOf, equityOf, hsum]
  ring

theorem trade_equity_of_ne {a : Address} {m : MarketParams} {delta price notional : Int}
    {reduceOnly enforceLimits increased : Bool} {realized : Int} (ha : a ≠ trader) (hpool : a ≠ D.engine)
    (hd : delta ≠ 0)
    (h : trade D w trader marketId m delta price notional reduceOnly enforceLimits = .ok (w', increased, realized)) :
    equityOf w' a = equityOf w a := by
  obtain ⟨x, -, rfl, -⟩ := trade_ok hd h
  refine equityOf_congr rfl rfl rfl (fun n => Function.update_of_ne (fun he => ha (Prod.ext_iff.1 he).1) _ _) ?_
  show Book.post (Book.transfer w.vault.balances trader D.engine x.payment) trader _ a = _
  rw [Book.post_of_ne _ ha, Book.transfer_of_ne _ ha hpool]

/-- **Reducing a position at the index keeps its account's equity**, up to the rounding. -/
theorem reduce_equity {m : MarketParams} {d n : Int} {increased : Bool} {realized : Int} (hs : SidedBook w.engine)
    (ht : trader ≠ D.engine) (hd : d ≠ 0) (hx : 0 ≤ indexAt w marketId)
    (hn : n = (|d| * indexAt w marketId).tdiv PRECISION)
    (h : trade D w trader marketId m d (indexAt w marketId) n true false = .ok (w', increased, realized)) :
    |equityOf w trader - equityOf w' trader| ≤
      4 + 2 * |(w.engine.positions (trader, marketId)).size| / PRECISION := by
  have hvalue := reduce_value hs ht hd hx hn h
  obtain ⟨y, -, rfl, -⟩ := trade_ok hd h
  have hdiff : equityOf (booked D w trader marketId d (signedValue d n) y) trader - equityOf w trader =
      (booked D w trader marketId d (signedValue d n) y).vault.balances trader +
        markedPnl (booked D w trader marketId d (signedValue d n) y) trader marketId -
        (w.vault.balances trader + markedPnl w trader marketId) :=
    equityOf_update rfl rfl rfl fun m' hm' => Function.update_of_ne (fun he => hm' (Prod.ext_iff.1 he).2) _ _
  have hmark : markedPnl (booked D w trader marketId d (signedValue d n) y) trader marketId =
      tradePnlOf ((booked D w trader marketId d (signedValue d n) y).engine.positions (trader, marketId))
        (indexAt w marketId) + fundingPnlOf (w.engine.funding marketId)
        ((booked D w trader marketId d (signedValue d n) y).engine.positions (trader, marketId)) := rfl
  rw [hmark] at hdiff
  have hold : markedPnl w trader marketId = tradePnlOf (w.engine.positions (trader, marketId)) (indexAt w marketId) +
      fundingPnlOf (w.engine.funding marketId) (w.engine.positions (trader, marketId)) := rfl
  rw [hold] at hdiff
  rw [abs_le] at hvalue ⊢
  constructor <;> linarith

end Engine

/-! ## One call -/

namespace Liquidation

/-- What `adl` decides before it trades: the shortfall it reads, the size it closes and the price. -/
def adlClose (D : Deployment) (w : World) (counterparty : Address) (marketId : MarketId) (maxSize : Nat) :
    Except Error (Int × Int × Int) := do
  w.whenNotPaused .liquidation
  revertIf (counterparty = D.insurance) .insuranceAccount
  revertIf (maxSize = 0) .invalidAmount
  let shortfall ← Insurance.unfundedShortfall D w
  revertIf (shortfall ≤ 0) .noBadDebtToOffset
  let cp := w.engine.positions (counterparty, marketId)
  let bs := w.engine.positions (D.insurance, marketId)
  revertIf (cp.size = 0 ∨ bs.size = 0) .positionNotFound
  revertIf (decide (cp.size > 0) = decide (bs.size > 0)) .directionMismatch
  let price ← Engine.indexPrice w marketId
  let absCp := M.abs cp.size
  let n ← RiskLib.notional absCp price
  let upnl := (if cp.size > 0 then 1 else -1) * n - cp.openNotional
  revertIf (upnl ≤ 0) .positionNotInProfit
  let closeSize := M.min (M.toBoundedInt maxSize) (M.min absCp (M.abs bs.size))
  let paying ← M.mulDiv shortfall absCp upnl
  let closeSize := M.min closeSize paying
  revertIf (closeSize ≤ 0) .noBadDebtToOffset
  pure (shortfall, closeSize, price)

/-- The shortfall an `adl` call reads, and what it takes of the gain the counterparty realizes at the index. -/
def haircutOf (D : Deployment) (w : World) (counterparty : Address) (marketId : MarketId) (maxSize : Nat) :
    Except Error (Int × Int) := do
  let (shortfall, closeSize, price) ← adlClose D w counterparty marketId maxSize
  let (_, realized) ← Engine.adlTransfer D w D.liquidation D.insurance counterparty marketId closeSize price
  pure (shortfall, M.min (M.max realized 0) shortfall)

variable {D : Deployment} {w w' : World} {counterparty : Address} {marketId : MarketId} {maxSize : Nat}

theorem adl_eq : adl D w counterparty marketId maxSize = (do
    let (shortfall, closeSize, price) ← adlClose D w counterparty marketId maxSize
    let (w, realized) ← Engine.adlTransfer D w D.liquidation D.insurance counterparty marketId closeSize price
    let haircut := M.min (M.max realized 0) shortfall
    if haircut > 0 then Vault.transferInternal w D.liquidation counterparty D.insurance haircut else pure w) := by
  simp only [adl, adlClose, bind_assoc, pure_bind]

theorem adlClose_ok {shortfall closeSize price : Int}
    (h : adlClose D w counterparty marketId maxSize = .ok (shortfall, closeSize, price)) :
    counterparty ≠ D.insurance ∧ Insurance.unfundedShortfall D w = .ok shortfall ∧ 0 < shortfall ∧
      Engine.indexPrice w marketId = .ok price := by
  simp only [adlClose, bind_ok_iff, World.whenNotPaused_ok, revertIf_ok, exists_const, pure_ok, Prod.mk.injEq,
    not_le] at h
  obtain ⟨-, hins, -, _, hshort, hpos, -, -, _, hprice, _, -, -, _, -, -, rfl, rfl, rfl⟩ := h
  exact ⟨hins, hshort, hpos, hprice⟩

/-- **A call of `adl` that returns** closes at the index and moves its haircut to Insurance. -/
theorem adl_ok (h : adl D w counterparty marketId maxSize = .ok w') :
    ∃ shortfall closeSize price w₁ realized haircut,
      adlClose D w counterparty marketId maxSize = .ok (shortfall, closeSize, price) ∧
      Engine.adlTransfer D w D.liquidation D.insurance counterparty marketId closeSize price = .ok (w₁, realized) ∧
      haircutOf D w counterparty marketId maxSize = .ok (shortfall, haircut) ∧ 0 ≤ haircut ∧ haircut ≤ shortfall ∧
      w' = w₁.withBalances (Book.transfer w₁.vault.balances counterparty D.insurance haircut) := by
  rw [adl_eq] at h
  simp only [bind_ok_iff] at h
  obtain ⟨⟨shortfall, closeSize, price⟩, hclose, ⟨w₁, realized⟩, htransfer, h⟩ := h
  have hpos := (adlClose_ok hclose).2.2.1
  have hnonneg : 0 ≤ M.min (M.max realized 0) shortfall := by
    rw [M.min_eq, M.max_eq]
    omega
  have hw := transferIf_ok h
  rw [max_eq_left hnonneg] at hw
  refine ⟨shortfall, closeSize, price, w₁, realized, _, hclose, htransfer, ?_, hnonneg, ?_, hw⟩
  · simp only [haircutOf, hclose, htransfer, ok_bind, pure]
    rfl
  · rw [M.min_eq]
    exact min_le_right _ _

end Liquidation

namespace Insurance
variable {D : Deployment} {w : World}

/-- Operating capital marked to market, in closed form. -/
def markedOf (D : Deployment) (w : World) : Int := Engine.equityOf w D.insurance - w.insurance.stakedBalance

theorem markedOperatingBalance_ok (hl : Engine.Listed w.engine) {marked : Int}
    (h : markedOperatingBalance D w = (marked, true)) : marked = markedOf D w := by
  unfold markedOperatingBalance Engine.accountValue at h
  split at h
  · rename_i equity hequity
    split at hequity
    · rename_i health hhealth
      rw [Prod.mk.injEq] at hequity h
      rw [markedOf, ← (Engine.accountHealth_ok hl hhealth).equity, ← h.1, ← hequity.1]
    · exact absurd hequity (by simp)
  · exact absurd h (by simp)

/-- **The shortfall is what the recorded debt exceeds the marked balance by**, and a balance below zero counts as
nothing. -/
theorem unfundedShortfall_ok (hl : Engine.Listed w.engine) {shortfall : Int}
    (h : unfundedShortfall D w = .ok shortfall) :
    markedOperatingBalance D w = (markedOf D w, true) ∧
      shortfall = max 0 (w.insurance.badDebt - max (markedOf D w) 0) := by
  unfold unfundedShortfall at h
  split at h
  · rename_i marked hmarked
    rw [pure_ok, M.max_eq, M.max_eq] at h
    obtain rfl := markedOperatingBalance_ok hl hmarked
    exact ⟨hmarked, h.symm⟩
  · exact absurd h (by simp)

end Insurance

/-- One call of `adl`: the world it is made in, the shortfall it reads and the haircut it takes. -/
structure Haircut where
  before : World
  counterparty : Address
  marketId : MarketId
  maxSize : Nat
  shortfall : Int
  amount : Int

/-- The machine of `adl` calls, with nothing in between. -/
def deleveraging (D : Deployment) : Machine World Haircut where
  init _ := True
  step w x w' := x.before = w ∧ Liquidation.adl D w x.counterparty x.marketId x.maxSize = .ok w' ∧
    Liquidation.haircutOf D w x.counterparty x.marketId x.maxSize = .ok (x.shortfall, x.amount)

/-- The wei by which rounding can make a call raise the marked balance by less than its haircut. -/
def Haircut.rounding (D : Deployment) (x : Haircut) : Int := 4 + 2 * |backstopSize D x.before x.marketId| / PRECISION

variable {D : Deployment} {env : Env} {w w' : World} {x : Haircut}

/-- **A call raises the marked balance by its haircut**, up to its rounding. -/
theorem step_raises (hs : Engine.SidedBook w.engine) (h : (deleveraging D).step w x w') :
    Insurance.markedOf D w + x.amount ≤ Insurance.markedOf D w' + x.rounding D := by
  obtain ⟨rfl, hadl, hcut⟩ := h
  obtain ⟨shortfall, closeSize, price, w₁, realized, haircut, hclose, htransfer, hcut', -, -, rfl⟩ :=
    Liquidation.adl_ok hadl
  have hamount : x.amount = haircut := (Prod.mk.inj (ok_unique hcut hcut')).2
  obtain ⟨hcp, -, -, hprice⟩ := Liquidation.adlClose_ok hclose
  obtain rfl := (Engine.indexPrice_ok hprice).2
  simp only [Engine.adlTransfer, bind_ok_iff, revertIf_ok, World.whenNotPaused_ok, pure_ok, Prod.mk.injEq,
    exists_const] at htransfer
  obtain ⟨-, -, -, -, hsize, m, -, n, hn, ⟨wc, inc, r⟩, htrade, ⟨wb, inc₂, r₂⟩, htrade₂, rfl, rfl⟩ := htransfer
  have hpos : 0 < closeSize := by omega
  have hn' : n = (closeSize * Engine.indexAt x.before x.marketId).tdiv PRECISION :=
    ((M.mulPrecision_ok _ _ _).1 hn).2.symm
  have hne : ∀ {c : Prop} [Decidable c], (if c then -closeSize else closeSize) ≠ 0 := by
    intro c _
    split <;> omega
  -- The counterparty's side leaves the backstop's account and its market alone.
  have hequity := Engine.trade_equity_of_ne (Ne.symm hcp) insurance_ne_engine hne htrade
  have hsided := Engine.trade_sided hs hne (by omega) (by rw [Engine.abs_signed hpos]; exact hn') htrade
  obtain ⟨y, -, hwc, -⟩ := Engine.trade_ok hne htrade
  have hindex : Engine.indexAt wc x.marketId = Engine.indexAt x.before x.marketId := by rw [hwc]; rfl
  have hback : wc.engine.positions (D.insurance, x.marketId) = x.before.engine.positions (D.insurance, x.marketId) := by
    rw [hwc]
    exact Function.update_of_ne (fun he => hcp (Prod.ext_iff.1 he).1.symm) _ _
  -- The backstop's side keeps its equity.
  rw [← hindex] at htrade₂ hn' hsize
  have hreduce := (abs_le.1 (Engine.reduce_equity hsided insurance_ne_engine hne (by omega)
    (by rw [Engine.abs_signed hpos]; exact hn') htrade₂)).2
  rw [hequity, hback] at hreduce
  have hpaid : Engine.equityOf (wb.withBalances (Book.transfer wb.vault.balances x.counterparty D.insurance haircut))
      D.insurance = Engine.equityOf wb D.insurance + haircut := by
    simp only [Engine.equityOf, World.withBalances, Book.transfer_apply, if_neg (Ne.symm hcp), if_true]
    rw [add_zero, add_right_comm]
    rfl
  have hstaked : wb.insurance.stakedBalance = x.before.insurance.stakedBalance := by
    obtain ⟨z, -, hwb, -⟩ := Engine.trade_ok hne htrade₂
    rw [hwb, hwc]
    rfl
  rw [Insurance.markedOf, Insurance.markedOf, hpaid, hamount, Haircut.rounding, backstopSize]
  show _ ≤ Engine.equityOf wb D.insurance + haircut - wb.insurance.stakedBalance + _
  rw [hstaked]
  linarith

/-! ## Every sequence of calls -/

/-- What every call keeps, from the world a sequence starts in. -/
structure Steady (w₀ w : World) : Prop where
  listed : Engine.Listed w.engine
  sided : Engine.SidedBook w.engine
  badDebt : w.insurance.badDebt = w₀.insurance.badDebt

theorem step_steady {w₀ : World} (hw : Steady w₀ w) (h : (deleveraging D).step w x w') : Steady w₀ w' where
  listed := (adl_clears h.2.1).2.2.1.listed hw.listed
  sided := adl_sided hw.sided h.2.1
  badDebt := (adl_keeps h.2.1).badDebt.trans hw.badDebt

/-- **A call takes at most the shortfall it reads**, and that is at most what the debt exceeds the marked balance by. -/
theorem step_amount (hl : Engine.Listed w.engine) (h : (deleveraging D).step w x w') :
    Insurance.unfundedShortfall D w = .ok x.shortfall ∧ x.amount ≤ x.shortfall ∧
      x.shortfall ≤ w.insurance.badDebt ∧ x.shortfall ≤ w.insurance.badDebt - Insurance.markedOf D w := by
  obtain ⟨-, hadl, hcut⟩ := h
  obtain ⟨shortfall, closeSize, price, w₁, realized, haircut, hclose, -, hcut', -, hle, -⟩ := Liquidation.adl_ok hadl
  obtain ⟨hshort', hamount⟩ := Prod.mk.inj (ok_unique hcut hcut')
  obtain ⟨-, hshort, hpos, -⟩ := Liquidation.adlClose_ok hclose
  have hformula := (Insurance.unfundedShortfall_ok hl hshort).2
  rw [hshort', hamount]
  refine ⟨hshort, hle, ?_, ?_⟩ <;> omega

theorem run_amount {taken : List Haircut} (hw : Steady w w) (h : Run (deleveraging D) w taken w') :
    (taken.map Haircut.amount).sum ≤ max 0 (w.insurance.badDebt - Insurance.markedOf D w) +
      (taken.dropLast.map (Haircut.rounding D)).sum := by
  cases h with
  | nil => simp
  | @snoc t u ls x h hx =>
    have hkeep : ∀ s l t, Steady w s → (deleveraging D).step s l t → Steady w t := fun _ _ _ => step_steady
    have hraised := h.raises (Steady w) (Insurance.markedOf D) Haircut.amount (Haircut.rounding D) hkeep
      (fun _ _ _ hs => step_raises hs.sided) hw
    have ht := h.preserves (Steady w) hkeep hw
    obtain ⟨-, hamount, -, hshort⟩ := step_amount ht.listed hx
    rw [ht.badDebt] at hshort
    rw [List.dropLast_concat, List.map_append, List.sum_append, List.map_singleton, List.sum_singleton]
    have hmax := le_max_right 0 (w.insurance.badDebt - Insurance.markedOf D w)
    linarith

/-- **Deleveraging.** No call takes more than the shortfall it reads, and none reads more than the recorded debt.  A
sequence of calls takes at most the shortfall it starts with and what the marked balance then is below zero, up to the
rounding of its calls but the last; and once it has taken that, no further call returns. -/
theorem haircuts_bounded (hr : Reachable (machine D env) w) {taken : List Haircut}
    (h : Run (deleveraging D) w taken w') {shortfall : Int} (hs : Insurance.unfundedShortfall D w = .ok shortfall) :
    (∀ x ∈ taken, Insurance.unfundedShortfall D x.before = .ok x.shortfall ∧ x.amount ≤ x.shortfall ∧
        x.shortfall ≤ w.insurance.badDebt) ∧
      (taken.map Haircut.amount).sum ≤ shortfall + max 0 (-(Insurance.markedOperatingBalance D w).1) +
        (taken.dropLast.map (Haircut.rounding D)).sum ∧
      (shortfall + max 0 (-(Insurance.markedOperatingBalance D w).1) + (taken.map (Haircut.rounding D)).sum ≤
          (taken.map Haircut.amount).sum →
        ∀ counterparty marketId maxSize, ∃ e, Liquidation.adl D w' counterparty marketId maxSize = .error e) := by
  have hw : Steady w w := ⟨reachable_listed hr, reachable_sided hr, rfl⟩
  have hkeep : ∀ s l t, Steady w s → (deleveraging D).step s l t → Steady w t := fun _ _ _ => step_steady
  obtain ⟨hmarked, hshort⟩ := Insurance.unfundedShortfall_ok hw.listed hs
  simp only [hmarked]
  refine ⟨?_, ?_, fun htaken counterparty marketId maxSize => ?_⟩
  · intro x hx
    obtain ⟨t, u, ls, hpre, hstep⟩ := h.mem hx
    have ht := hpre.preserves (Steady w) hkeep hw
    obtain ⟨hread, hamount, hdebt, -⟩ := step_amount ht.listed hstep
    rw [ht.badDebt] at hdebt
    rw [hstep.1]
    exact ⟨hread, hamount, hdebt⟩
  · have hrun := run_amount hw h
    have hstart : max 0 (w.insurance.badDebt - Insurance.markedOf D w) ≤
        shortfall + max 0 (-Insurance.markedOf D w) := by omega
    linarith
  · have hraised := h.raises (Steady w) (Insurance.markedOf D) Haircut.amount (Haircut.rounding D) hkeep
      (fun _ _ _ hs => step_raises hs.sided) hw
    have ht := h.preserves (Steady w) hkeep hw
    cases hadl : Liquidation.adl D w' counterparty marketId maxSize with
    | error e => exact ⟨e, rfl⟩
    | ok w'' =>
      obtain ⟨shortfall', _, _, _, _, _, hclose, -⟩ := Liquidation.adl_ok hadl
      obtain ⟨-, hread, hpos, -⟩ := Liquidation.adlClose_ok hclose
      have hformula := (Insurance.unfundedShortfall_ok ht.listed hread).2
      rw [ht.badDebt] at hformula
      omega

/-- **The protocol's runs of `adl` calls are the runs of this machine.** -/
theorem run_deleveraging {ls : List Label}
    (h : Run ((machine D env).restrict fun _ l => ∃ a m k, l.call.tx = .adl a m k) w ls w') :
    ∃ taken, Run (deleveraging D) w taken w' ∧ taken.length = ls.length := by
  induction h with
  | nil => exact ⟨[], Run.nil, rfl⟩
  | @snoc t u ls l h hl ih =>
    obtain ⟨taken, hrun, hlength⟩ := ih
    obtain ⟨⟨a, m, k, htx⟩, -, hexec⟩ := hl
    simp only [exec, htx, unsettled_ok] at hexec
    obtain ⟨shortfall, _, _, _, _, haircut, -, -, hcut, -⟩ := Liquidation.adl_ok hexec.1
    have hstep : (deleveraging D).step t ⟨t, a, m, k, shortfall, haircut⟩ u := ⟨rfl, hexec.1, hcut⟩
    refine ⟨taken ++ [_], hrun.snoc hstep, ?_⟩
    rw [List.length_append, List.length_append, hlength]
    rfl

/-! ## Sequences that take more -/

/-- Makes `adl` calls one after another, and reports what each took. -/
def deleverage (D : Deployment) : World → List (Address × MarketId × Nat) → Except Error (World × List Haircut)
  | w, [] => pure (w, [])
  | w, (counterparty, marketId, maxSize) :: calls => do
    let (shortfall, amount) ← Liquidation.haircutOf D w counterparty marketId maxSize
    let w₁ ← Liquidation.adl D w counterparty marketId maxSize
    let (w', taken) ← deleverage D w₁ calls
    pure (w', ⟨w, counterparty, marketId, maxSize, shortfall, amount⟩ :: taken)

theorem deleverage_run : ∀ (calls : List (Address × MarketId × Nat)) (w w' : World) (taken : List Haircut),
    deleverage D w calls = .ok (w', taken) → Run (deleveraging D) w taken w'
  | [], w, w', taken, h => by
    simp only [deleverage, pure_ok, Prod.mk.injEq] at h
    obtain ⟨rfl, rfl⟩ := h
    exact Run.nil
  | (counterparty, marketId, maxSize) :: calls, w, w', taken, h => by
    simp only [deleverage, bind_ok_iff, pure_ok, Prod.mk.injEq] at h
    obtain ⟨⟨shortfall, amount⟩, hcut, w₁, hadl, ⟨w₂, rest⟩, hrest, rfl, rfl⟩ := h
    have hstep : (deleveraging D).step w ⟨w, counterparty, marketId, maxSize, shortfall, amount⟩ w₁ :=
      ⟨rfl, hadl, hcut⟩
    exact (Run.single hstep).append (deleverage_run calls w₁ w₂ rest hrest)

theorem deleverage_of_meets (P : List Haircut → Bool) (calls : List (Address × MarketId × Nat))
    (h : returnsWith (fun r => P r.2) (deleverage D w calls) = true) :
    ∃ taken w', Run (deleveraging D) w taken w' ∧ P taken = true := by
  obtain ⟨⟨w', taken⟩, hrun, htaken⟩ := ok_of_returnsWith h
  exact ⟨taken, w', deleverage_run calls w w' taken hrun, htaken⟩

/-- Two calls against Bob take all of the debt while the backstop's marked balance starts below zero. -/
theorem haircuts_bounded_underwater : ∃ taken w',
    Run (deleveraging Sample.deployment) (Sample.outcome Sample.underwater) taken w' ∧ taken.length = 2 ∧
      (taken.map Haircut.amount).sum ≤ 6632 * 10 ^ 17 + 400 * 10 ^ 18 +
        (taken.dropLast.map (Haircut.rounding Sample.deployment)).sum := by
  obtain ⟨taken, w', hrun, hlength⟩ := deleverage_of_meets (D := Sample.deployment)
    (w := Sample.outcome Sample.underwater) (fun taken => decide (taken.length = 2))
    [(Sample.bob, 1, 10 ^ 30), (Sample.bob, 1, 10 ^ 30)] (by decide +kernel)
  have hs : Insurance.unfundedShortfall Sample.deployment (Sample.outcome Sample.underwater) = .ok (6632 * 10 ^ 17) := by
    rfl
  have hbound := (haircuts_bounded (Sample.outcome_reachable Sample.underwater) hrun hs).2.1
  have hmarked : (Insurance.markedOperatingBalance Sample.deployment (Sample.outcome Sample.underwater)).1 =
      -(400 * 10 ^ 18) := by decide +kernel
  rw [hmarked] at hbound
  exact ⟨taken, w', hrun, of_decide_eq_true hlength, hbound⟩

/-- Two calls take more than the recorded debt when the backstop's marked balance starts below zero; and where it does
not, rounding lets five calls take two wei more than the shortfall they start with. -/
theorem haircuts_exceed_shortfall :
    (∃ taken w', Run (deleveraging Sample.deployment) (Sample.outcome Sample.underwater) taken w' ∧
        (Sample.outcome Sample.underwater).insurance.badDebt < (taken.map Haircut.amount).sum) ∧
      ∃ taken w' shortfall, Run (deleveraging Sample.deployment) (Sample.outcome Sample.uneven) taken w' ∧
        Insurance.unfundedShortfall Sample.deployment (Sample.outcome Sample.uneven) = .ok shortfall ∧
        0 ≤ (Insurance.markedOperatingBalance Sample.deployment (Sample.outcome Sample.uneven)).1 ∧
        shortfall < (taken.map Haircut.amount).sum := by
  constructor
  · obtain ⟨taken, w', hrun, htaken⟩ := deleverage_of_meets (D := Sample.deployment)
      (w := Sample.outcome Sample.underwater)
      (fun taken => decide ((Sample.outcome Sample.underwater).insurance.badDebt < (taken.map Haircut.amount).sum))
      [(Sample.bob, 1, 10 ^ 30), (Sample.bob, 1, 10 ^ 30)] (by decide +kernel)
    exact ⟨taken, w', hrun, of_decide_eq_true htaken⟩
  · obtain ⟨taken, w', hrun, htaken⟩ := deleverage_of_meets (D := Sample.deployment)
      (w := Sample.outcome Sample.uneven)
      (fun taken => decide (529866666666666668000 < (taken.map Haircut.amount).sum))
      [(Sample.bob, 1, 10 ^ 18 + 2), (Sample.bob, 1, 10 ^ 18 + 2), (Sample.bob, 1, 10 ^ 18 + 2), (Sample.bob, 1, 10 ^ 30),
        (Sample.bob, 1, 10 ^ 30)] (by decide +kernel)
    exact ⟨taken, w', 529866666666666668000, hrun, rfl, by decide +kernel, of_decide_eq_true htaken⟩

end Kryon
