import Kryon.Types
import Kryon.Lib.Keyed
import Mathlib.Algebra.BigOperators.Group.List.Basic
import Mathlib.Algebra.Order.Ring.Int
import Mathlib.Data.List.Perm.Basic
/-!
# Metrics — one address's activity into its statistics rows

The rolling windows are anchored at midnight UTC and have no end, so what an address's rows say of the clock is its day, and
an address quiet in a window stays quiet in it.  Money is summed at full precision and scaled once.
-/
namespace Kryon.Stats

/-! ## Windows and scales -/

inductive StatsPeriod where
  | day
  | week
  | month
  | all
deriving DecidableEq

def STATS_PERIODS : List StatsPeriod := [.day, .week, .month, .all]

/-- The days of a rolling window, today included. -/
def WINDOW_DAYS : StatsPeriod → Option Int
  | .day => some 1
  | .week => some 7
  | .month => some 30
  | .all => none

def DAY_MS : Int := 86400000

/-- Inclusive start of a period's window, in milliseconds. -/
def windowStart (period : StatsPeriod) (now : Int) : Int :=
  match WINDOW_DAYS period with
  | none => 0
  | some days =>
    let midnight := now / DAY_MS * DAY_MS
    midnight - (days - 1) * DAY_MS

/-- 1e18 to 1e6, toward zero. -/
def toUsd6 (v : Int) : Int := v.tdiv (10 ^ 12)

/-- A 1e36 notional to 1e6. -/
def notionalToUsd6 (v : Int) : Int := v.tdiv (10 ^ 30)

def padStart (width : Nat) (s : String) : String := String.ofList (List.replicate (width - s.length) '0') ++ s

/-- `num / den` to four decimals, toward zero. -/
def ratio4 (num den : Int) : String :=
  if den ≤ 0 then "0.0000"
  else
    let scaled := (num * 10000).tdiv den
    let abs := scaled.natAbs
    let s := toString (abs / 10000) ++ "." ++ padStart 4 (toString (abs % 10000))
    if scaled < 0 then "-" ++ s else s

/-! ## Activity -/

/-- A place in the chain, and the time of its block in milliseconds. -/
structure Ordered where
  blockNumber : Nat
  logIndex : Nat
  at_ : Int
deriving DecidableEq

def Ordered.place (o : Ordered) : Nat × Nat := (o.blockNumber, o.logIndex)

structure FillActivity extends Ordered where
  fillId : Bytes32
  maker : Address
  taker : Address
  /-- Size times price, 1e36. -/
  notional : Int

inductive PnlKind where
  | realizedTrade
  | funding
  | liquidation
  | liquidationPenalty
  | deleverage
  | fee
deriving DecidableEq

structure PnlActivity extends Ordered where
  kind : PnlKind
  amount : Int

structure LiquidationActivity extends Ordered where
  notional : Int

inductive BalanceKind where
  | deposit
  | withdrawal
deriving DecidableEq

structure BalanceActivity extends Ordered where
  kind : BalanceKind
  amount : Int

structure ReferralActivity extends Ordered where
  trader : Address
  notional : Int

structure AddressActivity where
  fills : List FillActivity
  pnl : List PnlActivity
  liquidations : List LiquidationActivity
  balances : List BalanceActivity
  referrals : List ReferralActivity

def emptyActivity : AddressActivity := ⟨[], [], [], [], []⟩

/-! ## Rows -/

structure TraderStatRow where
  address : Address
  period : StatsPeriod
  periodStart : Int
  realizedPnl : Int
  volume : Int
  tradeCount : Nat
  winningTrades : Nat
  losingTrades : Nat
  winRate : String
  roi : String
  feesPaid : Int
  fundingPaid : Int
  liquidationCount : Nat
  liquidatedVolume : Int
  peakEquity : Int
  referralCount : Nat
  referralVolume : Int
  lastTradeAt : Option Int
deriving DecidableEq

structure AccountAnalyticsRow where
  address : Address
  realizedPnlAll : Int
  volumeAll : Int
  volume30d : Int
  tradeCountAll : Nat
  winRateAll : String
  totalDeposited : Int
  totalWithdrawn : Int
  totalFundingPaid : Int
  totalFeesPaid : Int
  liquidationCount : Nat
  maxDrawdown : Int
  firstTradeAt : Option Int
  lastTradeAt : Option Int
deriving DecidableEq

structure AddressStats where
  /-- Only the periods the address was active in. -/
  traderStats : List TraderStatRow
  /-- Nothing for an address without any activity. -/
  analytics : Option AccountAnalyticsRow
deriving DecidableEq

/-! ## The curve -/

/-- Kinds that close exposure: they decide a win or a loss. -/
def POSITION_KINDS : List PnlKind := [.realizedTrade, .liquidation, .deleverage]

def REALIZED_KINDS : List PnlKind := [.realizedTrade, .liquidation, .deleverage, .liquidationPenalty]

def byChainOrder (a b : Ordered) : Int :=
  if a.blockNumber < b.blockNumber then -1
  else if a.blockNumber > b.blockNumber then 1
  else (a.logIndex : Int) - b.logIndex

/-- A step of the curve. -/
structure EquityStep extends Ordered where
  delta : Int

structure EquityPoint where
  at_ : Int
  equity : Int

def cumulate (equity : Int) : List EquityStep → List EquityPoint
  | [] => []
  | s :: steps => ⟨s.at_, equity + s.delta⟩ :: cumulate (equity + s.delta) steps

def equitySteps (a : AddressActivity) : List EquityStep :=
  a.balances.map (fun b => { b with delta := if b.kind = .deposit then b.amount else -b.amount }) ++
    a.pnl.map fun p => { p with delta := p.amount }

/-- Cash equity over time: net deposits plus every PnL event, in chain order. -/
def equityCurve (a : AddressActivity) : List EquityPoint :=
  cumulate 0 ((equitySteps a).insertionSort fun x y => byChainOrder x.toOrdered y.toOrdered ≤ 0)

structure Peak where
  carried : Int
  peak : Int
  seenInWindow : Bool

def Peak.next (start : Int) (s : Peak) (p : EquityPoint) : Peak :=
  if p.at_ < start then { s with carried := p.equity }
  else
    let peak := if !s.seenInWindow && s.carried > s.peak then s.carried else s.peak
    { s with peak := if p.equity > peak then p.equity else peak, seenInWindow := true }

/-- The highest cash equity of a window, what was carried into it counted. -/
def peakEquity (curve : List EquityPoint) (start : Int) : Int :=
  let s := curve.foldl (Peak.next start) ⟨0, 0, false⟩
  if !s.seenInWindow && s.carried > s.peak then s.carried else s.peak

structure Drawdown where
  cum : Int
  peak : Int
  worst : Int

def Drawdown.next (s : Drawdown) (p : PnlActivity) : Drawdown :=
  let cum := s.cum + p.amount
  let peak := if cum > s.peak then cum else s.peak
  { cum := cum
    peak := peak
    worst := if peak - cum > s.worst then peak - cum else s.worst }

/-- Largest fall of cumulative net PnL from a running peak that starts at zero. -/
def maxDrawdown (pnl : List PnlActivity) : Int :=
  ((pnl.insertionSort fun x y => byChainOrder x.toOrdered y.toOrdered ≤ 0).foldl Drawdown.next ⟨0, 0, 0⟩).worst

/-! ## Totals -/

structure WindowTotals where
  realized : Int
  notional : Int
  trades : Nat
  wins : Nat
  losses : Nat
  fees : Int
  funding : Int
  liquidations : Nat
  liquidatedNotional : Int
  /-- How many traders were referred. -/
  referred : Nat
  referralNotional : Int
  lastTradeAt : Option Int
  firstTradeAt : Option Int
  active : Bool

/-- The fills not seen before: a self-trade is one trade. -/
def countedFills (seenFills : List Bytes32) : List FillActivity → List FillActivity
  | [] => []
  | f :: fills =>
    if f.fillId ∈ seenFills then countedFills seenFills fills else f :: countedFills (f.fillId :: seenFills) fills

def latest (m : Option Int) (x : Int) : Option Int := some (m.elim x (max x))

def earliest (m : Option Int) (x : Int) : Option Int := some (m.elim x (min x))

/-- What the activity of a window adds up to. -/
def totals (a : AddressActivity) (start : Int) : WindowTotals :=
  let fills := countedFills [] (a.fills.filter fun f => start ≤ f.at_)
  let pnl := a.pnl.filter fun p => start ≤ p.at_
  let liquidations := a.liquidations.filter fun l => start ≤ l.at_
  let referrals := a.referrals.filter fun r => start ≤ r.at_
  let of kinds := pnl.filter fun p => decide (p.kind ∈ kinds)
  { realized := ((of REALIZED_KINDS).map (·.amount)).sum
    notional := (fills.map (·.notional)).sum
    trades := fills.length
    wins := (of POSITION_KINDS).countP fun p => p.amount > 0
    losses := (of POSITION_KINDS).countP fun p => p.amount < 0
    fees := -((of [.fee]).map (·.amount)).sum
    funding := -((of [.funding]).map (·.amount)).sum
    liquidations := liquidations.length
    liquidatedNotional := (liquidations.map (·.notional)).sum
    referred := (referrals.map (·.trader)).dedup.length
    referralNotional := (referrals.map (·.notional)).sum
    lastTradeAt := (fills.map (·.at_)).foldl latest none
    firstTradeAt := (fills.map (·.at_)).foldl earliest none
    active := !fills.isEmpty || !pnl.isEmpty || !liquidations.isEmpty || !referrals.isEmpty }

/-- The row of a period the address was active in. -/
def statRow (address : Address) (a : AddressActivity) (now : Int) (period : StatsPeriod) : Option TraderStatRow :=
  let start := windowStart period now
  let t := totals a start
  if !t.active then none
  else
    let peak := peakEquity (equityCurve a) start
    some {
      address := address
      period := period
      periodStart := start
      realizedPnl := toUsd6 t.realized
      volume := notionalToUsd6 t.notional
      tradeCount := t.trades
      winningTrades := t.wins
      losingTrades := t.losses
      winRate := ratio4 t.wins (t.wins + t.losses : Nat)
      roi := ratio4 t.realized peak
      feesPaid := toUsd6 t.fees
      fundingPaid := toUsd6 t.funding
      liquidationCount := t.liquidations
      liquidatedVolume := notionalToUsd6 t.liquidatedNotional
      peakEquity := toUsd6 peak
      referralCount := t.referred
      referralVolume := notionalToUsd6 t.referralNotional
      lastTradeAt := t.lastTradeAt }

def sumOf (balances : List BalanceActivity) (kind : BalanceKind) : Int :=
  ((balances.filter fun b => decide (b.kind = kind)).map (·.amount)).sum

def accountRow (address : Address) (a : AddressActivity) (now : Int) : Option AccountAnalyticsRow :=
  let all := totals a (windowStart .all now)
  let month := totals a (windowStart .month now)
  if all.active || a.balances.length > 0 then
    some {
      address := address
      realizedPnlAll := toUsd6 all.realized
      volumeAll := notionalToUsd6 all.notional
      volume30d := notionalToUsd6 month.notional
      tradeCountAll := all.trades
      winRateAll := ratio4 all.wins (all.wins + all.losses : Nat)
      totalDeposited := toUsd6 (sumOf a.balances .deposit)
      totalWithdrawn := toUsd6 (sumOf a.balances .withdrawal)
      totalFundingPaid := toUsd6 all.funding
      totalFeesPaid := toUsd6 all.fees
      liquidationCount := all.liquidations
      maxDrawdown := toUsd6 (maxDrawdown a.pnl)
      firstTradeAt := all.firstTradeAt
      lastTradeAt := all.lastTradeAt }
  else none

/-- Every row the aggregator writes for one address at `now`. -/
def computeAddressStats (address : Address) (a : AddressActivity) (now : Int) : AddressStats where
  traderStats := STATS_PERIODS.filterMap (statRow address a now)
  analytics := accountRow address a now

/-! ## The order activity comes in -/

variable {a b : AddressActivity} {address : Address} {now now' start start' : Int} {period : StatsPeriod}

structure AddressActivity.Perm (a b : AddressActivity) : Prop where
  fills : a.fills.Perm b.fills
  pnl : a.pnl.Perm b.pnl
  liquidations : a.liquidations.Perm b.liquidations
  balances : a.balances.Perm b.balances
  referrals : a.referrals.Perm b.referrals

/-- No two changes of the equity are at one place, and no two fills under one id. -/
structure AddressActivity.Distinct (a : AddressActivity) : Prop where
  places : (a.balances.map (·.place) ++ a.pnl.map (·.place)).Nodup
  fillIds : (a.fills.map (·.fillId)).Nodup

theorem byChainOrder_le {x y : Ordered} : byChainOrder x y ≤ 0 ↔
    x.blockNumber < y.blockNumber ∨ x.blockNumber = y.blockNumber ∧ x.logIndex ≤ y.logIndex := by
  unfold byChainOrder
  split_ifs <;> omega

/-- Sorting by the chain does not see the order of what is at distinct places. -/
theorem sort_byChainOrder {α : Type} {f : α → Ordered} {l l' : List α} (h : l.Perm l')
    (hnodup : (l.map fun x => (f x).place).Nodup) :
    l.insertionSort (fun x y => byChainOrder (f x) (f y) ≤ 0) = l'.insertionSort fun x y => byChainOrder (f x) (f y) ≤ 0 := by
  have htotal : Std.Total fun x y : α => byChainOrder (f x) (f y) ≤ 0 := ⟨fun x y => by
    rw [byChainOrder_le, byChainOrder_le]
    omega⟩
  have htrans : IsTrans α fun x y => byChainOrder (f x) (f y) ≤ 0 := ⟨fun x y z hxy hyz => by
    rw [byChainOrder_le] at hxy hyz ⊢
    omega⟩
  refine Keyed.sort_perm (fun x y hxy hyx => ?_) h hnodup
  rw [byChainOrder_le] at hxy hyx
  exact Prod.ext (by simp only [Ordered.place]; omega) (by simp only [Ordered.place]; omega)

theorem equityCurve_perm (h : a.Perm b) (ha : a.Distinct) : equityCurve a = equityCurve b := by
  unfold equityCurve
  congr 1
  refine sort_byChainOrder ((h.balances.map _).append (h.pnl.map _)) ?_
  have hplaces := ha.places
  unfold equitySteps
  rw [List.map_append, List.map_map, List.map_map]
  exact hplaces

theorem maxDrawdown_perm (h : a.Perm b) (ha : a.Distinct) : maxDrawdown a.pnl = maxDrawdown b.pnl := by
  unfold maxDrawdown
  rw [sort_byChainOrder h.pnl (List.nodup_append'.1 ha.places).2.1]

theorem countedFills_eq : ∀ {fills : List FillActivity} (seenFills : List Bytes32), (fills.map (·.fillId)).Nodup →
    (∀ f ∈ fills, f.fillId ∉ seenFills) → countedFills seenFills fills = fills
  | [], _, _, _ => rfl
  | f :: fills, seenFills, hnodup, hnew => by
    rw [List.map_cons, List.nodup_cons] at hnodup
    rw [countedFills, if_neg (hnew f List.mem_cons_self), countedFills_eq _ hnodup.2]
    intro g hg hseen
    obtain hseen | hseen := List.mem_cons.1 hseen
    · exact hnodup.1 (hseen ▸ List.mem_map_of_mem hg)
    · exact hnew g (List.mem_cons_of_mem _ hg) hseen

instance : RightCommutative latest where
  right_comm m x y := by
    cases m <;> simp [latest, max_comm, max_left_comm]

instance : RightCommutative earliest where
  right_comm m x y := by
    cases m <;> simp [earliest, min_comm, min_left_comm]

theorem totals_perm (h : a.Perm b) (ha : a.Distinct) (start : Int) : totals a start = totals b start := by
  have hcount : ∀ {c : AddressActivity}, (c.fills.map (·.fillId)).Nodup →
      countedFills [] (c.fills.filter fun f => start ≤ f.at_) = c.fills.filter fun f => start ≤ f.at_ :=
    fun hnodup => countedFills_eq [] (hnodup.sublist (List.filter_sublist.map _)) fun f _ => List.not_mem_nil
  have hb : (b.fills.map (·.fillId)).Nodup := (h.fills.map _).nodup_iff.1 ha.fillIds
  have hfills := h.fills.filter fun f => decide (start ≤ f.at_)
  have hpnl := h.pnl.filter fun p => decide (start ≤ p.at_)
  have hliquidations := h.liquidations.filter fun l => decide (start ≤ l.at_)
  have hreferrals := h.referrals.filter fun r => decide (start ≤ r.at_)
  have hof : ∀ kinds : List PnlKind, ((a.pnl.filter fun p => decide (start ≤ p.at_)).filter fun p => decide (p.kind ∈ kinds)).Perm
      ((b.pnl.filter fun p => decide (start ≤ p.at_)).filter fun p => decide (p.kind ∈ kinds)) := fun kinds => hpnl.filter _
  unfold totals
  rw [hcount ha.fillIds, hcount hb]
  simp only [WindowTotals.mk.injEq]
  refine ⟨((hof _).map _).sum_eq, (hfills.map _).sum_eq, hfills.length_eq, (hof _).countP_eq _, (hof _).countP_eq _, ?_, ?_,
    hliquidations.length_eq, (hliquidations.map _).sum_eq, ((hreferrals.map _).dedup).length_eq, (hreferrals.map _).sum_eq,
    (hfills.map _).foldl_eq _, (hfills.map _).foldl_eq _, ?_⟩
  · rw [((hof _).map _).sum_eq]
  · rw [((hof _).map _).sum_eq]
  · rw [hfills.isEmpty_eq, hpnl.isEmpty_eq, hliquidations.isEmpty_eq, hreferrals.isEmpty_eq]

/-- **An address's statistics do not depend on the order its activities are fed in.** -/
theorem computeAddressStats_perm (h : a.Perm b) (ha : a.Distinct) :
    computeAddressStats address a now = computeAddressStats address b now := by
  have htotals : totals a = totals b := funext (totals_perm h ha)
  have hsum : ∀ kind, sumOf a.balances kind = sumOf b.balances kind := fun kind => ((h.balances.filter _).map _).sum_eq
  have hrow : statRow address a now = statRow address b now := by
    funext period
    unfold statRow
    rw [htotals, equityCurve_perm h ha]
  unfold computeAddressStats accountRow
  rw [hrow, htotals, maxDrawdown_perm h ha, hsum, hsum, h.balances.length_eq]

/-! ## The clock -/

theorem windowStart_eq : windowStart period now =
    (WINDOW_DAYS period).elim 0 fun days => now / DAY_MS * DAY_MS - (days - 1) * DAY_MS := by
  cases period <;> rfl

theorem windowStart_mono (h : now ≤ now') : windowStart period now ≤ windowStart period now' := by
  cases period <;> simp only [windowStart, WINDOW_DAYS, DAY_MS] <;> omega

theorem month_le (hperiod : period ≠ .all) : windowStart .month now ≤ windowStart period now := by
  cases period <;> simp only [windowStart, WINDOW_DAYS, DAY_MS] at * <;> first | omega | exact absurd rfl hperiod

/-- **A month's start is no later window's start**, unless the day is the same: a day, a week and a month begin 0, 6 and 29
days back. -/
theorem day_of_month_start (h : now ≤ now') (hperiod : period ≠ .all)
    (hstart : windowStart .month now = windowStart period now') : now / DAY_MS = now' / DAY_MS := by
  cases period <;> simp only [windowStart, WINDOW_DAYS, DAY_MS] at * <;> first | omega | exact absurd rfl hperiod

theorem windowStart_day (h : now / DAY_MS = now' / DAY_MS) : windowStart period now = windowStart period now' := by
  rw [windowStart_eq, windowStart_eq, h]

theorem computeAddressStats_day (h : now / DAY_MS = now' / DAY_MS) :
    computeAddressStats address a now = computeAddressStats address a now' := by
  have hstart : ∀ period, windowStart period now = windowStart period now' := fun _ => windowStart_day h
  have hrow : statRow address a now = statRow address a now' := by
    funext period
    unfold statRow
    rw [hstart]
  unfold computeAddressStats accountRow
  rw [hrow, hstart, hstart]

theorem countedFills_nil {fills : List FillActivity} : countedFills [] fills = [] ↔ fills = [] := by
  cases fills <;> simp [countedFills]

theorem active_eq_false : (totals a start).active = false ↔
    (∀ f ∈ a.fills, f.at_ < start) ∧ (∀ p ∈ a.pnl, p.at_ < start) ∧ (∀ l ∈ a.liquidations, l.at_ < start) ∧
      ∀ r ∈ a.referrals, r.at_ < start := by
  unfold totals
  simp only [Bool.or_eq_false_iff, Bool.not_eq_false', List.isEmpty_iff, countedFills_nil, List.filter_eq_nil_iff,
    decide_eq_true_eq, not_le, and_assoc]

theorem active_mono (h : start ≤ start') (hquiet : (totals a start).active = false) :
    (totals a start').active = false := by
  rw [active_eq_false] at hquiet ⊢
  obtain ⟨hfills, hpnl, hliquidations, hreferrals⟩ := hquiet
  exact ⟨fun f hf => (hfills f hf).trans_le h, fun p hp => (hpnl p hp).trans_le h,
    fun l hl => (hliquidations l hl).trans_le h, fun r hr => (hreferrals r hr).trans_le h⟩

theorem notional_of_quiet (hquiet : (totals a start).active = false) : (totals a start).notional = 0 := by
  have hnone : a.fills.filter (fun f => decide (start ≤ f.at_)) = [] := by
    rw [List.filter_eq_nil_iff]
    exact fun f hf => decide_eq_true_iff.not.2 (not_le.2 ((active_eq_false.1 hquiet).1 f hf))
  unfold totals
  rw [hnone]
  rfl

theorem statRow_quiet (hquiet : (totals a (windowStart period now)).active = false) : statRow address a now period = none := by
  unfold statRow
  simp only [hquiet, Bool.not_false, if_true]

/-- **An address quiet for a month has the same statistics from then on.** -/
theorem computeAddressStats_quiet (h : now ≤ now') (hquiet : (totals a (windowStart .month now)).active = false) :
    computeAddressStats address a now = computeAddressStats address a now' := by
  have hstart : windowStart .month now ≤ windowStart .month now' := windowStart_mono h
  have hquiet' := active_mono hstart hquiet
  have hrow : statRow address a now = statRow address a now' := by
    funext period
    by_cases hall : period = .all
    · subst hall
      rfl
    · rw [statRow_quiet (active_mono (month_le hall) hquiet), statRow_quiet (active_mono (month_le hall) hquiet')]
  have haccount : accountRow address a now = accountRow address a now' := by
    unfold accountRow
    simp only [notional_of_quiet hquiet, notional_of_quiet hquiet']
    rfl
  unfold computeAddressStats
  rw [hrow, haccount]

theorem statRow_some {r : TraderStatRow} (h : statRow address a now period = some r) :
    r.address = address ∧ r.period = period ∧ r.periodStart = windowStart period now ∧
      (totals a (windowStart period now)).active = true := by
  unfold statRow at h
  simp only at h
  split at h
  · cases h
  · rename_i hactive
    cases h
    exact ⟨rfl, rfl, rfl, by simpa using hactive⟩

theorem mem_traderStats {r : TraderStatRow} (h : r ∈ (computeAddressStats address a now).traderStats) :
    r.address = address ∧ r.periodStart = windowStart r.period now ∧ (totals a (windowStart r.period now)).active = true := by
  obtain ⟨period, -, hrow⟩ := List.mem_filterMap.1 h
  obtain ⟨haddress, rfl, hstart, hactive⟩ := statRow_some hrow
  exact ⟨haddress, hstart, hactive⟩

theorem mem_analytics {r : AccountAnalyticsRow} (h : r ∈ (computeAddressStats address a now).analytics.toList) :
    r.address = address := by
  rw [Option.mem_toList] at h
  unfold computeAddressStats accountRow at h
  simp only at h
  split at h
  · cases h
    rfl
  · cases h

/-- **Whoever has a row of a rolling window has one of the month's.** -/
theorem month_row (h : (totals a (windowStart .month now)).active = true) :
    ∃ r ∈ (computeAddressStats address a now).traderStats, r.period = .month ∧ r.periodStart = windowStart .month now := by
  have hrow : ∃ r, statRow address a now .month = some r := by
    unfold statRow
    simp [h]
  obtain ⟨r, hr⟩ := hrow
  obtain ⟨-, hperiod, hstart, -⟩ := statRow_some hr
  exact ⟨r, List.mem_filterMap.2 ⟨.month, by decide, hr⟩, hperiod, hstart⟩

end Kryon.Stats
