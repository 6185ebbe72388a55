import Kryon.MatchPriority
import Kryon.Rejections
/-!
# MarketTick — what a tick of the matcher offers for settlement

A tick matches the resting orders of a market that do not wait, within the execution band of its index price
(`bandFor`), and then drops the matches of the Insurance backstop that its unwind limits refuse
(`filterBackstopFills`).  The matching does not see these limits, so a refused quote has already used up the orders it
was matched with (`Absorbed`).
-/
namespace Kryon.Matcher

open Matching

/-! ## The bands -/

structure Band where
  index : Int
  low : Int
  high : Int

/-- What `Engine.applyFill` allows around the index price. -/
def bandFor (index : Int) (maxExecutionDeviationBps : Nat) : Band :=
  let delta := (index * maxExecutionDeviationBps).tdiv M.BPS_DENOMINATOR
  ⟨index, index - delta, index + delta⟩

def withinBand (price : Int) (band : Band) : Bool := decide (price ≥ band.low) && decide (price ≤ band.high)

/-- The matches the Engine would not refuse. -/
def filterByBand (matches_ : List EngineMatch) (index : Int) (maxExecutionDeviationBps : Nat) : List EngineMatch :=
  matches_.filter fun m => withinBand m.price (bandFor index maxExecutionDeviationBps)

/-- What Insurance holds the backstop's fills to. -/
structure BackstopLimits where
  maxDeviationBps : Nat
  maxFillNotional : Int
  /-- What is left of today's cap. -/
  dailyRemaining : Int

inductive BackstopDropReason where
  | unwindDisabled
  | outsideUnwindBand
  | overFillCap
  | overDailyCap
deriving DecidableEq

/-- Either side of the match belongs to the backstop. -/
def isBackstopMatch (m : EngineMatch) (backstop : Address) : Bool :=
  decide (m.maker.owner = backstop) || decide (m.taker.owner = backstop)

/-- Why Insurance would refuse a backstop match once `used` of the day's cap is taken. -/
def dropReason (index : Int) (limits : BackstopLimits) (used : Int) (m : EngineMatch) : Option BackstopDropReason :=
  if limits.maxDeviationBps = 0 then some .unwindDisabled
  else if withinBand m.price (bandFor index limits.maxDeviationBps) = false then some .outsideUnwindBand
  else if m.notional > limits.maxFillNotional then some .overFillCap
  else if used + m.notional > limits.dailyRemaining then some .overDailyCap
  else none

/-- One match of the filter, with the day's cap used so far. -/
def filterBackstopFill (backstop : Address) (index : Int) (limits : BackstopLimits) (s : List EngineMatch × Int)
    (m : EngineMatch) : List EngineMatch × Int :=
  if isBackstopMatch m backstop = false then (s.1 ++ [m], s.2)
  else if (dropReason index limits s.2 m).isSome then s
  else (s.1 ++ [m], s.2 + m.notional)

/-- The matches without the backstop fills Insurance would refuse. -/
def filterBackstopFills (matches_ : List EngineMatch) (backstop : Address) (index : Int) (limits : BackstopLimits) :
    List EngineMatch :=
  (matches_.foldl (filterBackstopFill backstop index limits) ([], 0)).1

/-! ## The tick -/

/-- What a tick reads of a market, from `Market`. -/
structure MarketConfig where
  marketId : MarketId
  active : Bool
  /-- 1e18 USDC notional. -/
  minFillNotional : Int
  maxExecutionDeviationBps : Nat

structure Book where
  market : MarketConfig
  orders : List EngineOrder
  positions : Address → Int
  minValidNonce : Address → Int

/-- `Insurance.unwindLimits`. -/
structure UnwindLimits where
  maxDeviationBps : Nat
  maxFillNotional : Int
  maxDailyNotional : Int
  usedToday : Int

def backstopLimits (u : UnwindLimits) : BackstopLimits :=
  let remaining := u.maxDailyNotional - u.usedToday
  ⟨u.maxDeviationBps, u.maxFillNotional, if remaining > 0 then remaining else 0⟩

/-- What a tick finds: the book, the orders that wait, the usable index price, if any, and the backstop's limits. -/
structure MarketTick where
  opts : CooldownOptions
  nowMs : Int
  book : Book
  cooldown : Cooldown
  index : Option Int
  insurance : Address
  unwindLimits : UnwindLimits

namespace MarketTick

variable (t : MarketTick)

/-- The resting orders that do not wait. -/
def orders : List EngineOrder :=
  t.book.orders.filter fun o => !(t.cooldown.sweep t.opts t.nowMs).blocked o.orderHash t.nowMs

/-- What is matched at an index price. -/
def input (index : Int) : EngineInput where
  marketId := t.book.market.marketId
  nowSec := t.nowMs / 1000
  orders := t.orders
  positions := t.book.positions
  minValidNonce := t.book.minValidNonce
  minFillNotional := t.book.market.minFillNotional
  acceptPrice := some fun price => withinBand price (bandFor index t.book.market.maxExecutionDeviationBps)

end MarketTick

/-- The matches a tick offers for settlement. -/
def tickMarket (t : MarketTick) : List EngineMatch :=
  if t.book.market.active = false then []
  else if t.orders = [] then []
  else
    match t.index with
    | none => []
    | some index =>
      let kept := filterByBand (matchOrders (t.input index)).matches_ index t.book.market.maxExecutionDeviationBps
      if kept.any fun m => isBackstopMatch m t.insurance then
        filterBackstopFills kept t.insurance index (backstopLimits t.unwindLimits)
      else kept

/-- The orders of the tick hold a pair that may trade, neither of them the backstop's. -/
def Crossed (t : MarketTick) : Prop :=
  t.book.market.active = true ∧ ∃ index ∈ t.index, ∃ bid ∈ eligible (t.input index), ∃ ask ∈ eligible (t.input index),
    bid.isLong = true ∧ ask.isLong = false ∧ bid.owner ≠ t.insurance ∧ ask.owner ≠ t.insurance ∧
    ask.limitPrice ≤ bid.limitPrice ∧ Tradable (t.input index) (Ledger.new t.book.positions) bid ask

/-- Every pair that trades, in the order of priority, is the backstop's, and over its limits on its own. -/
def Absorbed (t : MarketTick) : Prop :=
  ∀ index ∈ t.index, ∀ m ∈ (matchOrders (t.input index)).matches_, isBackstopMatch m t.insurance = true ∧
    (dropReason index (backstopLimits t.unwindLimits) 0 m).isSome

/-! ## The engine trades a crossed book -/

section Progress

variable {input : EngineInput} {bid ask : EngineOrder}

theorem sweepAsks_traded (as : List EngineOrder) {s : Sweep} (h : s.matches_ ≠ []) :
    (sweepAsks input bid as s).matches_ ≠ [] := by
  refine sweepAsks_keeps (fun s => s.matches_ ≠ []) as s (fun ask s _ _ hs => ?_) h
  rcases pair_cases input bid ask s with ⟨-, -, sequence, hmatches⟩ | ⟨-, -, hmatches⟩
  · simp [hmatches]
  · rwa [hmatches]

theorem sweepAsks_idle (as : List EngineOrder) (s : Sweep) (h : (sweepAsks input bid as s).matches_ = []) :
    (sweepAsks input bid as s).ledger = s.ledger := by
  refine sweepAsks_keeps (fun t => t.matches_ = [] → t.ledger = s.ledger) as s (fun ask t _ _ ht hnone => ?_)
    (fun _ => rfl) h
  rcases pair_cases input bid ask t with ⟨-, -, sequence, hmatches⟩ | ⟨-, hledger, hmatches⟩
  · simp [hmatches] at hnone
  · rw [hledger]
    exact ht (hmatches ▸ hnone)

theorem sweepAsks_trades (hcross : ask.limitPrice ≤ bid.limitPrice) :
    ∀ (as : List EngineOrder) (s : Sweep), (as.Pairwise fun a b => compare a b true ≤ 0) → ask ∈ as →
      Tradable input s.ledger bid ask → (sweepAsks input bid as s).matches_ ≠ []
  | [], _, _, hmem, _ => absurd hmem List.not_mem_nil
  | a :: as, s, hsorted, hmem, ht => by
    have hprice : ¬ bid.limitPrice < a.limitPrice := by
      rcases List.mem_cons.1 hmem with rfl | hmem'
      · omega
      · have := compare_ask ((List.pairwise_cons.1 hsorted).1 ask hmem')
        omega
    have hleft : ¬ s.ledger.remaining bid ≤ 0 := by
      have := ht.bidLeft.trans_le (Ledger.fillable_le ht.bidLeft)
      omega
    rw [sweepAsks, if_neg hprice, if_neg hleft]
    rcases pair_cases input bid a s with ⟨-, -, sequence, hmatches⟩ | ⟨hnot, hledger, -⟩
    · exact sweepAsks_traded as (by simp [hmatches])
    · rcases List.mem_cons.1 hmem with rfl | hmem'
      · exact absurd ht hnot
      · exact sweepAsks_trades hcross as _ (List.pairwise_cons.1 hsorted).2 hmem' (hledger.symm ▸ ht)

theorem sweepBids_traded (as : List EngineOrder) :
    ∀ (bs : List EngineOrder) {s : Sweep}, s.matches_ ≠ [] → (sweepBids input as bs s).matches_ ≠ []
  | [], _, h => h
  | _ :: bs, _, h => sweepBids_traded as bs (sweepAsks_traded as h)

theorem sweepBids_trades {as : List EngineOrder} (hsorted : as.Pairwise fun a b => compare a b true ≤ 0)
    (hask : ask ∈ as) (hcross : ask.limitPrice ≤ bid.limitPrice) :
    ∀ (bs : List EngineOrder) (s : Sweep), bid ∈ bs → Tradable input s.ledger bid ask →
      (sweepBids input as bs s).matches_ ≠ []
  | [], _, hmem, _ => absurd hmem List.not_mem_nil
  | b :: bs, s, hmem, ht => by
    rw [sweepBids]
    by_cases htraded : (sweepAsks input b as s).matches_ = []
    · rcases List.mem_cons.1 hmem with rfl | hmem'
      · exact absurd htraded (sweepAsks_trades hcross as s hsorted hask ht)
      · exact sweepBids_trades hsorted hask hcross bs _ hmem' ((sweepAsks_idle as s htraded).symm ▸ ht)
    · exact sweepBids_traded as bs htraded

/-- **A pair that may trade makes the engine trade.** -/
theorem matchOrders_trades (hbid : bid ∈ eligible input) (hask : ask ∈ eligible input) (hlong : bid.isLong = true)
    (hshort : ask.isLong = false) (hcross : ask.limitPrice ≤ bid.limitPrice)
    (ht : Tradable input (Ledger.new input.positions) bid ask) : (matchOrders input).matches_ ≠ [] :=
  sweepBids_trades (side_sorted _ true) (mem_asks.2 ⟨mem_eligible.1 hask, hshort⟩) hcross _ _
    (mem_bids.2 ⟨mem_eligible.1 hbid, hlong⟩) ht

end Progress

/-! ## The filters -/

/-- The engine has already refused what the band would drop. -/
theorem filterByBand_matches (t : MarketTick) (index : Int) :
    filterByBand (matchOrders (t.input index)).matches_ index t.book.market.maxExecutionDeviationBps =
      (matchOrders (t.input index)).matches_ :=
  List.filter_eq_self.2 fun m hm => (matchOrders_fair (t.input index) m hm).acceptable

section Backstop

variable {backstop : Address} {index : Int} {limits : BackstopLimits}

theorem filterBackstopFill_kept {ms : List EngineMatch} {s : List EngineMatch × Int} (h : s.1 ≠ []) :
    (ms.foldl (filterBackstopFill backstop index limits) s).1 ≠ [] := by
  induction ms generalizing s with
  | nil => exact h
  | cons m ms ih =>
    refine ih ?_
    unfold filterBackstopFill
    split_ifs <;> simp [h]

/-- **Everything is dropped exactly when each match is a backstop's that is over the limits on its own**: nothing of the day's
cap is used before the first that is kept. -/
theorem filterBackstopFills_eq_nil (ms : List EngineMatch) : filterBackstopFills ms backstop index limits = [] ↔
    ∀ m ∈ ms, isBackstopMatch m backstop = true ∧ (dropReason index limits 0 m).isSome := by
  unfold filterBackstopFills
  induction ms with
  | nil => simp
  | cons m ms ih =>
    rw [List.foldl_cons, List.forall_mem_cons]
    by_cases hdrop : isBackstopMatch m backstop = true ∧ (dropReason index limits 0 m).isSome
    · have hstep : filterBackstopFill backstop index limits ([], 0) m = ([], 0) := by
        simp [filterBackstopFill, hdrop.1, hdrop.2]
      rw [hstep, ih]
      exact (and_iff_right hdrop).symm
    · refine iff_of_false (filterBackstopFill_kept ?_) fun h => hdrop h.1
      unfold filterBackstopFill
      split_ifs with hordinary hrefused
      · simp
      · exact absurd ⟨Bool.not_eq_false _ ▸ hordinary, hrefused⟩ hdrop
      · simp

end Backstop

namespace Sample

def backstopAsk : EngineOrder :=
  { Matching.Sample.market with orderHash := 1, owner := 99, isLong := false, limitPrice := 99 * 10 ^ 18 }

def bookAsk : EngineOrder := { Matching.Sample.market with orderHash := 2, owner := 11, isLong := false, createdAt := 2 }

def bookBid : EngineOrder := { Matching.Sample.market with orderHash := 3, owner := 12, createdAt := 3 }

/-- The backstop, 99, asks below everybody else, with a cap for each of its fills. -/
def quoted (maxFillNotional : Int) : MarketTick where
  opts := DEFAULT_COOLDOWN
  nowMs := 1000000
  book := ⟨⟨1, true, 10 ^ 18, 500⟩, [backstopAsk, bookAsk, bookBid], fun _ => 0, fun _ => 0⟩
  cooldown := fun _ => none
  index := some (100 * 10 ^ 18)
  insurance := 99
  unwindLimits := ⟨200, maxFillNotional, 10 ^ 24, 0⟩

theorem quoted_crossed (maxFillNotional : Int) : Crossed (quoted maxFillNotional) := by
  have hbid : bookBid ∈ eligible ((quoted 0).input (100 * 10 ^ 18)) := by decide +kernel
  have hask : bookAsk ∈ eligible ((quoted 0).input (100 * 10 ^ 18)) := by decide +kernel
  have hpair : Tradable ((quoted 0).input (100 * 10 ^ 18)) (Ledger.new fun _ => 0) bookBid bookAsk :=
    ⟨by decide, by decide +kernel, by decide +kernel, by decide +kernel, by decide +kernel⟩
  have hothers : bookBid.owner ≠ 99 ∧ bookAsk.owner ≠ 99 := by decide
  exact ⟨rfl, _, rfl, bookBid, hbid, bookAsk, hask, rfl, rfl, hothers.1, hothers.2, by decide, hpair⟩

end Sample

end Kryon.Matcher
