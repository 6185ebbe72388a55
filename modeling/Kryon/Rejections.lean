import Kryon.MatcherDb
import Kryon.MatchSafety
import Mathlib.Logic.Relation
/-!
# Rejections — what a rejected fill does to the orders behind it

A rejection is classified by its error (`classifyRejection`).  A poison one retires the orders it can blame
(`blameForPoison`), a retryable one makes both orders wait (`Cooldown.strike`), and a fill that settles clears both
(`Cooldown.clear`).  An order is held back after a batch iff it was retired before, is blamed, or waits (`held_iff`).
-/
namespace Kryon.Matcher

open Function (update)

/-! ## Classification -/

/-- What a rejection means for the two orders behind the fill. -/
inductive RejectionAction where
  /-- Nothing durable is wrong; the fill can be attempted again later. -/
  | retryable (reason : String)
  /-- One or both orders are finished and must leave the book. -/
  | poison (reason : String) (status : OrderStatus)
  /-- The matcher produced a fill the gateway should never have been offered. -/
  | matcherBug (reason : String)
deriving DecidableEq

def RejectionAction.reason : RejectionAction → String
  | .retryable reason | .poison reason _ | .matcherBug reason => reason

/-- Errors that retire an order rather than the fill. -/
def POISON (errorName : String) : Option OrderStatus :=
  if errorName = "InvalidSignature" then some .cancelled
  else if errorName = "OrderCancelled" then some .cancelled
  else if errorName = "NonceReused" then some .cancelled
  else if errorName = "OrderExpired" then some .expired
  else none

/-- Rejections that can only come from the matcher offering an invalid fill. -/
def MATCHER_BUGS : List String :=
  ["SelfTrade", "DirectionMismatch", "InvalidConfig", "InvalidAmount", "FillBelowMinNotional", "BatchTooLarge", "OnlySelf"]

/-- A rejection of a receipt: the raw revert data in hex, and the error it decodes to. -/
structure RejectedFill where
  fillId : Bytes32
  raw : String
  errorName : Option String
deriving DecidableEq

def classifyRejection (errorName : Option String) (raw : String) : RejectionAction :=
  match errorName with
  | none => .retryable ("unknown revert " ++ String.ofList (raw.toList.take 18))
  | some errorName =>
    match POISON errorName with
    | some status => .poison errorName status
    | none => if MATCHER_BUGS.contains errorName then .matcherBug errorName else .retryable errorName

def RejectedFill.action (r : RejectedFill) : RejectionAction := classifyRejection r.errorName r.raw

/-! ## Blame -/

/-- How a signature is decided: a recovery that throws recovers nobody, and an ERC-1271 check may not answer. -/
structure Signatures where
  hashOrder : Order → Bytes32
  recoverTypedDataAddress : Order → Bytes → Option Address
  erc1271 : Option (Address → Bytes32 → Bytes → Option Bool)

variable (sigs : Signatures)

/-- The signature recovers to somebody else and the owner says it is not valid. -/
def Signatures.bad (o : Order) (signature : Bytes) : Bool :=
  if sigs.recoverTypedDataAddress o signature = some o.owner then false
  else
    match sigs.erc1271 with
    | none => false
    | some check => check o.owner (sigs.hashOrder o) signature = some false

/-- Whether a poison rejection is laid to one side of its fill. -/
def blames (nowSec : Int) (minValidNonce : Address → Nat) (reason : String) (status : OrderStatus) (o : Order)
    (signature : Bytes) : Bool :=
  if status = .expired then decide ((o.expiry : Int) ≤ nowSec)
  else if reason = "OrderCancelled" then decide (o.nonce < minValidNonce o.owner)
  else if reason = "InvalidSignature" then sigs.bad o signature
  -- A reused nonce singles neither side out.
  else false

/-- Which of a fill's two orders a poison rejection belongs to. -/
def blameForPoison (nowSec : Int) (minValidNonce : Address → Nat) (f : PlannedFill) (reason : String)
    (status : OrderStatus) : List Bytes32 :=
  ([(f.makerOrderHash, f.maker, f.makerSignature), (f.takerOrderHash, f.taker, f.takerSignature)].filter fun s =>
    blames sigs nowSec minValidNonce reason status s.2.1 s.2.2).map (·.1)

/-! ## Backoff -/

structure CooldownOptions where
  /-- Wait after the first rejection; each further strike doubles it. -/
  baseMs : Nat
  /-- Ceiling on the doubling. -/
  maxMs : Nat
  /-- Strikes after which an order is parked rather than retried. -/
  parkAfter : Nat
  /-- How long a record outlives its wait. -/
  forgetAfterMs : Nat

def DEFAULT_COOLDOWN : CooldownOptions := ⟨2000, 60000, 5, 300000⟩

structure CooldownState where
  strikes : Nat
  until_ : Int
  reason : String
  parked : Bool
deriving DecidableEq

abbrev Cooldown := Bytes32 → Option CooldownState

namespace Cooldown

/-- How long an order waits after its last strike. -/
def wait (opts : CooldownOptions) (strikes : Nat) : Nat := min opts.maxMs (opts.baseMs * 2 ^ (strikes - 1))

def strikes (c : Cooldown) (orderHash : Bytes32) : Nat :=
  match c orderHash with
  | some state => state.strikes
  | none => 0

/-- Record a retryable rejection against an order. -/
def strike (opts : CooldownOptions) (orderHash : Bytes32) (reason : String) (nowMs : Int) (c : Cooldown) : Cooldown :=
  let strikes := c.strikes orderHash + 1
  update c orderHash (some ⟨strikes, nowMs + wait opts strikes, reason, decide (strikes ≥ opts.parkAfter)⟩)

/-- The order should be left out of the book. -/
def blocked (c : Cooldown) (orderHash : Bytes32) (nowMs : Int) : Bool :=
  match c orderHash with
  | some state => decide (state.until_ > nowMs)
  | none => false

def clear (c : Cooldown) (orderHash : Bytes32) : Cooldown := update c orderHash none

/-- Forget records nothing has touched for a while. -/
def sweep (opts : CooldownOptions) (nowMs : Int) (c : Cooldown) : Cooldown := fun orderHash =>
  (c orderHash).filter fun state => !decide (nowMs - state.until_ > opts.forgetAfterMs)

end Cooldown

/-! ## Applying a receipt -/

/-- The gateway's logs of a receipt. -/
structure BatchResult where
  settled : List SettledFill
  rejected : List RejectedFill

/-- The fill of a batch with an id; of two with one id, the later. -/
def byId (fills : List PlannedFill) (fillId : Bytes32) : Option PlannedFill :=
  fills.reverse.find? fun f => f.fillId = fillId

/-- Record one rejection, and retire the orders a poison one can blame. -/
def applyRejection (nowSec : Int) (minValidNonce : Address → Nat) (fills : List PlannedFill) (db : Db)
    (r : RejectedFill) : Db :=
  let db := recordRejection db r.fillId r.action.reason
  match r.action with
  | .matcherBug _ | .retryable _ => db
  | .poison reason status =>
    match byId fills r.fillId with
    | none => db
    | some f =>
      (blameForPoison sigs nowSec minValidNonce f reason status).foldl (fun db orderHash => retireOrder db orderHash status) db

/-- Settled fills are left to the indexer; only rejections and the orders behind them are written. -/
def applyBatchResult (nowSec : Int) (minValidNonce : Address → Nat) (fills : List PlannedFill) (result : BatchResult)
    (db : Db) : Db :=
  result.rejected.foldl (applyRejection sigs nowSec minValidNonce fills) db

/-- The orders a list of fills names, the maker's before the taker's. -/
def sides (fills : List PlannedFill) : List Bytes32 := fills.flatMap fun f => [f.makerOrderHash, f.takerOrderHash]

def RejectedFill.retryable (r : RejectedFill) : Bool :=
  match r.action with
  | .retryable _ => true
  | .poison .. | .matcherBug _ => false

/-- Hold back the orders behind a retryable rejection. -/
def recordRejectionBackoff (opts : CooldownOptions) (nowMs : Int) (fills : List PlannedFill) (rejected : List RejectedFill)
    (c : Cooldown) : Cooldown :=
  rejected.foldl (fun c r =>
    if r.retryable then
      match byId fills r.fillId with
      | none => c
      | some f => (sides [f]).foldl (fun c orderHash => c.strike opts orderHash r.action.reason nowMs) c
    else c) c

/-- The orders of the fills that settled drop their strikes. -/
def clearSettled (fills : List PlannedFill) (settled : List SettledFill) (c : Cooldown) : Cooldown :=
  (sides (fills.filter fun f => decide (f.fillId ∈ settled.map (·.fillId)))).foldl (·.clear) c

structure State where
  db : Db
  cooldown : Cooldown

/-- A batch's receipt: the database is written, then the orders behind retryable rejections wait and those of settled fills
are cleared. -/
def applyReceipt (opts : CooldownOptions) (nowSec nowMs : Int) (fills : List PlannedFill) (result : BatchResult)
    (s : State) : State where
  db := applyBatchResult sigs nowSec s.db.minValidNonce fills result s.db
  cooldown := clearSettled fills result.settled (recordRejectionBackoff opts nowMs fills result.rejected s.cooldown)

/-! ## The next tick -/

/-- The orders a tick offers: the resting book without those that wait. -/
def tickOrders (opts : CooldownOptions) (marketId : MarketId) (nowSec nowMs : Int) (s : State) : List Matching.EngineOrder :=
  (loadOrders s.db marketId nowSec).filter fun o => !(s.cooldown.sweep opts nowMs).blocked o.orderHash nowMs

variable {sigs} {opts : CooldownOptions} {nowSec nowMs t : Int} {minValidNonce : Address → Nat} {fills : List PlannedFill}
  {result : BatchResult} {db : Db} {c : Cooldown} {h k : Bytes32} {s s' : State} {r : RejectedFill}

/-! ## Retired orders -/

/-- The order can still trade. -/
def Live (db : Db) (h : Bytes32) : Prop := ∃ o ∈ db.orders, o.orderHash = h ∧ o.status.tradeable = true

instance : Decidable (Live db h) := inferInstanceAs (Decidable (∃ o ∈ db.orders, _))

theorem live_map {g : OrderRow → OrderRow} (hg : ∀ o, (g o).orderHash = o.orderHash) :
    (∃ o ∈ db.orders.map g, o.orderHash = h ∧ o.status.tradeable = true) ↔
      ∃ o ∈ db.orders, o.orderHash = h ∧ (g o).status.tradeable = true := by
  simp only [List.mem_map, exists_exists_and_eq_and, hg]

theorem retireOrder_live {status : OrderStatus} (hstatus : status.tradeable = false) :
    Live (retireOrder db k status) h ↔ Live db h ∧ h ≠ k := by
  unfold Live retireOrder
  rw [live_map fun o => by split_ifs <;> rfl]
  constructor
  · rintro ⟨o, ho, hhash, hlive⟩
    split_ifs at hlive with hretired
    · exact absurd (hstatus.symm.trans hlive) Bool.false_ne_true
    · exact ⟨⟨o, ho, hhash, hlive⟩, fun heq => hretired ⟨hhash.trans heq, hlive⟩⟩
  · rintro ⟨⟨o, ho, rfl, hlive⟩, hne⟩
    have hkept : ¬ (o.orderHash = k ∧ o.status.tradeable = true) := fun h => hne h.1
    refine ⟨o, ho, rfl, ?_⟩
    rw [if_neg hkept]
    exact hlive

theorem foldl_retire_live {status : OrderStatus} (hstatus : status.tradeable = false) (hashes : List Bytes32) :
    ∀ db : Db, Live (hashes.foldl (fun db orderHash => retireOrder db orderHash status) db) h ↔ Live db h ∧ h ∉ hashes := by
  induction hashes with
  | nil =>
    intro db
    exact (and_iff_left List.not_mem_nil).symm
  | cons k hashes ih =>
    intro db
    rw [List.foldl_cons, ih, retireOrder_live hstatus, List.mem_cons, not_or, and_assoc]

theorem poison_final {reason : String} {status : OrderStatus} (h : r.action = .poison reason status) :
    status = .cancelled ∨ status = .expired := by
  unfold RejectedFill.action classifyRejection at h
  split at h
  · exact absurd h (by simp)
  · split at h
    · rename_i hpoison
      rw [RejectionAction.poison.injEq] at h
      rw [h.2] at hpoison
      unfold POISON at hpoison
      split_ifs at hpoison
      · exact Or.inl (Option.some.inj hpoison).symm
      · exact Or.inl (Option.some.inj hpoison).symm
      · exact Or.inl (Option.some.inj hpoison).symm
      · exact Or.inr (Option.some.inj hpoison).symm
    · split_ifs at h

theorem final_not_tradeable {status : OrderStatus} (h : status = .cancelled ∨ status = .expired) :
    status.tradeable = false := by
  rcases h with rfl | rfl
  · rfl
  · rfl

/-- The rejection is poison, and is laid to the order. -/
def Blamed (sigs : Signatures) (nowSec : Int) (minValidNonce : Address → Nat) (fills : List PlannedFill)
    (r : RejectedFill) (h : Bytes32) : Prop :=
  ∃ reason status f, r.action = .poison reason status ∧ byId fills r.fillId = some f ∧
    h ∈ blameForPoison sigs nowSec minValidNonce f reason status

/-- **A rejection is recorded, and retires the orders it is laid to.** -/
theorem applyRejection_eq (db : Db) (r : RejectedFill) : ∃ (hashes : List Bytes32) (status : OrderStatus),
    (status = .cancelled ∨ status = .expired) ∧
    (∀ h, h ∈ hashes ↔ Blamed sigs nowSec minValidNonce fills r h) ∧
    applyRejection sigs nowSec minValidNonce fills db r =
      hashes.foldl (fun db orderHash => retireOrder db orderHash status)
        (recordRejection db r.fillId r.action.reason) := by
  unfold applyRejection Blamed
  simp only
  cases hact : r.action with
  | retryable reason => exact ⟨[], .cancelled, Or.inl rfl, by simp, rfl⟩
  | matcherBug reason => exact ⟨[], .cancelled, Or.inl rfl, by simp, rfl⟩
  | poison reason status =>
    cases hfill : byId fills r.fillId with
    | none => exact ⟨[], .cancelled, Or.inl rfl, by simp, rfl⟩
    | some f => exact ⟨blameForPoison sigs nowSec minValidNonce f reason status, status, poison_final hact, by simp, rfl⟩

theorem applyRejection_live : Live (applyRejection sigs nowSec minValidNonce fills db r) h ↔
    Live db h ∧ ¬ Blamed sigs nowSec minValidNonce fills r h := by
  obtain ⟨hashes, status, hstatus, hmem, heq⟩ := applyRejection_eq db r
  rw [heq, foldl_retire_live (final_not_tradeable hstatus), hmem]
  exact Iff.rfl

/-- **After a receipt an order is live iff it was and no rejection of the receipt is laid to it.** -/
theorem applyBatchResult_live (db : Db) : Live (applyBatchResult sigs nowSec minValidNonce fills result db) h ↔
    Live db h ∧ ∀ r ∈ result.rejected, ¬ Blamed sigs nowSec minValidNonce fills r h := by
  unfold applyBatchResult
  induction result.rejected generalizing db with
  | nil => exact (and_iff_left (by simp)).symm
  | cons r rejected ih => rw [List.foldl_cons, ih, applyRejection_live, List.forall_mem_cons, and_assoc]

/-! ## Waiting orders -/

/-- The orders that retryable rejections strike, in order, with the reason. -/
def strikesOf (fills : List PlannedFill) (rejected : List RejectedFill) : List (Bytes32 × String) :=
  rejected.flatMap fun r =>
    if r.retryable then
      match byId fills r.fillId with
      | none => []
      | some f => (sides [f]).map fun orderHash => (orderHash, r.action.reason)
    else []

theorem recordRejectionBackoff_eq (rejected : List RejectedFill) (c : Cooldown) :
    recordRejectionBackoff opts nowMs fills rejected c =
      (strikesOf fills rejected).foldl (fun c x => c.strike opts x.1 x.2 nowMs) c := by
  unfold recordRejectionBackoff strikesOf
  rw [List.foldl_flatMap]
  refine List.foldl_ext _ _ _ fun c r _ => ?_
  split_ifs
  · cases byId fills r.fillId with
    | none => rfl
    | some f =>
      simp only
      rw [List.foldl_map]
  · rfl

theorem foldl_strike (l : List (Bytes32 × String)) (h : Bytes32) : ∀ c : Cooldown,
    (h ∉ l.map (·.1) → (l.foldl (fun c x => c.strike opts x.1 x.2 nowMs) c) h = c h) ∧
    (h ∈ l.map (·.1) → ∃ reason parked, (l.foldl (fun c x => c.strike opts x.1 x.2 nowMs) c) h =
      some ⟨c.strikes h + (l.map (·.1)).count h,
        nowMs + Cooldown.wait opts (c.strikes h + (l.map (·.1)).count h), reason, parked⟩) := by
  induction l with
  | nil => exact fun c => ⟨fun _ => rfl, fun hmem => absurd hmem List.not_mem_nil⟩
  | cons x l ih =>
    intro c
    obtain ⟨hnot, hin⟩ := ih (c.strike opts x.1 x.2 nowMs)
    rw [List.foldl_cons, List.map_cons]
    by_cases hx : x.1 = h
    · have hstruck : (c.strike opts x.1 x.2 nowMs) h = some ⟨c.strikes h + 1, nowMs + Cooldown.wait opts (c.strikes h + 1),
          x.2, decide (c.strikes h + 1 ≥ opts.parkAfter)⟩ := by
        rw [← hx]
        exact Function.update_self _ _ _
      have hcount : (x.1 :: l.map (·.1)).count h = (l.map (·.1)).count h + 1 := by rw [hx, List.count_cons_self]
      refine ⟨fun hmem => absurd (hx ▸ List.mem_cons_self) hmem, fun _ => ?_⟩
      rw [hcount]
      by_cases hmore : h ∈ l.map (·.1)
      · obtain ⟨reason, parked, hstate⟩ := hin hmore
        have hstrikes : (c.strike opts x.1 x.2 nowMs).strikes h = c.strikes h + 1 := by
          rw [Cooldown.strikes, hstruck]
        rw [hstrikes, add_assoc, add_comm 1] at hstate
        exact ⟨reason, parked, hstate⟩
      · rw [hnot hmore, hstruck, List.count_eq_zero_of_not_mem hmore]
        exact ⟨_, _, rfl⟩
    · have hsame : (c.strike opts x.1 x.2 nowMs) h = c h := Function.update_of_ne (Ne.symm hx) _ _
      have hstrikes : (c.strike opts x.1 x.2 nowMs).strikes h = c.strikes h := by
        rw [Cooldown.strikes, hsame, Cooldown.strikes]
      rw [hstrikes] at hin
      rw [hsame] at hnot
      rw [List.count_cons_of_ne hx, List.mem_cons, or_iff_right (Ne.symm hx)]
      exact ⟨hnot, hin⟩

theorem foldl_clear (l : List Bytes32) (h : Bytes32) : ∀ c : Cooldown,
    (l.foldl (·.clear) c) h = if h ∈ l then none else c h := by
  induction l with
  | nil => exact fun c => rfl
  | cons k l ih =>
    intro c
    rw [List.foldl_cons, ih]
    unfold Cooldown.clear
    by_cases hk : h = k
    · rw [hk, Function.update_self, if_pos List.mem_cons_self]
      split_ifs <;> rfl
    · simp only [Function.update_of_ne hk, List.mem_cons, or_iff_right hk]

/-- How often a batch's retryable rejections strike an order. -/
def strikesIn (fills : List PlannedFill) (result : BatchResult) (h : Bytes32) : Nat :=
  ((strikesOf fills result.rejected).map (·.1)).count h

/-- The order waits at `t`: none of its fills settled, and it waits from now for its latest strike if the batch struck it, and
as it did before otherwise. -/
def Waits (opts : CooldownOptions) (nowMs : Int) (fills : List PlannedFill) (result : BatchResult) (c : Cooldown)
    (h : Bytes32) (t : Int) : Prop :=
  h ∉ sides (fills.filter fun f => decide (f.fillId ∈ result.settled.map (·.fillId))) ∧
    if strikesIn fills result h = 0 then c.blocked h t = true
    else t < nowMs + Cooldown.wait opts (c.strikes h + strikesIn fills result h)

theorem blocked_iff : (clearSettled fills result.settled
    (recordRejectionBackoff opts nowMs fills result.rejected c)).blocked h t = true ↔
      Waits opts nowMs fills result c h t := by
  obtain ⟨hnot, hin⟩ := @foldl_strike opts nowMs (strikesOf fills result.rejected) h c
  rw [Cooldown.blocked, clearSettled, foldl_clear, Waits, recordRejectionBackoff_eq]
  split_ifs with hsettled hstruck hstruck
  · exact iff_of_false (by simp) fun hw => hw.1 hsettled
  · exact iff_of_false (by simp) fun hw => hw.1 hsettled
  · rw [hnot (List.count_eq_zero.1 hstruck), and_iff_right hsettled]
    rfl
  · obtain ⟨reason, parked, hstate⟩ := hin (by_contra fun hmem => hstruck (List.count_eq_zero.2 hmem))
    rw [hstate, and_iff_right hsettled]
    exact decide_eq_true_iff

/-! ## Orders held back -/

/-- The order is off the book at `t`: it is retired, or it waits. -/
def Held (s : State) (h : Bytes32) (t : Int) : Prop := ¬ Live s.db h ∨ s.cooldown.blocked h t = true

instance : Decidable (Held s h t) := inferInstanceAs (Decidable (_ ∨ _))

/-- **An order is held back after a receipt iff it was retired, is blamed, or waits.** -/
theorem held_iff : Held (applyReceipt sigs opts nowSec nowMs fills result s) h t ↔
    ¬ Live s.db h ∨ (∃ r ∈ result.rejected, Blamed sigs nowSec s.db.minValidNonce fills r h) ∨
      Waits opts nowMs fills result s.cooldown h t := by
  rw [Held, applyReceipt, applyBatchResult_live, blocked_iff, not_and_or, or_assoc]
  refine or_congr_right (or_congr_left ?_)
  simp only [not_forall, not_not, exists_prop]

theorem sweep_blocked : (c.sweep opts nowMs).blocked h nowMs = c.blocked h nowMs := by
  unfold Cooldown.blocked Cooldown.sweep
  cases hstate : c h with
  | none => rfl
  | some state =>
    by_cases hold : nowMs - state.until_ > opts.forgetAfterMs
    · have hdone : ¬ state.until_ > nowMs := by omega
      simp only [Option.filter_some, decide_eq_true hold, Bool.not_true, Bool.false_eq_true, if_false,
        decide_eq_false hdone]
    · simp only [Option.filter_some, decide_eq_false hold, Bool.not_false, if_true]

theorem tickOrders_held {marketId : MarketId} (hheld : Held s h nowMs) :
    ∀ o ∈ tickOrders opts marketId nowSec nowMs s, o.orderHash ≠ h := by
  rintro o ho rfl
  unfold tickOrders loadOrders at ho
  rw [List.mem_filter, List.mem_insertionSort, List.mem_map] at ho
  obtain ⟨⟨row, hrow, hrow'⟩, hfree⟩ := ho
  rw [List.mem_filter, decide_eq_true_eq] at hrow
  have hhash : row.orderHash = o.orderHash := congrArg Matching.EngineOrder.orderHash hrow'
  rw [sweep_blocked, Bool.not_eq_true'] at hfree
  rcases hheld with hretired | hwaits
  · exact hretired ⟨row, hrow.1, hhash, hrow.2.2.1⟩
  · exact absurd (hfree.symm.trans hwaits) Bool.false_ne_true

/-- The tick offers the pair: the matches it makes of its orders, whatever the state of the market, hold them. -/
def Offers (opts : CooldownOptions) (nowSec nowMs : Int) (s : State) (a b : Bytes32) : Prop :=
  ∃ input : Matching.EngineInput, input.orders = tickOrders opts input.marketId nowSec nowMs s ∧
    ∃ m ∈ (Matching.matchOrders input).matches_, m.maker.orderHash = a ∧ m.taker.orderHash = b

theorem not_offers (hheld : Held s h nowMs) (hk : h = k) (a : Bytes32) :
    ¬ Offers opts nowSec nowMs s k a ∧ ¬ Offers opts nowSec nowMs s a k := by
  subst hk
  constructor
  · rintro ⟨input, horders, m, hm, hmaker, -⟩
    exact tickOrders_held hheld _ (horders ▸ (Matching.matchOrders_fair input m hm).maker.mem) hmaker
  · rintro ⟨input, horders, m, hm, -, htaker⟩
    exact tickOrders_held hheld _ (horders ▸ (Matching.matchOrders_fair input m hm).taker.mem) htaker

/-! ## Retired for good -/

/-- The order is cancelled or expired. -/
def Retired (db : Db) (h : Bytes32) : Prop :=
  h ∈ db.orders.map (·.orderHash) ∧ ∀ o ∈ db.orders, o.orderHash = h → o.status = .cancelled ∨ o.status = .expired

theorem Retired.not_live (hr : Retired db h) : ¬ Live db h := by
  rintro ⟨o, ho, hhash, hlive⟩
  exact Bool.false_ne_true ((final_not_tradeable (hr.2 o ho hhash)).symm.trans hlive)

theorem Retired.map {g : OrderRow → OrderRow} (hr : Retired db h) (hg : ∀ o, (g o).orderHash = o.orderHash)
    (hkeeps : ∀ o, o.status = .cancelled ∨ o.status = .expired → (g o).status = .cancelled ∨ (g o).status = .expired)
    {db' : Db} (hdb : db'.orders = db.orders.map g) : Retired db' h := by
  refine ⟨?_, fun o ho hhash => ?_⟩
  · rw [hdb, List.map_map]
    have hsame : ((fun o => o.orderHash) ∘ g) = fun o : OrderRow => o.orderHash := funext hg
    rw [hsame]
    exact hr.1
  · rw [hdb, List.mem_map] at ho
    obtain ⟨o', ho', rfl⟩ := ho
    rw [hg] at hhash
    exact hkeeps o' (hr.2 o' ho' hhash)

theorem Retired.retireOrder {status : OrderStatus} (hr : Retired db h) : Retired (Matcher.retireOrder db k status) h := by
  refine hr.map (fun o => ?_) (fun o ho => ?_) rfl
  · split_ifs <;> rfl
  · have hdone : ¬ (o.orderHash = k ∧ o.status.tradeable = true) := fun hlive =>
      Bool.false_ne_true ((final_not_tradeable ho).symm.trans hlive.2)
    rw [if_neg hdone]
    exact ho

theorem Retired.foldl_retire {status : OrderStatus} (hashes : List Bytes32) (hr : Retired db h) :
    Retired (hashes.foldl (fun db orderHash => Matcher.retireOrder db orderHash status) db) h := by
  induction hashes generalizing db with
  | nil => exact hr
  | cons k hashes ih => exact ih hr.retireOrder

theorem Retired.applyRejection (hr : Retired db h) : Retired (Matcher.applyRejection sigs nowSec minValidNonce fills db r) h := by
  obtain ⟨hashes, status, -, -, heq⟩ := applyRejection_eq db r
  rw [heq]
  exact Retired.foldl_retire hashes hr

theorem Retired.foldl_rejection (rejected : List RejectedFill) (hr : Retired db h) :
    Retired (rejected.foldl (Matcher.applyRejection sigs nowSec minValidNonce fills) db) h := by
  induction rejected generalizing db with
  | nil => exact hr
  | cons r rejected ih => exact ih hr.applyRejection

/-- The orders' hashes are their key. -/
def Keyed (db : Db) : Prop := (db.orders.map (·.orderHash)).Nodup

theorem Keyed.retireOrder {status : OrderStatus} (hk : Keyed db) : Keyed (Matcher.retireOrder db k status) := by
  have hsame : (Matcher.retireOrder db k status).orders.map (·.orderHash) = db.orders.map (·.orderHash) := by
    unfold Matcher.retireOrder
    rw [List.map_map]
    refine List.map_congr_left fun o _ => ?_
    rw [Function.comp_apply]
    split_ifs <;> rfl
  rw [Keyed, hsame]
  exact hk

theorem retireOrder_retires {status : OrderStatus} (hk : Keyed db) (hstatus : status = .cancelled ∨ status = .expired)
    (hlive : Live db h) : Retired (retireOrder db h status) h := by
  obtain ⟨o, ho, rfl, hopen⟩ := hlive
  refine ⟨?_, fun o' ho' hhash => ?_⟩
  · unfold retireOrder
    rw [List.map_map]
    refine List.mem_map.2 ⟨o, ho, ?_⟩
    rw [Function.comp_apply]
    split_ifs <;> rfl
  · obtain ⟨row, hrow, rfl⟩ := List.mem_map.1 ho'
    have hsame : row = o := by
      refine List.inj_on_of_nodup_map hk hrow ho ?_
      split_ifs at hhash with hretired
      · exact hretired.1
      · exact hhash
    rw [hsame, if_pos ⟨rfl, hopen⟩]
    exact hstatus

theorem foldl_retires {status : OrderStatus} (hstatus : status = .cancelled ∨ status = .expired)
    (hashes : List Bytes32) : ∀ db : Db, Keyed db → Live db h ∨ Retired db h → h ∈ hashes ∨ Retired db h →
      Retired (hashes.foldl (fun db orderHash => retireOrder db orderHash status) db) h := by
  induction hashes with
  | nil =>
    intro db _ _ hmem
    exact hmem.resolve_left List.not_mem_nil
  | cons k hashes ih =>
    intro db hk hopen hmem
    rw [List.foldl_cons]
    rcases hopen with hopen | hretired
    · by_cases hhk : h = k
      · subst hhk
        have hretired := retireOrder_retires hk hstatus hopen
        exact ih _ hk.retireOrder (Or.inr hretired) (Or.inr hretired)
      · refine ih _ hk.retireOrder (Or.inl ((retireOrder_live (final_not_tradeable hstatus)).2 ⟨hopen, hhk⟩)) ?_
        rcases hmem with hmem | hretired
        · exact Or.inl ((List.mem_cons.1 hmem).resolve_left hhk)
        · exact Or.inr hretired.retireOrder
    · exact ih _ hk.retireOrder (Or.inr hretired.retireOrder) (Or.inr hretired.retireOrder)

theorem Keyed.foldl_retire {status : OrderStatus} (hashes : List Bytes32) : ∀ db : Db, Keyed db →
    Keyed (hashes.foldl (fun db orderHash => Matcher.retireOrder db orderHash status) db) := by
  induction hashes with
  | nil => exact fun db hk => hk
  | cons k hashes ih => exact fun db hk => ih _ hk.retireOrder

theorem Keyed.applyRejection (hk : Keyed db) : Keyed (Matcher.applyRejection sigs nowSec minValidNonce fills db r) := by
  obtain ⟨hashes, status, -, -, heq⟩ := applyRejection_eq db r
  rw [heq]
  exact Keyed.foldl_retire hashes _ hk

theorem applyRejection_retires (hk : Keyed db) (hopen : Live db h ∨ Retired db h)
    (hblamed : Blamed sigs nowSec minValidNonce fills r h) :
    Retired (applyRejection sigs nowSec minValidNonce fills db r) h := by
  obtain ⟨hashes, status, hstatus, hmem, heq⟩ := applyRejection_eq db r
  rw [heq]
  exact foldl_retires hstatus hashes _ hk hopen (Or.inl ((hmem h).2 hblamed))

theorem foldl_rejection_retires (rejected : List RejectedFill) (hk : Keyed db) (hopen : Live db h ∨ Retired db h)
    (hblamed : ∃ r ∈ rejected, Blamed sigs nowSec minValidNonce fills r h) :
    Retired (rejected.foldl (applyRejection sigs nowSec minValidNonce fills) db) h := by
  induction rejected generalizing db with
  | nil =>
    obtain ⟨r, hr, -⟩ := hblamed
    exact absurd hr List.not_mem_nil
  | cons r rejected ih =>
    rw [List.foldl_cons]
    by_cases hb : Blamed sigs nowSec minValidNonce fills r h
    · exact (applyRejection_retires hk hopen hb).foldl_rejection rejected
    · refine ih hk.applyRejection ?_ ?_
      · rcases hopen with hopen | hretired
        · exact Or.inl (applyRejection_live.2 ⟨hopen, hb⟩)
        · exact Or.inr hretired.applyRejection
      · obtain ⟨r', hr', hb'⟩ := hblamed
        rcases List.mem_cons.1 hr' with rfl | hr'
        · exact absurd hb' hb
        · exact ⟨r', hr', hb'⟩

/-! ## Runs -/

/-- What is written to the orders between two ticks: receipts are applied, the indexer and the intake write, and the other
tables change. -/
inductive Writes : State → State → Prop where
  | receipt (s : State) (sigs : Signatures) (opts : CooldownOptions) (nowSec nowMs : Int) (fills : List PlannedFill)
      (result : BatchResult) : Writes s (applyReceipt sigs opts nowSec nowMs fills result s)
  | settled (s : State) (createdAt : Int) (e : SettledFill) : Writes s { s with db := fillSettled s.db createdAt e }
  | cancelled (s : State) (owner : Address) (nonce : Nat) : Writes s { s with db := orderCancelled s.db owner nonce }
  | cancelledUpTo (s : State) (owner : Address) (minNonce : Nat) :
      Writes s { s with db := noncesCancelledUpTo s.db owner minNonce }
  | inserted (s : State) (o : OrderRow) : Writes s { s with db := insertOrder s.db o }
  | other (s : State) (db : Db) (c : Cooldown) (hdb : db.orders = s.db.orders) : Writes s ⟨db, c⟩

theorem refreshOrders_retired (hr : Retired db h) (hashes : List Bytes32) : Retired (refreshOrders db hashes) h := by
  refine hr.map (fun o => ?_) (fun o ho => ?_) rfl
  · split_ifs <;> rfl
  · split_ifs
    · exact ho
    · exact ho

theorem insertOrder_retired (hr : Retired db h) (o : OrderRow) : Retired (insertOrder db o) h := by
  unfold insertOrder
  split_ifs with hthere
  · exact hr
  · rw [not_or] at hthere
    refine ⟨?_, fun o' ho' hhash => ?_⟩
    · rw [List.map_append]
      exact List.mem_append_left _ hr.1
    · rcases List.mem_append.1 ho' with ho' | ho'
      · exact hr.2 o' ho' hhash
      · rw [List.mem_singleton.1 ho'] at hhash
        exact absurd (hhash ▸ hr.1) hthere.1

/-- **What is retired stays retired.** -/
theorem writes_retired (hr : Retired s.db h) (hw : Writes s s') : Retired s'.db h := by
  cases hw with
  | receipt sigs opts nowSec nowMs fills result => exact hr.foldl_rejection _
  | settled createdAt e =>
    have hfills : Retired { s.db with fills := upsertSettled createdAt e s.db.fills } h := hr
    exact refreshOrders_retired hfills _
  | cancelled owner nonce =>
    refine hr.map (fun o => ?_) (fun o ho => ?_) rfl
    · split_ifs <;> rfl
    · split_ifs
      · exact Or.inl rfl
      · exact ho
  | cancelledUpTo owner minNonce =>
    refine hr.map (fun o => ?_) (fun o ho => ?_) rfl
    · split_ifs <;> rfl
    · split_ifs
      · exact Or.inl rfl
      · exact ho
  | inserted o => exact insertOrder_retired hr o
  | other db c hdb =>
    rw [Retired, hdb]
    exact hr

theorem run_retired (hr : Retired s.db h) (hrun : Relation.ReflTransGen Writes s s') : Retired s'.db h := by
  induction hrun with
  | refl => exact hr
  | tail _ hw ih => exact writes_retired ih hw

/-- **Poison rejections stop the pairs they can blame.** After a receipt a pair with a poison rejection is held back iff one of
its orders was retired, is blamed by a rejection of the receipt, or waits for a retryable one; while it is held back no tick
offers it; and a live order that is blamed is never offered again. -/
theorem poison_stops (sigs : Signatures) (opts : CooldownOptions) (nowSec nowMs : Int) (fills : List PlannedFill)
    (result : BatchResult) (s : State) (hk : Keyed s.db) (r : RejectedFill) (hr : r ∈ result.rejected) (reason : String)
    (status : OrderStatus) (hpoison : r.action = .poison reason status) (f : PlannedFill)
    (hf : byId fills r.fillId = some f) :
    (∀ t, (∃ h, (h = f.makerOrderHash ∨ h = f.takerOrderHash) ∧
        Held (applyReceipt sigs opts nowSec nowMs fills result s) h t) ↔
      ∃ h, (h = f.makerOrderHash ∨ h = f.takerOrderHash) ∧ (¬ Live s.db h ∨
        (∃ r ∈ result.rejected, Blamed sigs nowSec s.db.minValidNonce fills r h) ∨
        Waits opts nowMs fills result s.cooldown h t)) ∧
    (∀ h t nowSec', (h = f.makerOrderHash ∨ h = f.takerOrderHash) →
      Held (applyReceipt sigs opts nowSec nowMs fills result s) h t →
        ¬ Offers opts nowSec' t (applyReceipt sigs opts nowSec nowMs fills result s) f.makerOrderHash f.takerOrderHash) ∧
    ∀ h ∈ blameForPoison sigs nowSec s.db.minValidNonce f reason status, Live s.db h →
      ∀ s', Relation.ReflTransGen Writes (applyReceipt sigs opts nowSec nowMs fills result s) s' →
        ∀ nowSec' t, ¬ Offers opts nowSec' t s' f.makerOrderHash f.takerOrderHash := by
  have hpair : ∀ {s : State} {h : Bytes32} {nowSec t : Int}, (h = f.makerOrderHash ∨ h = f.takerOrderHash) → Held s h t →
      ¬ Offers opts nowSec t s f.makerOrderHash f.takerOrderHash := by
    rintro s h nowSec t (rfl | rfl) hheld
    · exact (not_offers hheld rfl _).1
    · exact (not_offers hheld rfl _).2
  refine ⟨fun t => exists_congr fun h => and_congr_right fun _ => held_iff, fun h t nowSec' => hpair, ?_⟩
  intro h hmem hlive s' hrun nowSec' t
  have hside : h = f.makerOrderHash ∨ h = f.takerOrderHash := by
    obtain ⟨x, hx, rfl⟩ := List.mem_map.1 hmem
    have hx := (List.mem_filter.1 hx).1
    simp only [List.mem_cons, List.not_mem_nil, or_false] at hx
    exact hx.imp (congrArg Prod.fst) (congrArg Prod.fst)
  have hretired : Retired (applyReceipt sigs opts nowSec nowMs fills result s).db h :=
    foldl_rejection_retires _ hk (Or.inl hlive) ⟨r, hr, reason, status, f, hpoison, hf, hmem⟩
  exact hpair hside (Or.inl (run_retired hretired hrun).not_live)

namespace Sample

def ask : Order := ⟨11, 1, false, 10 * 10 ^ 18, 100 * 10 ^ 18, false, 5, 2000, 0⟩

def bid : Order := ⟨12, 1, true, 10 * 10 ^ 18, 100 * 10 ^ 18, false, 7, 9000, 0⟩

def fill : PlannedFill where
  fillId := 3
  maker := ask
  makerSignature := []
  taker := bid
  takerSignature := []
  size := 10 * 10 ^ 18
  price := 100 * 10 ^ 18
  marketId := 1
  makerOrderHash := 1
  takerOrderHash := 2
  takerIsBuy := true
  notional := 1000 * 10 ^ 18

/-- An ask and a bid that cross, and the PENDING fill of the two. -/
def crossed : State where
  db := {
    orders := [⟨1, ask, [], .open_, 0, 1⟩, ⟨2, bid, [], .open_, 0, 2⟩]
    minValidNonce := fun _ => 0
    positions := fun _ => 0
    fills := [pendingRow fill 900000]
    jobs := [] }
  cooldown := fun _ => none

/-- Signatures that all recover to the owner. -/
def signatures : Signatures := ⟨fun _ => 0, fun o _ => some o.owner, none⟩

def rejectedFor (errorName : String) : BatchResult := ⟨[], [⟨3, "0x", some errorName⟩]⟩

/-- The state after the fill is rejected at `nowSec`. -/
def after (errorName : String) (nowSec : Int) : State :=
  applyReceipt signatures DEFAULT_COOLDOWN nowSec (nowSec * 1000) [fill] (rejectedFor errorName) crossed

/-- What a tick matches in the sample's market. -/
def matched (nowSec : Int) (s : State) : List (Bytes32 × Bytes32) :=
  (Matching.matchOrders {
    marketId := 1
    nowSec := nowSec
    orders := tickOrders DEFAULT_COOLDOWN 1 nowSec (nowSec * 1000) s
    positions := fun _ => 0
    minValidNonce := fun _ => 0
    minFillNotional := 10 ^ 18
    acceptPrice := none }).matches_.map fun m => (m.maker.orderHash, m.taker.orderHash)

end Sample

/-- An ask whose expiry has passed is retired, and the pair is not offered again. -/
theorem poison_stops_expired : ¬ Offers DEFAULT_COOLDOWN 2001 2001000 (Sample.after "OrderExpired" 2000) 1 2 := by
  have hstops := poison_stops Sample.signatures DEFAULT_COOLDOWN 2000 (2000 * 1000) [Sample.fill]
    (Sample.rejectedFor "OrderExpired") Sample.crossed (by unfold Keyed; decide) ⟨3, "0x", some "OrderExpired"⟩
    List.mem_cons_self "OrderExpired" .expired (by decide) Sample.fill (by decide)
  exact hstops.2.2 1 (by decide) (by decide) _ Relation.ReflTransGen.refl 2001 2001000

/-- An order whose nonce alone was cancelled is rejected as poison, nobody is blamed, and the next tick offers the pair
again. -/
theorem poison_loops :
    (⟨3, "0x", some "OrderCancelled"⟩ : RejectedFill).action = .poison "OrderCancelled" .cancelled ∧
    ¬ Held (Sample.after "OrderCancelled" 1000) 1 1001000 ∧ ¬ Held (Sample.after "OrderCancelled" 1000) 2 1001000 ∧
    Sample.matched 1001 (Sample.after "OrderCancelled" 1000) = [(1, 2)] := by
  decide +kernel

end Kryon.Matcher
