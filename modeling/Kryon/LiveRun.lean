import Kryon.Rebuild
import Kryon.Lib.Transition
import Mathlib.Data.List.TakeWhile
/-!
# LiveRun — a rebuild against the run that left the tables

A live run interleaves the events of the chain with the intake of orders, with cancels and with what a matcher writes.  A
row that would replay to itself keeps doing so under every writer; what a writer may not do is come late, inserting a row
that stored events have already been about.
-/
namespace Kryon.Projections

open Matcher (OrderRow FillRow SettledFill PlannedFill OrderStatus FillStatus JobId TxJob pendingRow insertPending settledRow)
open Indexer (StoredEvent)
open Transition (Machine Run)

/-! ## The writers -/

/-- The tables, and the events stored. -/
structure State where
  tables : Tables
  events : List (StoredEvent Event)

def State.setDb (s : State) (db : Matcher.Db) : State := { s with tables := { s.tables with db := db } }

/-- Best-effort cancel of one order; the statement is that of `OrderCancelled`. -/
def cancelOrderByNonce (db : Matcher.Db) (owner : Address) (nonce : Nat) : Matcher.Db := Matcher.orderCancelled db owner nonce

/-- Best-effort cancel of every live, unexpired order, optionally in one market. -/
def cancelAllOrders (db : Matcher.Db) (owner : Address) (marketId : Option MarketId) (nowSec : Int) : Matcher.Db :=
  { db with orders := db.orders.map fun o =>
      if o.order.owner = owner ∧ marketId.all (fun m => decide (o.order.marketId = m)) = true ∧ o.status.tradeable = true ∧
          nowSec < (o.order.expiry : Int) then
        { o with status := .cancelled } else o }

inductive Act where
  | index (now : Int) (ev : StoredEvent Event)
  | insertOrder (o : OrderRow)
  | cancelOrderByNonce (owner : Address) (nonce : Nat)
  | cancelAllOrders (owner : Address) (marketId : Option MarketId) (nowSec : Int)
  | retireOrder (orderHash : Bytes32) (status : OrderStatus)
  | persistPendingFills (createdAt : Int) (fills : List PlannedFill)
  | linkFillsToJob (fillIds : List Bytes32) (txJobId : JobId)
  | releasePendingFills (fillIds : List Bytes32)
  | recordRejection (fillId : Bytes32) (reason : String)
  | jobs (jobs : List TxJob)

inductive Step : State → Act → State → Prop where
  -- Windows are committed in order, each log once.
  | index {s : State} {now : Int} {ev : StoredEvent Event} {tables : Tables} (hnew : ∀ e ∈ s.events, e.before ev)
      (happly : applyEvent now s.tables ev = some tables) : Step s (.index now ev) ⟨tables, s.events ++ [ev]⟩
  | insertOrder {s : State} {o : OrderRow} : Step s (.insertOrder o) (s.setDb (Matcher.insertOrder s.tables.db o))
  | cancelOrderByNonce {s : State} {owner : Address} {nonce : Nat} :
      Step s (.cancelOrderByNonce owner nonce) (s.setDb (cancelOrderByNonce s.tables.db owner nonce))
  | cancelAllOrders {s : State} {owner : Address} {marketId : Option MarketId} {nowSec : Int} :
      Step s (.cancelAllOrders owner marketId nowSec) (s.setDb (cancelAllOrders s.tables.db owner marketId nowSec))
  | retireOrder {s : State} {orderHash : Bytes32} {status : OrderStatus} (hstatus : status = .cancelled ∨ status = .expired) :
      Step s (.retireOrder orderHash status) (s.setDb (Matcher.retireOrder s.tables.db orderHash status))
  | persistPendingFills {s : State} {createdAt : Int} {fills : List PlannedFill} :
      Step s (.persistPendingFills createdAt fills) (s.setDb (Matcher.persistPendingFills s.tables.db createdAt fills))
  | linkFillsToJob {s : State} {fillIds : List Bytes32} {txJobId : JobId} :
      Step s (.linkFillsToJob fillIds txJobId) (s.setDb (Matcher.linkFillsToJob s.tables.db fillIds txJobId))
  | releasePendingFills {s : State} {fillIds : List Bytes32} :
      Step s (.releasePendingFills fillIds) (s.setDb (Matcher.releasePendingFills s.tables.db fillIds))
  | recordRejection {s : State} {fillId : Bytes32} {reason : String} :
      Step s (.recordRejection fillId reason) (s.setDb (Matcher.recordRejection s.tables.db fillId reason))
  | jobs {s : State} {jobs : List TxJob} : Step s (.jobs jobs) (s.setDb { s.tables.db with jobs := jobs })

/-- Nothing is indexed and no order is taken yet. -/
structure State.Empty (s : State) : Prop where
  events : s.events = []
  orders : s.tables.db.orders = []
  fills : s.tables.db.fills = []
  positions : s.tables.positions = []
  markets : ∀ m, s.tables.markets m = none
  nonces : ∀ a, s.tables.db.minValidNonce a = 0
  tiers : ∀ a, s.tables.feeTier a = 0
  settlements : ∀ i, (s.tables.settlements i).place = none
  sizes : ∀ k, s.tables.db.positions k = 0

def machine : Machine State Act := ⟨State.Empty, Step⟩

/-! ## Coming late -/

/-- The event decides something of the order. -/
def concerns (o : OrderRow) : Event → Prop
  | .fillSettled fill _ => o.orderHash ∈ [fill.makerOrderHash, fill.takerOrderHash]
  | .orderCancelled owner nonce => o.order.owner = owner ∧ o.order.nonce = nonce
  | .noncesCancelledUpTo owner minNonce => o.order.owner = owner ∧ o.order.nonce < minNonce
  | _ => False

instance (o : OrderRow) : DecidablePred (concerns o)
  | .fillSettled .. => inferInstanceAs (Decidable (_ ∈ _))
  | .orderCancelled .. | .noncesCancelledUpTo .. => inferInstanceAs (Decidable (_ ∧ _))
  | .marketListed .. | .marketParamsSet .. | .marketActiveSet .. | .marketFeesSet .. | .priceUpdated .. | .fundingUpdated ..
  | .positionChanged .. | .fillRejected .. | .feeTierSet .. | .other => inferInstanceAs (Decidable False)

def rejects (fillId : Bytes32) : Event → Prop
  | .fillRejected fillId' _ => fillId' = fillId
  | _ => False

def lists (m : MarketId) : Event → Bool
  | .marketListed marketId _ => decide (marketId = m)
  | _ => false

/-- The event writes to a row of the market under the feed. -/
def writes (m : MarketId) (oracleId : Nat) : Event → Prop
  | .marketParamsSet marketId _ | .marketActiveSet marketId _ | .marketFeesSet marketId _ _ => marketId = m
  | .fundingUpdated marketId _ _ _ _ | .positionChanged _ marketId _ _ _ _ => marketId = m
  | .priceUpdated id _ => id = oracleId
  | _ => False

/-- The events before a market is first listed. -/
def unlisted (m : MarketId) (es : List (StoredEvent Event)) : List (StoredEvent Event) :=
  es.takeWhile fun e => !lists m e.event

/-- A row inserted by the step is one no stored event has been about. -/
def Timely (s : State) : Act → Prop
  | .index _ ev => ∀ m oracleId, ev.event = .marketListed m oracleId → ∀ e ∈ unlisted m s.events, ¬ writes m oracleId e.event
  | .insertOrder o => o.orderHash ∉ s.tables.db.orders.map (·.orderHash) →
      (o.order.owner, o.order.nonce) ∉ s.tables.db.orders.map (fun r => (r.order.owner, r.order.nonce)) →
      ∀ e ∈ s.events, ¬ concerns o e.event
  | .persistPendingFills _ fills => ∀ f ∈ fills, f.fillId ∉ s.tables.db.fills.map (·.fillId) →
      ∀ e ∈ s.events, ¬ rejects f.fillId e.event
  | _ => True

/-! ## Fills that replay to themselves -/

section Rows

/-- What a replay makes of a row: a reason the matcher recorded on a PENDING one is gone. -/
def cleared (r : FillRow) : FillRow := if r.status = .pending then { r with rejectReason := none } else r

variable {es : List (StoredEvent Event)} {c : Context} {ev : StoredEvent Event} {s s' : State} {r : FillRow} {o : OrderRow}
  {fill : SettledFill} {status : OrderStatus}

theorem cleared_of_not_pending (h : r.status ≠ .pending) : cleared r = r := if_neg h

theorem actFill_cleared (c : Context) (ev : StoredEvent Event) (r : FillRow) :
    actFill c ev (cleared r) = cleared (actFill c ev r) := by
  have hcols : (cleared r).fillId = r.fillId ∧ (cleared r).txJobId = r.txJobId ∧ (cleared r).createdAt = r.createdAt ∧
      (cleared r).status = r.status := by
    unfold cleared
    split <;> exact ⟨rfl, rfl, rfl, rfl⟩
  obtain ⟨hid, hjob, hcreated, hstatus⟩ := hcols
  cases hev : ev.event with
  | fillSettled fill fees =>
    simp only [actFill, hev, hid, hjob, hcreated]
    split
    · exact (if_neg FillStatus.noConfusion).symm
    · rfl
  | fillRejected fillId reason =>
    simp only [actFill, hev, hid, hstatus]
    split
    · rw [cleared_of_not_pending (r := { r with status := .rejected, rejectReason := some reason })
        FillStatus.noConfusion]
      unfold cleared
      split <;> rfl
    · rfl
  | _ => simp only [actFill, hev]

theorem actFill_link (txJobId : Option JobId) (c : Context) (ev : StoredEvent Event) (r : FillRow) :
    actFill c ev { r with txJobId := txJobId } = { actFill c ev r with txJobId := txJobId } := by
  cases hev : ev.event with
  | fillSettled fill fees =>
    simp only [actFill, hev]
    split <;> rfl
  | fillRejected fillId reason =>
    simp only [actFill, hev]
    split <;> rfl
  | _ => simp only [actFill, hev]

theorem actFill_columns (c : Context) (ev : StoredEvent Event) (r : FillRow) :
    (actFill c ev r).txJobId = r.txJobId ∧ (actFill c ev r).createdAt = r.createdAt := by
  cases hev : ev.event with
  | fillSettled fill fees =>
    simp only [actFill, hev]
    split <;> exact ⟨rfl, rfl⟩
  | fillRejected fillId reason =>
    simp only [actFill, hev]
    split <;> exact ⟨rfl, rfl⟩
  | _ => simp only [actFill, hev, and_self]

theorem after_columns (es : List (StoredEvent Event)) (r : FillRow) :
    (after actFill es r).txJobId = r.txJobId ∧ (after actFill es r).createdAt = r.createdAt := by
  induction es using List.reverseRecOn with
  | nil => exact ⟨rfl, rfl⟩
  | append_singleton es ev ih =>
    rw [after_snoc]
    exact ⟨(actFill_columns _ _ _).1.trans ih.1, (actFill_columns _ _ _).2.trans ih.2⟩

/-- **A settled fill stays settled.** -/
theorem after_settled {fees : FillFees} (hmem : ev ∈ es) (hev : ev.event = .fillSettled fill fees) (r : FillRow) :
    (after actFill es r).fillId = fill.fillId → (after actFill es r).status = .settled := by
  refine Replay.fold_after (Q := fun r => r.fillId = fill.fillId → r.status = .settled) (fun c ev r hr hid => ?_)
    (fun c r hid => ?_) hmem r
  · rw [actFill_id] at hid
    cases hev : ev.event with
    | fillSettled fill fees =>
      simp only [actFill, hev]
      split
      · rfl
      · exact hr hid
    | fillRejected fillId reason =>
      simp only [actFill, hev]
      rw [if_neg fun h => h.2 (hr hid)]
      exact hr hid
    | _ =>
      simp only [actFill, hev]
      exact hr hid
  · rw [actFill_id] at hid
    simp only [actFill, hev, if_pos hid]
    rfl

theorem fill_settled {fees : FillFees} (hev : ev.event = .fillSettled fill fees) (txJobId : Option JobId) (createdAt : Int) :
    after actFill (es ++ [ev]) (resetFill (settledRow fill txJobId createdAt)) =
      cleared (settledRow fill txJobId createdAt) := by
  obtain ⟨hjob, hcreated⟩ := after_columns es (resetFill (settledRow fill txJobId createdAt))
  rw [after_snoc]
  simp only [actFill, hev, hjob, hcreated]
  exact if_pos (after_fillId es _)

/-- **A fill that replays to itself does so after one event more.** -/
theorem fill_index (h : after actFill es (resetFill r) = cleared r) : after actFill (es ++ [ev])
    (resetFill (actFill (contextOf es) ev r)) = cleared (actFill (contextOf es) ev r) := by
  have hsame : resetFill (actFill (contextOf es) ev r) = resetFill r → after actFill (es ++ [ev])
      (resetFill (actFill (contextOf es) ev r)) = cleared (actFill (contextOf es) ev r) := by
    intro hreset
    rw [hreset, after_snoc, h, actFill_cleared]
  cases hev : ev.event with
  | fillSettled fill fees =>
    by_cases hid : r.fillId = fill.fillId
    · have hact : actFill (contextOf es) ev r = settledRow fill r.txJobId r.createdAt := by
        simp only [actFill, hev]
        exact if_pos hid
      rw [hact]
      exact fill_settled hev _ _
    · refine hsame ?_
      simp only [actFill, hev, if_neg hid]
  | fillRejected fillId reason =>
    refine hsame ?_
    simp only [actFill, hev]
    split <;> rfl
  | _ =>
    refine hsame ?_
    simp only [actFill, hev]

theorem after_pending (f : PlannedFill) (createdAt : Int) (hrejects : ∀ e ∈ es, ¬ rejects f.fillId e.event)
    (hsettles : ∀ e ∈ es, ∀ fill ∈ settles e.event, fill.fillId ≠ f.fillId) :
    after actFill es (resetFill (pendingRow f createdAt)) = cleared (pendingRow f createdAt) := by
  refine Replay.fold_id fun e he c => ?_
  have hr := hrejects e he
  have hs := hsettles e he
  cases hev : e.event with
  | fillSettled fill fees =>
    rw [hev] at hs
    simp only [actFill, hev]
    exact if_neg fun hid => hs fill rfl hid.symm
  | fillRejected fillId reason =>
    rw [hev] at hr
    simp only [actFill, hev]
    exact if_neg fun h => hr h.1.symm
  | _ => simp only [actFill, hev]

/-! ## Orders that replay to themselves -/

/-- An order cancelled or expired stays so, whatever else an event does to it. -/
theorem actOrder_retired (hstatus : status = .cancelled ∨ status = .expired) (c : Context) (ev : StoredEvent Event)
    (o : OrderRow) : actOrder c ev { o with status := status } = { actOrder c ev o with status := status } := by
  have hout : ¬ status.tradeable = true := by
    rcases hstatus with rfl | rfl <;> decide
  cases hev : ev.event with
  | fillSettled fill fees =>
    simp only [actOrder, hev]
    split
    · simp only [refreshed, if_pos hstatus]
    · rfl
  | orderCancelled owner nonce =>
    simp only [actOrder, hev]
    rw [if_neg fun h => hout h.2.2]
    split <;> rfl
  | noncesCancelledUpTo owner minNonce =>
    simp only [actOrder, hev]
    rw [if_neg fun h => hout h.2.2]
    split <;> rfl
  | _ => simp only [actOrder, hev]

theorem after_retired (hstatus : status = .cancelled ∨ status = .expired) (es : List (StoredEvent Event)) (o : OrderRow) :
    after actOrder es { o with status := status } = { after actOrder es o with status := status } :=
  Replay.fold_comm (f := fun o : OrderRow => { o with status := status }) (actOrder_retired hstatus) es o

theorem resetOrder_retired (hstatus : status = .cancelled ∨ status = .expired) (o : OrderRow) :
    resetOrder { o with status := status } = { resetOrder o with status := status } := by
  unfold resetOrder
  rcases hstatus with rfl | rfl <;> simp

/-- An event does not show on a reset order, or it cancels it. -/
theorem resetOrder_actOrder (c : Context) (ev : StoredEvent Event) (o : OrderRow) :
    resetOrder (actOrder c ev o) = resetOrder o ∨ actOrder c ev o = { o with status := .cancelled } := by
  cases hev : ev.event with
  | fillSettled fill fees =>
    simp only [actOrder, hev]
    left
    split
    · unfold resetOrder refreshed
      cases hstatus : o.status <;> simp <;> split_ifs <;> simp_all
    · rfl
  | orderCancelled owner nonce =>
    simp only [actOrder, hev]
    split
    · exact .inr rfl
    · exact .inl rfl
  | noncesCancelledUpTo owner minNonce =>
    simp only [actOrder, hev]
    split
    · exact .inr rfl
    · exact .inl rfl
  | _ => exact .inl (by simp only [actOrder, hev])

/-- **An order that replays to itself does so after one event more.** -/
theorem order_index (h : after actOrder es (resetOrder o) = o) : after actOrder (es ++ [ev])
    (resetOrder (actOrder (contextOf es) ev o)) = actOrder (contextOf es) ev o := by
  obtain hreset | hcancel := resetOrder_actOrder (contextOf es) ev o
  · rw [hreset, after_snoc, h]
  · rw [hcancel, resetOrder_retired (.inl rfl), after_retired (.inl rfl), after_snoc, h, hcancel]

theorem order_retired (hstatus : status = .cancelled ∨ status = .expired) (h : after actOrder es (resetOrder o) = o) :
    after actOrder es (resetOrder { o with status := status }) = { o with status := status } := by
  rw [resetOrder_retired hstatus, after_retired hstatus, h]

theorem after_inserted (h : ∀ e ∈ es, ¬ concerns o e.event) :
    after actOrder es (resetOrder { o with status := .open_, filledSize := 0 }) =
      { o with status := .open_, filledSize := 0 } := by
  refine Replay.fold_id fun e he c => ?_
  have hno := h e he
  cases hev : e.event with
  | fillSettled fill fees =>
    rw [hev] at hno
    simp only [actOrder, hev]
    exact if_neg hno
  | orderCancelled owner nonce =>
    rw [hev] at hno
    simp only [actOrder, hev]
    exact if_neg fun h => hno ⟨h.1, h.2.1⟩
  | noncesCancelledUpTo owner minNonce =>
    rw [hev] at hno
    simp only [actOrder, hev]
    exact if_neg fun h => hno ⟨h.1, h.2.1⟩
  | _ => simp only [actOrder, hev]

/-! ## Markets that replay to themselves -/

section Markets
variable {m : MarketId} {oracleId : Nat} {row : MarketRow}

/-- No event before the first listing of a market writes to its row under a feed it is ever listed with. -/
def Clean (es : List (StoredEvent Event)) : Prop :=
  ∀ m oracleId, (∃ ev ∈ es, ev.event = .marketListed m oracleId) → ∀ e ∈ unlisted m es, ¬ writes m oracleId e.event

theorem unlisted_append (m : MarketId) (es : List (StoredEvent Event)) (ev : StoredEvent Event) :
    unlisted m (es ++ [ev]) = if (∀ e ∈ es, lists m e.event = false) ∧ lists m ev.event = false then es ++ [ev]
      else unlisted m es := by
  unfold unlisted
  by_cases hes : ∀ e ∈ es, lists m e.event = false
  · have hall : ∀ e ∈ es, (!lists m e.event) = true := fun e he => by rw [hes e he]; rfl
    rw [List.takeWhile_append_of_pos hall]
    cases hev : lists m ev.event with
    | true => simp [hev, List.takeWhile_eq_self_iff.2 hall]
    | false =>
      rw [if_pos ⟨hes, rfl⟩]
      simp [hev]
  · rw [if_neg fun h => hes h.1, List.takeWhile_append, if_neg]
    intro hlen
    have heq := (List.takeWhile_prefix fun e : StoredEvent Event => !lists m e.event).eq_of_length hlen
    refine hes fun e he => ?_
    have hkept := List.takeWhile_eq_self_iff.1 heq e he
    simpa using hkept

theorem unlisted_subset {e : StoredEvent Event} (he : e ∈ unlisted m es) : e ∈ unlisted m (es ++ [ev]) := by
  rw [unlisted_append]
  split
  · exact List.mem_append_left _ ((List.takeWhile_prefix _).subset he)
  · exact he

theorem Clean.snoc (h : Clean es) (hnew : ∀ m oracleId, ev.event = .marketListed m oracleId →
    ∀ e ∈ unlisted m es, ¬ writes m oracleId e.event) : Clean (es ++ [ev]) := by
  rintro m oracleId ⟨e, he, hlisted⟩
  have hlists : lists m e.event = true := by
    rw [hlisted]
    exact decide_eq_true rfl
  rw [unlisted_append, if_neg]
  · obtain he | he := List.mem_append.1 he
    · exact h m oracleId ⟨e, he, hlisted⟩
    · rw [List.mem_singleton.1 he] at hlisted
      exact hnew m oracleId hlisted
  · rintro ⟨hes, hev⟩
    obtain he | he := List.mem_append.1 he
    · rw [hes e he] at hlists
      cases hlists
    · rw [List.mem_singleton.1 he, hev] at hlists
      cases hlists

theorem writeMarket_id (h : ¬ writes m row.oracleId ev.event) : writeMarket c ev m row = row := by
  unfold writeMarket
  cases hev : ev.event <;> rw [hev] at h <;> simp only [writes] at h <;> simp [h, Ne.symm h]

theorem writeMarket_oracleId : (writeMarket c ev m row).oracleId = row.oracleId := by
  unfold writeMarket
  split <;> first | rfl | (split <;> rfl)

theorem actMarket_unlisted (h : lists m ev.event = false) (r : Option MarketRow) :
    actMarket m c ev r = r.map (writeMarket c ev m) := by
  cases hev : ev.event with
  | marketListed marketId oracleId =>
    have hm : marketId ≠ m := by
      rw [hev] at h
      exact of_decide_eq_false h
    have hid : writeMarket c ev m = id := by
      funext row
      simp only [writeMarket, hev, id]
    simp only [actMarket, hev, if_neg hm, hid, Option.map_id, id]
  | _ => simp only [actMarket, hev]

theorem lists_of_none : ∀ {es : List (StoredEvent Event)}, after (actMarket m) es none = none →
    ∀ e ∈ es, lists m e.event = false := by
  intro es
  induction es using List.reverseRecOn with
  | nil => exact fun _ e he => absurd he List.not_mem_nil
  | append_singleton es ev ih =>
    intro h e he
    rw [after_snoc] at h
    have hnone : after (actMarket m) es none = none := by
      by_contra hrow
      have hsome : (actMarket m (contextOf es) ev (after (actMarket m) es none)).isSome = true :=
        actMarket_isSome (Option.isSome_iff_ne_none.2 hrow)
      rw [h] at hsome
      cases hsome
    obtain he | he := List.mem_append.1 he
    · exact ih hnone e he
    · rw [List.mem_singleton.1 he]
      cases hev : ev.event with
      | marketListed marketId oracleId =>
        simp only [actMarket, hev] at h
        refine decide_eq_false fun hm => ?_
        rw [if_pos hm] at h
        cases h
      | _ => rfl

theorem listed_of_some : ∀ {es : List (StoredEvent Event)} {row : MarketRow}, after (actMarket m) es none = some row →
    ∃ ev ∈ es, ev.event = .marketListed m row.oracleId := by
  intro es
  induction es using List.reverseRecOn with
  | nil => exact fun h => (by cases h)
  | append_singleton es ev ih =>
    intro row h
    rw [after_snoc] at h
    cases hlists : lists m ev.event with
    | true =>
      cases hev : ev.event with
      | marketListed marketId oracleId =>
        rw [hev] at hlists
        obtain rfl := of_decide_eq_true hlists
        simp only [actMarket, hev, if_true, Option.some.injEq] at h
        refine ⟨ev, List.mem_append_right _ (List.mem_singleton_self ev), ?_⟩
        rw [hev, ← h]
        cases after (actMarket marketId) es none <;> rfl
      | _ =>
        rw [hev] at hlists
        cases hlists
    | false =>
      rw [actMarket_unlisted hlists, Option.map_eq_some_iff] at h
      obtain ⟨row', hrow', rfl⟩ := h
      obtain ⟨e, he, hlisted⟩ := ih hrow'
      exact ⟨e, List.mem_append_left _ he, by rw [hlisted, writeMarket_oracleId]⟩

/-- **A row there from the start ends as one inserted by the listing**, if nothing was written to it before. -/
theorem after_fresh : ∀ {es : List (StoredEvent Event)}, (∀ e ∈ unlisted m es, ¬ writes m oracleId e.event) →
    after (actMarket m) es (some (MarketRow.fresh oracleId)) =
      some ((after (actMarket m) es none).getD (MarketRow.fresh oracleId)) := by
  intro es
  induction es using List.reverseRecOn with
  | nil => exact fun _ => rfl
  | append_singleton es ev ih =>
    intro h
    rw [after_snoc, after_snoc, ih fun e he => h e (unlisted_subset he)]
    cases hrow : after (actMarket m) es none with
    | some row =>
      have hsome : (actMarket m (contextOf es) ev (some row)).isSome = true := actMarket_isSome rfl
      obtain ⟨row', hrow'⟩ := Option.isSome_iff_exists.1 hsome
      rw [Option.getD_some, hrow', Option.getD_some]
    | none =>
      rw [Option.getD_none]
      cases hlists : lists m ev.event with
      | true =>
        cases hev : ev.event with
        | marketListed marketId oracleId' =>
          rw [hev] at hlists
          obtain rfl := of_decide_eq_true hlists
          simp only [actMarket, hev, if_true]
          rfl
        | _ =>
          rw [hev] at hlists
          cases hlists
      | false =>
        have hmem : ev ∈ unlisted m (es ++ [ev]) := by
          rw [unlisted_append, if_pos ⟨lists_of_none hrow, hlists⟩]
          exact List.mem_append_right _ (List.mem_singleton_self ev)
        rw [actMarket_unlisted hlists, actMarket_unlisted hlists, Option.map_some, Option.map_none, Option.getD_none,
          writeMarket_id (h ev hmem)]

end Markets

theorem after_settlement (i : Bytes32) (es : List (StoredEvent Event)) :
    (∀ a b, after (actSettlement i) es a = after (actSettlement i) es b) ∨ ∀ a, after (actSettlement i) es a = a := by
  induction es using List.reverseRecOn with
  | nil => exact .inr fun _ => rfl
  | append_singleton es ev ih =>
    simp only [after_snoc]
    cases hev : ev.event with
    | fillSettled fill fees =>
      simp only [actSettlement, hev]
      by_cases hi : fill.fillId = i
      · exact .inl fun _ _ => by rw [if_pos hi, if_pos hi]
      · simp only [if_neg hi]
        exact ih
    | _ =>
      simp only [actSettlement, hev]
      exact ih

/-! ## The invariant -/

/-- Every row replays to itself. -/
structure Live (s : State) : Prop where
  inOrder : InOrder s.events
  clean : Clean s.events
  holds : Holds (contextOf s.events) s.tables
  /-- Settled fills are recorded. -/
  recorded : ∀ ev ∈ s.events, ∀ fill ∈ settles ev.event, fill.fillId ∈ s.tables.db.fills.map (·.fillId)
  /-- Markets rows refer to are listed. -/
  present : ∀ ev ∈ s.events, ∀ m ∈ references ev.event, (s.tables.markets m).isSome = true
  fills : ∀ r ∈ s.tables.db.fills, after actFill s.events (resetFill r) = cleared r
  orders : ∀ o ∈ s.tables.db.orders, after actOrder s.events (resetOrder o) = o
  markets : ∀ m, s.tables.markets m = after (actMarket m) s.events none
  nonces : ∀ a, s.tables.db.minValidNonce a = after (actNonce a) s.events 0
  tiers : ∀ a, s.tables.feeTier a = after (actTier a) s.events 0
  settlements : ∀ i, ∃ start, start.place = none ∧ s.tables.settlements i = after (actSettlement i) s.events start
  sizes : ∀ k, s.tables.db.positions k = after (actSize k) s.events 0

theorem State.Empty.live (h : s.Empty) : Live s := by
  have hnone : ∀ e, e ∉ s.events := fun e he => by
    rw [h.events] at he
    exact List.not_mem_nil he
  refine ⟨?_, ?_, ⟨?_, ?_, ?_⟩, fun e he => absurd he (hnone e), fun e he => absurd he (hnone e), ?_, ?_, ?_, ?_, ?_, ?_, ?_⟩
  · rw [h.events]
    exact List.Pairwise.nil
  · exact fun m oracleId ⟨e, he, _⟩ => absurd he (hnone e)
  · rw [h.fills]
    exact List.nodup_nil
  · rw [h.fills, h.events]
    exact List.Perm.nil
  · rw [h.positions, h.events]
    rfl
  · rw [h.fills]
    exact fun r hr => absurd hr List.not_mem_nil
  · rw [h.orders]
    exact fun o ho => absurd ho List.not_mem_nil
  all_goals rw [h.events]
  · exact h.markets
  · exact h.nonces
  · exact h.tiers
  · exact fun i => ⟨_, h.settlements i, rfl⟩
  · exact h.sizes

/-- Fills a writer may leave: each under its id, those settled as they were, every row replaying to itself. -/
structure Writes (s : State) (rows : List FillRow) : Prop where
  ids : (rows.map (·.fillId)).Nodup
  settled : settledTerms rows = settledTerms s.tables.db.fills
  recorded : ∀ ev ∈ s.events, ∀ fill ∈ settles ev.event, fill.fillId ∈ rows.map (·.fillId)
  fills : ∀ r ∈ rows, after actFill s.events (resetFill r) = cleared r

theorem Live.writes (h : Live s) : Writes s s.tables.db.fills := ⟨h.holds.ids, rfl, h.recorded, h.fills⟩

/-- **What a writer of orders, fills and jobs may leave.** -/
theorem Live.setDb (h : Live s) {db : Matcher.Db} (hfills : Writes s db.fills)
    (horders : ∀ o ∈ db.orders, after actOrder s.events (resetOrder o) = o)
    (hnonces : db.minValidNonce = s.tables.db.minValidNonce) (hsizes : db.positions = s.tables.db.positions) :
    Live (s.setDb db) where
  inOrder := h.inOrder
  clean := h.clean
  holds := ⟨hfills.ids, (List.Perm.of_eq hfills.settled).trans h.holds.settled, h.holds.positions⟩
  recorded := hfills.recorded
  present := h.present
  fills := hfills.fills
  orders := horders
  markets := h.markets
  nonces a := (congrFun hnonces a).trans (h.nonces a)
  tiers := h.tiers
  settlements := h.settlements
  sizes k := (congrFun hsizes k).trans (h.sizes k)

theorem Live.setOrders (h : Live s) {orders : List OrderRow} (horders : ∀ o ∈ orders, after actOrder s.events (resetOrder o) = o) :
    Live (s.setDb { s.tables.db with orders := orders }) := h.setDb h.writes horders rfl rfl

theorem Live.setFills (h : Live s) {rows : List FillRow} (hrows : Writes s rows) :
    Live (s.setDb { s.tables.db with fills := rows }) := h.setDb hrows h.orders rfl rfl

theorem Live.retire (h : Live s) (hstatus : status = .cancelled ∨ status = .expired) (p : OrderRow → Prop) [DecidablePred p] :
    Live (s.setDb { s.tables.db with
      orders := s.tables.db.orders.map fun o => if p o then { o with status := status } else o }) := by
  refine h.setOrders fun o ho => ?_
  obtain ⟨o', ho', rfl⟩ := List.mem_map.1 ho
  split
  · exact order_retired hstatus (h.orders o' ho')
  · exact h.orders o' ho'

theorem Live.insertOrder (h : Live s) (htimely : Timely s (.insertOrder o)) :
    Live (s.setDb (Matcher.insertOrder s.tables.db o)) := by
  unfold Matcher.insertOrder
  split
  · exact h
  · rename_i hnew
    rw [not_or] at hnew
    refine h.setOrders fun o' ho' => ?_
    obtain ho' | ho' := List.mem_append.1 ho'
    · exact h.orders o' ho'
    · rw [List.mem_singleton.1 ho']
      exact after_inserted (htimely hnew.1 hnew.2)

theorem Writes.insert {rows : List FillRow} (h : Writes s rows) (createdAt : Int) (f : PlannedFill)
    (hrejects : f.fillId ∉ rows.map (·.fillId) → ∀ e ∈ s.events, ¬ rejects f.fillId e.event) :
    Writes s (insertPending createdAt rows f) := by
  unfold Matcher.insertPending
  split
  · exact h
  · rename_i hnew
    refine ⟨?_, ?_, fun ev hev fill hfill => ?_, fun r hr => ?_⟩
    · rw [List.map_append]
      exact h.ids.append (List.nodup_singleton _) (List.disjoint_singleton.2 hnew)
    · rw [settledTerms_append, h.settled]
      exact List.append_nil _
    · rw [List.map_append]
      exact List.mem_append_left _ (h.recorded ev hev fill hfill)
    · obtain hr | hr := List.mem_append.1 hr
      · exact h.fills r hr
      · rw [List.mem_singleton.1 hr]
        refine after_pending f createdAt (hrejects hnew) fun e he fill hfill hid => hnew ?_
        rw [← hid]
        exact h.recorded e he fill hfill

theorem Writes.persistPending (createdAt : Int) : ∀ (fills : List PlannedFill) {rows : List FillRow}, Writes s rows →
    (∀ f ∈ fills, f.fillId ∉ rows.map (·.fillId) → ∀ e ∈ s.events, ¬ rejects f.fillId e.event) →
    Writes s (fills.foldl (insertPending createdAt) rows)
  | [], _, h, _ => h
  | f :: fills, rows, h, hrejects => by
    have hkept : ∀ i, i ∉ (insertPending createdAt rows f).map (·.fillId) → i ∉ rows.map (·.fillId) := by
      intro i hi hmem
      unfold Matcher.insertPending at hi
      split at hi
      · exact hi hmem
      · rw [List.map_append] at hi
        exact hi (List.mem_append_left _ hmem)
    exact Writes.persistPending createdAt fills (h.insert createdAt f (hrejects f List.mem_cons_self))
      fun f' hf' hnew => hrejects f' (List.mem_cons_of_mem _ hf') (hkept _ hnew)

theorem Live.mapFills (h : Live s) {g : FillRow → FillRow} (hid : ∀ r, (g r).fillId = r.fillId)
    (hstatus : ∀ r, (g r).status = r.status) (hterms : ∀ r, terms (g r) = terms r)
    (hreplay : ∀ r, after actFill s.events (resetFill r) = cleared r →
      after actFill s.events (resetFill (g r)) = cleared (g r)) :
    Live (s.setDb { s.tables.db with fills := s.tables.db.fills.map g }) := by
  have hids : (s.tables.db.fills.map g).map (·.fillId) = s.tables.db.fills.map (·.fillId) := by
    rw [List.map_map]
    exact List.map_congr_left fun r _ => hid r
  refine h.setFills ⟨?_, ?_, ?_, fun r hr => ?_⟩
  · rw [hids]
    exact h.holds.ids
  · exact settledTerms_map (fun r _ => by rw [hstatus]) fun r _ _ => hterms r
  · rw [hids]
    exact h.recorded
  · obtain ⟨r', hr', rfl⟩ := List.mem_map.1 hr
    exact hreplay r' (h.fills r' hr')

theorem Live.link (h : Live s) (fillIds : List Bytes32) (txJobId : JobId) :
    Live (s.setDb (Matcher.linkFillsToJob s.tables.db fillIds txJobId)) := by
  refine h.mapFills (fun r => ?_) (fun r => ?_) (fun r => ?_) fun r hr => ?_
  · split <;> rfl
  · split <;> rfl
  · split <;> rfl
  · split
    · rename_i hp
      have hcomm : after actFill s.events { resetFill r with txJobId := some txJobId } =
          { after actFill s.events (resetFill r) with txJobId := some txJobId } :=
        Replay.fold_comm (f := fun r : FillRow => { r with txJobId := some txJobId }) (actFill_link (some txJobId)) _ _
      change after actFill s.events { resetFill r with txJobId := some txJobId } = _
      rw [hcomm, hr]
      unfold cleared
      rw [if_pos hp.2, if_pos hp.2]
    · exact hr

theorem Live.recordRejection (h : Live s) (fillId : Bytes32) (reason : String) :
    Live (s.setDb (Matcher.recordRejection s.tables.db fillId reason)) := by
  refine h.mapFills (fun r => ?_) (fun r => ?_) (fun r => ?_) fun r hr => ?_
  · split <;> rfl
  · split <;> rfl
  · split <;> rfl
  · split
    · rename_i hp
      refine Eq.trans hr ?_
      unfold cleared
      rw [if_pos hp.2, if_pos hp.2]
    · exact hr

theorem Live.release (h : Live s) (fillIds : List Bytes32) :
    Live (s.setDb (Matcher.releasePendingFills s.tables.db fillIds)) := by
  refine h.setFills ⟨?_, ?_, fun ev hev fill hfill => ?_, fun r hr => h.fills r (List.mem_filter.1 hr).1⟩
  · exact h.holds.ids.sublist (List.filter_sublist.map _)
  · unfold settledTerms
    rw [List.filter_filter]
    congr 1
    refine List.filter_congr fun r _ => ?_
    cases r.status <;> simp
  · obtain ⟨r, hr, hid⟩ := List.mem_map.1 (h.recorded ev hev fill hfill)
    have hsettled : r.status = .settled := by
      cases hevent : ev.event with
      | fillSettled fill' fees =>
        rw [hevent] at hfill
        obtain rfl : fill' = fill := Option.some.inj hfill
        have hstay := after_settled hev hevent (resetFill r)
        rw [h.fills r hr] at hstay
        unfold cleared at hstay
        split at hstay
        · rename_i hp
          have hs : r.status = .settled := hstay hid
          rw [hs] at hp
          cases hp
        · exact hstay hid
      | _ =>
        rw [hevent] at hfill
        cases hfill
    refine List.mem_map.2 ⟨r, List.mem_filter.2 ⟨hr, ?_⟩, hid⟩
    simp [hsettled]

theorem mem_project_fills {now : Int} {t : Tables} (hr : r ∈ (project now t ev).db.fills) :
    (∃ r' ∈ t.db.fills, r = actFill c ev r') ∨ ∃ fill fees, ev.event = .fillSettled fill fees ∧
      r = settledRow fill none now := by
  rw [project_fills now c] at hr
  cases hev : ev.event with
  | fillSettled fill fees =>
    rw [hev] at hr
    change r ∈ Matcher.upsertSettled now fill t.db.fills at hr
    by_cases hmem : fill.fillId ∈ t.db.fills.map (·.fillId)
    · rw [upsertSettled_map now c hev hmem] at hr
      obtain ⟨r', hr', rfl⟩ := List.mem_map.1 hr
      exact .inl ⟨r', hr', rfl⟩
    · rw [Matcher.upsertSettled, if_neg hmem] at hr
      obtain hr | hr := List.mem_append.1 hr
      · refine .inl ⟨r, hr, ?_⟩
        simp only [actFill, hev]
        exact (if_neg fun hid => hmem (List.mem_map.2 ⟨r, hr, hid⟩)).symm
      · exact .inr ⟨fill, fees, rfl, List.mem_singleton.1 hr⟩
  | _ =>
    rw [hev] at hr
    obtain ⟨r', hr', rfl⟩ := List.mem_map.1 hr
    exact .inl ⟨r', hr', rfl⟩

theorem project_recorded {now : Int} {t : Tables} {i : Bytes32}
    (h : i ∈ t.db.fills.map (·.fillId) ∨ ∃ fill ∈ settles ev.event, fill.fillId = i) :
    i ∈ (project now t ev).db.fills.map (·.fillId) := by
  rw [project_fills now Context.empty]
  have hkept : i ∈ t.db.fills.map (·.fillId) → i ∈ (t.db.fills.map (actFill Context.empty ev)).map (·.fillId) := by
    intro hi
    obtain ⟨r, hr, rfl⟩ := List.mem_map.1 hi
    exact List.mem_map.2 ⟨_, List.mem_map_of_mem hr, actFill_id r⟩
  cases hev : ev.event with
  | fillSettled fill fees =>
    rw [hev] at h
    change i ∈ (Matcher.upsertSettled now fill t.db.fills).map (·.fillId)
    by_cases hmem : fill.fillId ∈ t.db.fills.map (·.fillId)
    · rw [upsertSettled_map now Context.empty hev hmem]
      obtain hi | ⟨fill', hfill', rfl⟩ := h
      · exact hkept hi
      · obtain rfl : fill = fill' := Option.some.inj hfill'
        exact hkept hmem
    · rw [Matcher.upsertSettled, if_neg hmem, List.map_append]
      obtain hi | ⟨fill', hfill', rfl⟩ := h
      · exact List.mem_append_left _ hi
      · obtain rfl : fill = fill' := Option.some.inj hfill'
        exact List.mem_append_right _ List.mem_cons_self
  | _ =>
    rw [hev] at h
    obtain hi | ⟨fill', hfill', -⟩ := h
    · exact hkept hi
    · cases hfill'

/-- **An event keeps every row replaying to itself.** -/
theorem Live.index (h : Live s) {now : Int} {tables : Tables} (hnew : ∀ e ∈ s.events, e.before ev)
    (htimely : Timely s (.index now ev)) (happly : applyEvent now s.tables ev = some tables) :
    Live ⟨tables, s.events ++ [ev]⟩ := by
  unfold applyEvent at happly
  split at happly
  · rename_i hrefs
    cases happly
    refine ⟨?_, h.clean.snoc htimely, ?_, ?_, ?_, ?_, ?_, fun m => ?_, fun a => ?_, fun a => ?_, fun i => ?_, fun k => ?_⟩
    · refine List.pairwise_append.2 ⟨h.inOrder, List.pairwise_singleton _ _, fun e he e' he' => ?_⟩
      rw [List.mem_singleton.1 he']
      exact hnew e he
    · rw [contextOf_snoc]
      exact holds_project h.holds now ev
    · intro e he fill hfill
      obtain he | he := List.mem_append.1 he
      · exact project_recorded (.inl (h.recorded e he fill hfill))
      · rw [List.mem_singleton.1 he] at hfill
        exact project_recorded (.inr ⟨fill, hfill, rfl⟩)
    · intro e he m hm
      rw [project_markets now h.holds]
      refine actMarket_isSome ?_
      obtain he | he := List.mem_append.1 he
      · exact h.present e he m hm
      · rw [List.mem_singleton.1 he] at hm
        rw [hm, Option.all_some] at hrefs
        exact hrefs
    · intro r hr
      obtain ⟨r', hr', rfl⟩ | ⟨fill, fees, hev, rfl⟩ := mem_project_fills (c := contextOf s.events) hr
      · exact fill_index (h.fills r' hr')
      · exact fill_settled hev none now
    · intro o ho
      rw [project_orders now h.holds] at ho
      obtain ⟨o', ho', rfl⟩ := List.mem_map.1 ho
      exact order_index (h.orders o' ho')
    · rw [project_markets now h.holds, h.markets, after_snoc]
    · rw [project_nonces now (contextOf s.events), h.nonces, after_snoc]
    · rw [project_tiers now (contextOf s.events), h.tiers, after_snoc]
    · obtain ⟨start, hplace, hsettlement⟩ := h.settlements i
      exact ⟨start, hplace, by rw [project_settlements now (contextOf s.events), hsettlement, after_snoc]⟩
    · rw [project_sizes now h.holds, h.sizes, after_snoc]
  · cases happly

/-- **Every timely step keeps every row replaying to itself.** -/
theorem Live.step {l : Act} (h : Live s) (htimely : Timely s l) (hstep : Step s l s') : Live s' := by
  cases hstep with
  | index hnew happly => exact h.index hnew htimely happly
  | insertOrder => exact h.insertOrder htimely
  | cancelOrderByNonce => exact h.retire (.inl rfl) _
  | cancelAllOrders => exact h.retire (.inl rfl) _
  | retireOrder hstatus => exact h.retire hstatus _
  | persistPendingFills => exact h.setFills (h.writes.persistPending _ _ htimely)
  | linkFillsToJob => exact h.link _ _
  | releasePendingFills => exact h.release _
  | recordRejection => exact h.recordRejection _ _
  | jobs => exact h.setDb h.writes h.orders rfl rfl

theorem live_run {s₀ : State} {ls : List Act} (h₀ : machine.init s₀) (h : Run (machine.restrict Timely) s₀ ls s) : Live s :=
  Run.preserves (M := machine.restrict Timely) Live (fun _ _ _ hl hstep => hl.step hstep.1 hstep.2) h (State.Empty.live h₀)

/-! ## A rebuild -/

attribute [ext] Matcher.Db Tables

/-- The tables without the reasons recorded on PENDING fills. -/
def Tables.cleared (t : Tables) : Tables := { t with db := { t.db with fills := t.db.fills.map Projections.cleared } }

theorem holds_reset {t : Tables} (h : Holds c t) : Holds Context.empty (resetProjections t) where
  ids := by
    change ((t.db.fills.map resetFill).map (·.fillId)).Nodup
    rw [List.map_map]
    exact h.ids
  settled := by
    have hnone : settledTerms (t.db.fills.map resetFill) = [] := by
      unfold settledTerms
      rw [List.filter_eq_nil_iff.2, List.map_nil]
      intro r hr
      obtain ⟨r', -, rfl⟩ := List.mem_map.1 hr
      exact decide_eq_true_iff.not.2 FillStatus.noConfusion
    exact List.Perm.of_eq hnone
  positions := rfl

/-- **A rebuild leaves the tables it found**, less the reasons recorded on PENDING fills. -/
theorem Live.rebuild (h : Live s) (now : Int) {batchSize : Nat} (hbatch : 0 < batchSize) :
    rebuild now batchSize s.events s.tables = some s.tables.cleared := by
  have hids : ∀ ev ∈ s.events, ∀ fill ∈ settles ev.event,
      fill.fillId ∈ (resetProjections s.tables).db.fills.map (·.fillId) := by
    intro ev hev fill hfill
    change fill.fillId ∈ (s.tables.db.fills.map resetFill).map (·.fillId)
    rw [List.map_map]
    exact h.recorded ev hev fill hfill
  have hrefs : ∀ ev ∈ s.events, ∀ m ∈ references ev.event, ((resetProjections s.tables).markets m).isSome = true := by
    intro ev hev m hm
    exact (Option.isSome_map ..).trans (h.present ev hev m hm)
  obtain ⟨t, hfold, ht⟩ := replay_all now (holds_reset h.holds) s.events hids hrefs
  have hpages := replay_pages now hbatch (s.events.length + 1) [] s.events (resetProjections s.tables) h.inOrder
    (Nat.lt_succ_self _)
  refine hpages.trans (hfold.trans (congrArg some ?_))
  refine Tables.ext (Matcher.Db.ext ?_ ?_ ?_ ?_ ?_) ?_ ?_ ?_ ?_
  · exact ht.orders.trans ((List.map_map ..).trans (map_self fun o ho => h.orders o ho))
  · funext a
    exact (ht.nonces a).trans (h.nonces a).symm
  · funext k
    exact (ht.sizes k).trans (h.sizes k).symm
  · exact ht.fills.trans ((List.map_map ..).trans (List.map_congr_left fun r hr => h.fills r hr))
  · exact ht.jobs
  · funext i
    obtain ⟨start, hplace, hsettlement⟩ := h.settlements i
    refine (ht.settlements i).trans ?_
    change after (actSettlement i) s.events { s.tables.settlements i with place := none } = s.tables.settlements i
    rw [hsettlement]
    obtain hsame | hid := after_settlement i s.events
    · exact hsame _ _
    · rw [hid, hid, ← hplace]
  · funext a
    exact (ht.tiers a).trans (h.tiers a).symm
  · exact ht.holds.positions.trans h.holds.positions.symm
  · funext m
    refine (ht.markets m).trans ?_
    change after (actMarket m) s.events ((s.tables.markets m).map fun row => MarketRow.fresh row.oracleId) =
      s.tables.markets m
    rw [h.markets m]
    cases hrow : after (actMarket m) s.events none with
    | none => exact hrow
    | some row => rw [Option.map_some, after_fresh (h.clean m row.oracleId (listed_of_some hrow)), hrow, Option.getD_some]

theorem cleared_eq_self {t : Tables} : t.cleared = t ↔
    ∀ r ∈ t.db.fills, r.status = .pending → r.rejectReason = none := by
  have hrow : ∀ r : FillRow, cleared r = r ↔ (r.status = .pending → r.rejectReason = none) := by
    intro r
    unfold cleared
    split
    · rename_i hp
      rw [forall_prop_of_true hp]
      exact ⟨fun h => (congrArg FillRow.rejectReason h).symm, fun h => by rw [← h]⟩
    · rename_i hp
      exact ⟨fun _ h => absurd h hp, fun _ => rfl⟩
  constructor
  · intro h r hr
    have hfills : t.db.fills.map cleared = t.db.fills := congrArg (fun t : Tables => t.db.fills) h
    have hall : t.db.fills.map cleared = t.db.fills.map id := hfills.trans (List.map_id _).symm
    exact (hrow r).1 (List.map_inj_left.1 hall r hr)
  · intro h
    unfold Tables.cleared
    rw [map_self fun r hr => (hrow r).2 (h r hr)]

/-- **A rebuild reproduces the live tables** exactly if no PENDING fill carries a reason, in every run of timely steps. -/
theorem rebuild_reproduces {s₀ : State} {ls : List Act} (h₀ : machine.init s₀) (h : Run (machine.restrict Timely) s₀ ls s)
    (now : Int) {batchSize : Nat} (hbatch : 0 < batchSize) :
    rebuild now batchSize s.events s.tables = some s.tables ↔
      ∀ r ∈ s.tables.db.fills, r.status = .pending → r.rejectReason = none := by
  rw [(live_run h₀ h).rebuild now hbatch, Option.some.injEq]
  exact cleared_eq_self

end Rows

namespace Sample

def start : State where
  tables := ⟨⟨[], fun _ => 0, fun _ => 0, [], []⟩, fun _ => ⟨⟨0, 0, 0, 0⟩, none⟩, fun _ => 0, [], fun _ => none⟩
  events := []

theorem start_empty : start.Empty :=
  ⟨rfl, rfl, rfl, rfl, fun _ => rfl, fun _ => rfl, fun _ => rfl, fun _ => rfl, fun _ => rfl⟩

def stored (blockNumber logIndex : Nat) (event : Event) : StoredEvent Event :=
  ⟨blockNumber, 0, 0, Fin.ofNat (2 ^ 256) blockNumber, logIndex, 0, 0, event⟩

/-- The order of an owner at nonce 1, 10 units at 100. -/
def order (orderHash : Bytes32) (owner : Address) (isLong : Bool) : OrderRow :=
  ⟨orderHash, ⟨owner, 1, isLong, 10 * 10 ^ 18, 100 * 10 ^ 18, false, 1, 9000, 0⟩, [], .open_, 0, 5⟩

def planned (ask bid : OrderRow) : PlannedFill where
  fillId := 3
  maker := ask.order
  makerSignature := []
  taker := bid.order
  takerSignature := []
  size := 4 * 10 ^ 18
  price := 100 * 10 ^ 18
  marketId := 1
  makerOrderHash := ask.orderHash
  takerOrderHash := bid.orderHash
  takerIsBuy := true
  notional := 400 * 10 ^ 18

def settled : Event := .fillSettled ⟨3, 1, 11, 12, 21, 22, true, 4 * 10 ^ 18, 100 * 10 ^ 18⟩ ⟨0, 0, 0, 0⟩

end Sample

open Sample in
/-- A market is listed, two orders meet, and one of them is cancelled off chain. -/
theorem rebuild_reproduces_filled : ∃ ls s, Run machine start ls s ∧
    s.tables.db.orders.map (fun o => (o.status, o.filledSize)) =
      [(.partiallyFilled, 4 * 10 ^ 18), (.cancelled, 4 * 10 ^ 18)] ∧ rebuild 9 1 s.events s.tables = some s.tables := by
  have h := (Run.nil (M := machine.restrict Timely) (s := start)).snoc (l := Act.index 1 (stored 1 0 (.marketListed 1 7)))
    ⟨fun _ _ _ e he => absurd he List.not_mem_nil, Step.index (fun e he => absurd he List.not_mem_nil) rfl⟩
  have h := h.snoc (l := Act.insertOrder (order 21 11 false)) ⟨fun _ _ => by decide, Step.insertOrder⟩
  have h := h.snoc (l := Act.insertOrder (order 22 12 true)) ⟨fun _ _ => by decide, Step.insertOrder⟩
  have h := h.snoc (l := Act.persistPendingFills 6 [planned (order 21 11 false) (order 22 12 true)])
    ⟨fun f _ _ => List.forall_mem_singleton.2 id, Step.persistPendingFills⟩
  have h := h.snoc (l := Act.index 7 (stored 2 0 settled))
    ⟨fun _ _ hlisted => (by cases hlisted), Step.index (List.forall_mem_singleton.2 (.inl (by decide))) rfl⟩
  have h := h.snoc (l := Act.cancelOrderByNonce 12 1) ⟨trivial, Step.cancelOrderByNonce⟩
  exact ⟨_, _, Run.of_restrict h, by decide, (rebuild_reproduces start_empty h 9 Nat.one_pos).2 (by decide)⟩

open Sample in
/-- An order inserted after its nonce is cancelled on chain is open, and cancelled by a rebuild. -/
theorem rebuild_cancels_late : ¬ ∀ (s₀ s : State) (ls : List Act), machine.init s₀ → Run machine s₀ ls s →
    ∀ (now : Int) (batchSize : Nat), 0 < batchSize → rebuild now batchSize s.events s.tables = some s.tables := by
  intro hclaim
  have h := (Run.nil (M := machine) (s := start)).snoc (l := Act.index 1 (stored 1 0 (.orderCancelled 11 1)))
    (Step.index (fun e he => absurd he List.not_mem_nil) rfl)
  have h := h.snoc (l := Act.insertOrder (order 21 11 false)) Step.insertOrder
  have heq := congrArg (Option.map fun t : Tables => t.db.orders.map (·.status)) (hclaim _ _ _ start_empty h 9 5 (by decide))
  exact absurd heq (by decide)

end Kryon.Projections
