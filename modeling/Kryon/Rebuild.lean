import Kryon.Projections
import Kryon.Lib.Replay
import Mathlib.Algebra.BigOperators.Group.List.Basic
/-!
# Rebuild — stored events, replayed page by page

An event does to each row what the fills and positions of the events before it decide (`Context`), so a table after a log is
its rows folded over the log one by one.  A rebuild folds the rows it reset over the stored events, in pages of any size.
-/
namespace Kryon.Projections

open Matcher (OrderRow FillRow SettledFill JobId settledRow upsertSettled settledSize)
open Indexer (StoredEvent)
open Function (update)

/-! ## What an event does to a row -/

/-- The settled fills and the positions of the events so far. -/
structure Context where
  settled : List SettledFill
  positions : List PositionRow

def Context.empty : Context := ⟨[], []⟩

/-- The fill an event settles. -/
def settles : Event → Option SettledFill
  | .fillSettled fill _ => some fill
  | _ => none

/-- The position an event changes. -/
def changes (ev : StoredEvent Event) : Option PositionRow :=
  match ev.event with
  | .positionChanged trader marketId size openNotional price realizedPnl =>
    some (newPosition ev trader marketId size openNotional price realizedPnl)
  | _ => none

def nextSettled (settled : List SettledFill) (e : Event) : List SettledFill :=
  match settles e with
  | some fill => fill :: settled.filter fun f => decide (f.fillId ≠ fill.fillId)
  | none => settled

def nextPositions (positions : List PositionRow) (ev : StoredEvent Event) : List PositionRow :=
  match changes ev with
  | some new => if applies positions new = true then upsertPosition positions new else positions
  | none => positions

def advance (c : Context) (ev : StoredEvent Event) : Context :=
  ⟨nextSettled c.settled ev.event, nextPositions c.positions ev⟩

/-- What of an order is settled. -/
def sizeOf (settled : List SettledFill) (orderHash : Bytes32) : Int :=
  ((settled.filter fun f => decide (f.makerOrderHash = orderHash ∨ f.takerOrderHash = orderHash)).map (·.size)).sum

def actFill (_ : Context) (ev : StoredEvent Event) (r : FillRow) : FillRow :=
  match ev.event with
  | .fillSettled fill _ => if r.fillId = fill.fillId then settledRow fill r.txJobId r.createdAt else r
  | .fillRejected fillId reason =>
    if r.fillId = fillId ∧ r.status ≠ .settled then { r with status := .rejected, rejectReason := some reason } else r
  | _ => r

/-- An order recomputed from what of it is settled. -/
def refreshed (filled : Int) (o : OrderRow) : OrderRow :=
  { o with
    filledSize := min (o.order.size : Int) filled
    status :=
      if o.status = .cancelled ∨ o.status = .expired then o.status
      else if filled ≥ o.order.size then .filled
      else if filled > 0 then .partiallyFilled
      else .open_ }

def actOrder (c : Context) (ev : StoredEvent Event) (o : OrderRow) : OrderRow :=
  match ev.event with
  | .fillSettled fill _ =>
    if o.orderHash ∈ [fill.makerOrderHash, fill.takerOrderHash] then
      refreshed (sizeOf (nextSettled c.settled ev.event) o.orderHash) o
    else o
  | .orderCancelled owner nonce =>
    if o.order.owner = owner ∧ o.order.nonce = nonce ∧ o.status.tradeable = true then { o with status := .cancelled } else o
  | .noncesCancelledUpTo owner minNonce =>
    if o.order.owner = owner ∧ o.order.nonce < minNonce ∧ o.status.tradeable = true then { o with status := .cancelled } else o
  | _ => o

/-- What an event about a market writes to its row. -/
def writeMarket (c : Context) (ev : StoredEvent Event) (m : MarketId) (row : MarketRow) : MarketRow :=
  match ev.event with
  | .marketParamsSet marketId params =>
    if marketId = m then { row with params := some params, active := params.active } else row
  | .marketActiveSet marketId active => if marketId = m then { row with active := active } else row
  | .marketFeesSet marketId makerRate takerRate =>
    if marketId = m then { row with makerRate := makerRate, takerRate := takerRate } else row
  | .priceUpdated id price => if row.oracleId = id then { row with lastIndex := price } else row
  | .fundingUpdated marketId longIndex shortIndex ratePerHour mark =>
    if marketId = m then { row with
      longFundingIndex := longIndex
      shortFundingIndex := shortIndex
      fundingRatePerHour := ratePerHour
      lastMark := mark }
    else row
  | .positionChanged trader marketId size openNotional price realizedPnl =>
    if marketId = m ∧ applies c.positions (newPosition ev trader marketId size openNotional price realizedPnl) = true then
      { row with
        longOpenInterest := longOpenInterest (nextPositions c.positions ev) m
        shortOpenInterest := shortOpenInterest (nextPositions c.positions ev) m }
    else row
  | _ => row

def actMarket (m : MarketId) (c : Context) (ev : StoredEvent Event) (row : Option MarketRow) : Option MarketRow :=
  match ev.event with
  | .marketListed marketId oracleId => if marketId = m then some (listedRow oracleId row) else row
  | _ => row.map (writeMarket c ev m)

def actNonce (a : Address) (_ : Context) (ev : StoredEvent Event) (n : Nat) : Nat :=
  match ev.event with
  | .noncesCancelledUpTo owner minNonce => if owner = a then max n minNonce else n
  | _ => n

def actTier (a : Address) (_ : Context) (ev : StoredEvent Event) (tier : Nat) : Nat :=
  match ev.event with
  | .feeTierSet account tier' => if account = a then tier' else tier
  | _ => tier

def actSettlement (i : Bytes32) (_ : Context) (ev : StoredEvent Event) (s : Settlement) : Settlement :=
  match ev.event with
  | .fillSettled fill fees => if fill.fillId = i then ⟨fees, some (ev.blockNumber, ev.txHash, ev.logIndex)⟩ else s
  | _ => s

def actSize (k : Address × MarketId) (c : Context) (ev : StoredEvent Event) (size : Int) : Int :=
  match changes ev with
  | some new => if new.key = k ∧ applies c.positions new = true then new.size else size
  | none => size

/-! ## Tables that hold a context -/

/-- What `FillSettled` reported of a settled row. -/
def terms (r : FillRow) : SettledFill :=
  ⟨r.fillId, r.marketId, r.maker, r.taker, r.makerOrderHash, r.takerOrderHash, r.takerIsBuy, r.size, r.price⟩

def settledTerms (rows : List FillRow) : List SettledFill :=
  (rows.filter fun r => decide (r.status = .settled)).map terms

/-- The tables' settled fills and positions are those of the context. -/
structure Holds (c : Context) (t : Tables) : Prop where
  ids : (t.db.fills.map (·.fillId)).Nodup
  settled : (settledTerms t.db.fills).Perm c.settled
  positions : t.positions = c.positions

variable {c : Context} {t t' : Tables} {ev : StoredEvent Event} {now : Int} {rows : List FillRow} {fill : SettledFill}
  {es : List (StoredEvent Event)}

theorem map_self {α : Type} {g : α → α} {l : List α} (h : ∀ x ∈ l, g x = x) : l.map g = l :=
  (List.map_congr_left h).trans (List.map_id' l)

theorem settledSize_eq (rows : List FillRow) (orderHash : Bytes32) :
    settledSize rows orderHash = sizeOf (settledTerms rows) orderHash := by
  unfold settledSize sizeOf settledTerms
  rw [List.filter_map, List.map_map, List.filter_filter]
  congr 1
  congr 1
  refine List.filter_congr fun r _ => ?_
  rw [Bool.decide_and]
  exact Bool.and_comm _ _

theorem sizeOf_perm {l l' : List SettledFill} (h : l.Perm l') (orderHash : Bytes32) : sizeOf l orderHash = sizeOf l' orderHash :=
  ((h.filter _).map _).sum_eq

theorem settledTerms_append (rows rows' : List FillRow) :
    settledTerms (rows ++ rows') = settledTerms rows ++ settledTerms rows' := by
  rw [settledTerms, List.filter_append, List.map_append]
  rfl

theorem settledTerms_settled (fill : SettledFill) (txJobId : Option JobId) (createdAt : Int) :
    settledTerms [settledRow fill txJobId createdAt] = [fill] := rfl

theorem settledTerms_map {g : FillRow → FillRow} (hg : ∀ r ∈ rows, (g r).status = .settled ↔ r.status = .settled)
    (hterms : ∀ r ∈ rows, r.status = .settled → terms (g r) = terms r) : settledTerms (rows.map g) = settledTerms rows := by
  unfold settledTerms
  rw [List.filter_map, List.map_map]
  have hfilter : rows.filter ((fun r => decide (r.status = .settled)) ∘ g) =
      rows.filter fun r => decide (r.status = .settled) := by
    refine List.filter_congr fun r hr => ?_
    simp only [Function.comp_apply, hg r hr]
  rw [hfilter]
  refine List.map_congr_left fun r hr => ?_
  rw [List.mem_filter, decide_eq_true_eq] at hr
  exact hterms r hr.1 hr.2

theorem settledTerms_ids {i : Bytes32} (h : ∀ r ∈ rows, r.fillId ≠ i) :
    (settledTerms rows).filter (fun f => decide (f.fillId ≠ i)) = settledTerms rows := by
  refine List.filter_eq_self.2 fun f hf => ?_
  obtain ⟨r, hr, rfl⟩ := List.mem_map.1 hf
  exact decide_eq_true (h r (List.mem_filter.1 hr).1)

/-- **A settlement takes the place of the settled row of its id**, if there is one. -/
theorem settledTerms_upsert (hids : (rows.map (·.fillId)).Nodup) :
    (settledTerms (upsertSettled now fill rows)).Perm
      (fill :: (settledTerms rows).filter fun f => decide (f.fillId ≠ fill.fillId)) := by
  unfold upsertSettled
  split
  · rename_i hmem
    obtain ⟨r, hr, hid⟩ := List.mem_map.1 hmem
    obtain ⟨pre, post, rfl⟩ := List.append_of_mem hr
    simp only [List.map_append, List.map_cons] at hids
    have hothers : ∀ x ∈ pre ++ post, x.fillId ≠ fill.fillId := by
      have hnot := (List.nodup_cons.1 (List.nodup_middle.1 hids)).1
      intro x hx heq
      refine hnot ?_
      rw [← List.map_append]
      exact List.mem_map.2 ⟨x, hx, heq.trans hid.symm⟩
    have hsame : ∀ l : List FillRow, (∀ x ∈ l, x ∈ pre ++ post) →
        l.map (fun r => if r.fillId = fill.fillId then settledRow fill r.txJobId r.createdAt else r) = l := by
      intro l hl
      exact map_self fun x hx => if_neg (hothers x (hl x hx))
    have hout : (settledTerms [r]).filter (fun f => decide (f.fillId ≠ fill.fillId)) = [] := by
      refine List.filter_eq_nil_iff.2 fun f hf => ?_
      obtain ⟨x, hx, rfl⟩ := List.mem_map.1 hf
      rw [List.mem_singleton.1 (List.mem_filter.1 hx).1]
      exact decide_eq_true_iff.not.2 (not_not.2 hid)
    rw [List.map_append, List.map_cons, if_pos hid, hsame pre fun x hx => List.mem_append_left _ hx,
      hsame post fun x hx => List.mem_append_right _ hx]
    rw [← List.singleton_append (l := post), ← List.singleton_append (l := post), settledTerms_append,
      settledTerms_append, settledTerms_append, settledTerms_append, settledTerms_settled, List.filter_append,
      List.filter_append, hout, settledTerms_ids fun x hx => hothers x (List.mem_append_left _ hx),
      settledTerms_ids fun x hx => hothers x (List.mem_append_right _ hx)]
    exact List.perm_middle
  · rename_i hmem
    rw [settledTerms_append, settledTerms_settled, settledTerms_ids fun r hr hid => hmem (List.mem_map.2 ⟨r, hr, hid⟩)]
    exact List.perm_append_comm

/-! ## One event -/

theorem positionChanged_db (new : PositionRow) : (positionChanged t new).db =
    if applies t.positions new = true then { t.db with positions := update t.db.positions new.key new.size } else t.db := by
  unfold positionChanged
  split <;> rfl

theorem positionChanged_positions (new : PositionRow) : (positionChanged t new).positions =
    if applies t.positions new = true then upsertPosition t.positions new else t.positions := by
  unfold positionChanged
  split <;> rfl

theorem positionChanged_fills (new : PositionRow) : (positionChanged t new).db.fills = t.db.fills := by
  rw [positionChanged_db]
  split <;> rfl

theorem project_fills (now : Int) (c : Context) (t : Tables) (ev : StoredEvent Event) :
    (project now t ev).db.fills = match settles ev.event with
      | some fill => upsertSettled now fill t.db.fills
      | none => t.db.fills.map (actFill c ev) := by
  cases hev : ev.event with
  | fillSettled fill fees =>
    simp only [project, hev]
    rfl
  | fillRejected fillId reason =>
    simp only [project, hev, settles, Matcher.fillRejected]
    refine List.map_congr_left fun r _ => ?_
    simp only [actFill, hev]
  | positionChanged trader m size openNotional price pnl =>
    simp only [project, hev, positionChanged_fills]
    exact (map_self fun r _ => by simp only [actFill, hev]).symm
  | _ =>
    simp only [project, hev]
    exact (map_self fun r _ => by simp only [actFill, hev]).symm

theorem refreshOrders_orders (db : Matcher.Db) (hashes : List Bytes32) : (Matcher.refreshOrders db hashes).orders =
    db.orders.map fun o => if o.orderHash ∈ hashes then refreshed (settledSize db.fills o.orderHash) o else o := rfl

theorem project_orders (now : Int) (h : Holds c t) : (project now t ev).db.orders = t.db.orders.map (actOrder c ev) := by
  cases hev : ev.event with
  | fillSettled fill fees =>
    simp only [project, hev, Matcher.fillSettled, refreshOrders_orders]
    refine List.map_congr_left fun o _ => ?_
    have hsize : settledSize (upsertSettled now fill t.db.fills) o.orderHash =
        sizeOf (nextSettled c.settled ev.event) o.orderHash := by
      rw [settledSize_eq, hev]
      exact sizeOf_perm ((settledTerms_upsert h.ids).trans ((h.settled.filter _).cons fill)) _
    simp only [actOrder, hev, hsize]
  | orderCancelled owner nonce =>
    simp only [project, hev, Matcher.orderCancelled]
    refine List.map_congr_left fun o _ => ?_
    simp only [actOrder, hev]
  | noncesCancelledUpTo owner minNonce =>
    simp only [project, hev, Matcher.noncesCancelledUpTo]
    refine List.map_congr_left fun o _ => ?_
    simp only [actOrder, hev]
  | positionChanged trader m size openNotional price pnl =>
    simp only [project, hev, positionChanged_db]
    rw [map_self fun o _ => by simp only [actOrder, hev]]
    split <;> rfl
  | _ =>
    simp only [project, hev]
    exact (map_self fun o _ => by simp only [actOrder, hev]).symm

theorem updateMarket_markets (m' : MarketId) (f : MarketRow → MarketRow) (m : MarketId) :
    (t.updateMarket m' f).markets m = (t.markets m).map fun row => if m' = m then f row else row := by
  unfold Tables.updateMarket
  by_cases hm : m' = m
  · subst hm
    simp
  · simp [hm, Ne.symm hm]

theorem project_markets (now : Int) (h : Holds c t) (m : MarketId) :
    (project now t ev).markets m = actMarket m c ev (t.markets m) := by
  cases hev : ev.event with
  | marketListed marketId oracleId =>
    simp only [project, hev, marketListed, actMarket]
    by_cases hm : marketId = m
    · subst hm
      simp
    · simp [hm, Ne.symm hm]
  | priceUpdated id price =>
    simp only [project, hev, priceUpdated, actMarket]
    congr 1
    funext row
    simp only [writeMarket, hev]
  | positionChanged trader marketId size openNotional price pnl =>
    simp only [project, hev, positionChanged, actMarket, h.positions]
    have hnext : nextPositions c.positions ev = if applies c.positions (newPosition ev trader marketId size openNotional
        price pnl) = true then upsertPosition c.positions (newPosition ev trader marketId size openNotional price pnl)
        else c.positions := by
      simp only [nextPositions, changes, hev]
    cases happlies : applies c.positions (newPosition ev trader marketId size openNotional price pnl) with
    | true =>
      rw [happlies, if_pos rfl] at hnext
      rw [if_pos rfl, updateMarket_markets]
      congr 1
      funext row
      simp only [writeMarket, hev, happlies, and_true, hnext]
      by_cases hm : marketId = m
      · subst hm
        simp [newPosition]
      · simp [newPosition, hm]
    | false =>
      rw [if_neg Bool.false_ne_true]
      have hid : writeMarket c ev m = id := by
        funext row
        simp [writeMarket, hev, happlies]
      rw [hid, Option.map_id, id]
  | marketParamsSet _ _ | marketActiveSet _ _ | marketFeesSet _ _ _ | fundingUpdated _ _ _ _ _ =>
    simp only [project, hev, updateMarket_markets, actMarket]
    congr 1
    funext row
    simp only [writeMarket, hev]
  | _ =>
    have hid : writeMarket c ev m = id := by
      funext row
      simp only [writeMarket, hev, id]
    simp only [project, hev, actMarket, hid, Option.map_id, id]

theorem project_positions (now : Int) (h : Holds c t) : (project now t ev).positions = nextPositions c.positions ev := by
  cases hev : ev.event with
  | positionChanged trader marketId size openNotional price pnl =>
    simp only [project, hev, positionChanged_positions, nextPositions, changes, h.positions]
  | _ =>
    simp only [project, hev, nextPositions, changes]
    exact h.positions

theorem project_nonces (now : Int) (c : Context) (t : Tables) (ev : StoredEvent Event) (a : Address) :
    (project now t ev).db.minValidNonce a = actNonce a c ev (t.db.minValidNonce a) := by
  cases hev : ev.event with
  | noncesCancelledUpTo owner minNonce =>
    simp only [project, hev, Matcher.noncesCancelledUpTo, actNonce]
    by_cases ha : owner = a
    · subst ha
      simp
    · simp [ha, Ne.symm ha]
  | positionChanged trader marketId size openNotional price pnl =>
    simp only [project, hev, positionChanged_db, actNonce]
    split <;> rfl
  | _ =>
    simp only [project, hev, actNonce] <;> rfl

theorem project_tiers (now : Int) (c : Context) (t : Tables) (ev : StoredEvent Event) (a : Address) :
    (project now t ev).feeTier a = actTier a c ev (t.feeTier a) := by
  cases hev : ev.event with
  | feeTierSet account tier =>
    simp only [project, hev, actTier]
    by_cases ha : account = a
    · subst ha
      simp
    · simp [ha, Ne.symm ha]
  | positionChanged trader marketId size openNotional price pnl =>
    simp only [project, hev, positionChanged, actTier]
    split <;> rfl
  | _ =>
    simp only [project, hev, actTier] <;> rfl

theorem project_settlements (now : Int) (c : Context) (t : Tables) (ev : StoredEvent Event) (i : Bytes32) :
    (project now t ev).settlements i = actSettlement i c ev (t.settlements i) := by
  cases hev : ev.event with
  | fillSettled fill fees =>
    simp only [project, hev, actSettlement]
    by_cases hi : fill.fillId = i
    · subst hi
      simp
    · simp [hi, Ne.symm hi]
  | positionChanged trader marketId size openNotional price pnl =>
    simp only [project, hev, positionChanged, actSettlement]
    split <;> rfl
  | _ =>
    simp only [project, hev, actSettlement] <;> rfl

theorem project_sizes (now : Int) (h : Holds c t) (k : Address × MarketId) :
    (project now t ev).db.positions k = actSize k c ev (t.db.positions k) := by
  cases hev : ev.event with
  | positionChanged trader marketId size openNotional price pnl =>
    simp only [project, hev, positionChanged_db, actSize, changes, h.positions]
    cases applies c.positions (newPosition ev trader marketId size openNotional price pnl) with
    | true =>
      by_cases hk : (newPosition ev trader marketId size openNotional price pnl).key = k
      · subst hk
        simp
      · simp [hk, Ne.symm hk]
    | false => simp
  | _ =>
    simp only [project, hev, actSize, changes] <;> rfl

theorem project_jobs (now : Int) (t : Tables) (ev : StoredEvent Event) : (project now t ev).db.jobs = t.db.jobs := by
  cases hev : ev.event with
  | positionChanged trader marketId size openNotional price pnl =>
    simp only [project, hev, positionChanged_db]
    split <;> rfl
  | _ =>
    simp only [project, hev] <;> rfl

theorem actFill_id (r : FillRow) : (actFill c ev r).fillId = r.fillId := by
  cases hev : ev.event with
  | fillSettled fill fees =>
    simp only [actFill, hev]
    split
    · exact Eq.symm ‹_›
    · rfl
  | fillRejected fillId reason =>
    simp only [actFill, hev]
    split <;> rfl
  | _ => simp only [actFill, hev]

theorem upsertSettled_map (now : Int) (c : Context) {fees : FillFees} (hev : ev.event = .fillSettled fill fees)
    (hmem : fill.fillId ∈ rows.map (·.fillId)) : upsertSettled now fill rows = rows.map (actFill c ev) := by
  rw [upsertSettled, if_pos hmem]
  refine List.map_congr_left fun r _ => ?_
  simp only [actFill, hev]

theorem upsertSettled_nodup (now : Int) (hids : (rows.map (·.fillId)).Nodup) :
    ((upsertSettled now fill rows).map (·.fillId)).Nodup := by
  unfold upsertSettled
  split
  · rw [List.map_map]
    have hsame : (fun r : FillRow => r.fillId) ∘ (fun r => if r.fillId = fill.fillId then settledRow fill r.txJobId r.createdAt
        else r) = (·.fillId) := by
      funext r
      simp only [Function.comp_apply]
      split
      · exact Eq.symm ‹_›
      · rfl
    rwa [hsame]
  · rename_i hnew
    rw [List.map_append]
    exact hids.append (List.nodup_singleton _) (List.disjoint_singleton.2 hnew)

/-- **An event moves the tables' context on.** -/
theorem holds_project (h : Holds c t) (now : Int) (ev : StoredEvent Event) :
    Holds (advance c ev) (project now t ev) := by
  have hfills := project_fills now c t ev
  refine ⟨?_, ?_, project_positions now h⟩
  · rw [hfills]
    cases hs : settles ev.event with
    | some fill => exact upsertSettled_nodup now h.ids
    | none =>
      change ((t.db.fills.map (actFill c ev)).map (·.fillId)).Nodup
      rw [List.map_map]
      have hsame : (fun r : FillRow => r.fillId) ∘ actFill c ev = (·.fillId) := by
        funext r
        exact actFill_id r
      rw [hsame]
      exact h.ids
  · rw [hfills]
    cases hs : settles ev.event with
    | some fill =>
      simp only [advance, nextSettled, hs]
      exact (settledTerms_upsert h.ids).trans ((h.settled.filter _).cons fill)
    | none =>
      have hkept : ∀ r, ((actFill c ev r).status = .settled ↔ r.status = .settled) ∧
          (r.status = .settled → terms (actFill c ev r) = terms r) := by
        intro r
        cases hev : ev.event with
        | fillSettled fill fees =>
          rw [hev] at hs
          cases hs
        | fillRejected fillId reason =>
          simp only [actFill, hev]
          split
          · rename_i hr
            exact ⟨⟨fun h => (by cases h), fun h => absurd h hr.2⟩, fun h => absurd h hr.2⟩
          · exact ⟨Iff.rfl, fun _ => rfl⟩
        | _ => simp [actFill, hev]
      simp only [advance, nextSettled, hs]
      rw [settledTerms_map (fun r _ => (hkept r).1) fun r _ => (hkept r).2]
      exact h.settled

/-! ## A replay -/

/-- A value after a log. -/
def after {ρ : Type} (act : Context → StoredEvent Event → ρ → ρ) (es : List (StoredEvent Event)) (r : ρ) : ρ :=
  Replay.fold advance Context.empty act es r

def contextOf (es : List (StoredEvent Event)) : Context := Replay.state advance Context.empty es

/-- The rows are those of `start` after a log. -/
structure Replayed (es : List (StoredEvent Event)) (start t : Tables) : Prop where
  holds : Holds (contextOf es) t
  fills : t.db.fills = start.db.fills.map (after actFill es)
  orders : t.db.orders = start.db.orders.map (after actOrder es)
  markets : ∀ m, t.markets m = after (actMarket m) es (start.markets m)
  nonces : ∀ a, t.db.minValidNonce a = after (actNonce a) es (start.db.minValidNonce a)
  tiers : ∀ a, t.feeTier a = after (actTier a) es (start.feeTier a)
  settlements : ∀ i, t.settlements i = after (actSettlement i) es (start.settlements i)
  sizes : ∀ k, t.db.positions k = after (actSize k) es (start.db.positions k)
  jobs : t.db.jobs = start.db.jobs

variable {start : Tables}

theorem after_snoc {ρ : Type} {act : Context → StoredEvent Event → ρ → ρ} (r : ρ) :
    after act (es ++ [ev]) r = act (contextOf es) ev (after act es r) := Replay.fold_snoc

theorem contextOf_snoc : contextOf (es ++ [ev]) = advance (contextOf es) ev := Replay.state_snoc

theorem after_fillId (es : List (StoredEvent Event)) (r : FillRow) : (after actFill es r).fillId = r.fillId := by
  induction es using List.reverseRecOn with
  | nil => rfl
  | append_singleton es ev ih => rw [after_snoc, actFill_id, ih]

/-- **One event more**, if a fill it settles has a row. -/
theorem replayed_project (h : Replayed es start t) (now : Int)
    (hid : ∀ fill ∈ settles ev.event, fill.fillId ∈ start.db.fills.map (·.fillId)) :
    Replayed (es ++ [ev]) start (project now t ev) := by
  have hids : t.db.fills.map (·.fillId) = start.db.fills.map (·.fillId) := by
    rw [h.fills, List.map_map]
    exact List.map_congr_left fun r _ => after_fillId es r
  have hfills : (project now t ev).db.fills = t.db.fills.map (actFill (contextOf es) ev) := by
    rw [project_fills now (contextOf es)]
    cases hev : ev.event with
    | fillSettled fill fees =>
      refine upsertSettled_map now _ hev ?_
      rw [hids]
      rw [hev] at hid
      exact hid fill rfl
    | _ => rfl
  refine ⟨?_, ?_, ?_, fun m => ?_, fun a => ?_, fun a => ?_, fun i => ?_, fun k => ?_, ?_⟩
  · rw [contextOf_snoc]
    exact holds_project h.holds now ev
  · rw [hfills, h.fills, List.map_map]
    exact List.map_congr_left fun r _ => (after_snoc r).symm
  · rw [project_orders now h.holds, h.orders, List.map_map]
    exact List.map_congr_left fun o _ => (after_snoc o).symm
  · rw [project_markets now h.holds, h.markets, after_snoc]
  · rw [project_nonces now (contextOf es), h.nonces, after_snoc]
  · rw [project_tiers now (contextOf es), h.tiers, after_snoc]
  · rw [project_settlements now (contextOf es), h.settlements, after_snoc]
  · rw [project_sizes now h.holds, h.sizes, after_snoc]
  · rw [project_jobs, h.jobs]

theorem actMarket_isSome {m : MarketId} {row : Option MarketRow} (h : row.isSome = true) :
    (actMarket m c ev row).isSome = true := by
  unfold actMarket
  split
  · split
    · rfl
    · exact h
  · rw [Option.isSome_map]
    exact h

theorem after_isSome {m : MarketId} {row : Option MarketRow} (es : List (StoredEvent Event)) (h : row.isSome = true) :
    (after (actMarket m) es row).isSome = true := by
  induction es using List.reverseRecOn with
  | nil => exact h
  | append_singleton es ev ih =>
    rw [after_snoc]
    exact actMarket_isSome ih

/-- **A replay applies every event**, if its fills have rows and its markets are there. -/
theorem replay_all (now : Int) (hstart : Holds Context.empty start) : ∀ es : List (StoredEvent Event),
    (∀ ev ∈ es, ∀ fill ∈ settles ev.event, fill.fillId ∈ start.db.fills.map (·.fillId)) →
    (∀ ev ∈ es, ∀ m ∈ references ev.event, (start.markets m).isSome = true) →
    ∃ t, es.foldlM (applyEvent now) start = some t ∧ Replayed es start t := by
  intro es
  induction es using List.reverseRecOn with
  | nil =>
    intro _ _
    exact ⟨start, rfl, ⟨hstart, (map_self fun _ _ => rfl).symm, (map_self fun _ _ => rfl).symm, fun _ => rfl,
      fun _ => rfl, fun _ => rfl, fun _ => rfl, fun _ => rfl, rfl⟩⟩
  | append_singleton es ev ih =>
    intro hids hrefs
    have hlast := List.mem_append_right es (List.mem_singleton_self ev)
    obtain ⟨t, hfold, ht⟩ := ih (fun e he => hids e (List.mem_append_left _ he)) fun e he => hrefs e (List.mem_append_left _ he)
    have happly : applyEvent now t ev = some (project now t ev) := by
      refine if_pos ?_
      cases hm : references ev.event with
      | none => rfl
      | some m =>
        rw [Option.all_some, ht.markets]
        exact after_isSome es (hrefs ev hlast m hm)
    refine ⟨project now t ev, ?_, replayed_project ht now (hids ev hlast)⟩
    rw [List.foldlM_append, hfold]
    simp [happly]

/-! ## Pages -/

/-- The stored events in the order of a rebuild. -/
def InOrder (es : List (StoredEvent Event)) : Prop := es.Pairwise StoredEvent.before

theorem canonical_inOrder {τ : Type} {P : Indexer.Projection Event τ} {chain : Indexer.Chain} {opts : Indexer.IndexerOptions}
    {T₀ : τ} {db : Indexer.Db Event τ} (h : Indexer.Canonical P chain opts T₀ db) : InOrder db.events := by
  rw [h.events]
  exact chain.window_ordered _ _

theorem page_eq {pre post : List (StoredEvent Event)} (h : InOrder (pre ++ post)) (n : Nat) :
    page (pre ++ post) pre.getLast? n = post.take n := by
  obtain ⟨hpre, hpost, hcross⟩ := List.pairwise_append.1 h
  have hfilter : (pre ++ post).filter (fun e => pre.getLast?.all fun a => decide (a.blockNumber < e.blockNumber ∨
      a.blockNumber = e.blockNumber ∧ a.logIndex < e.logIndex)) = post := by
    rw [List.filter_append, List.filter_eq_nil_iff.2, List.filter_eq_self.2, List.nil_append]
    · intro e he
      cases hlast : pre.getLast? with
      | none => rfl
      | some a =>
        rw [Option.all_some]
        exact decide_eq_true (hcross a (List.mem_of_getLast? hlast) e he)
    · intro e he
      obtain ⟨xs, a, rfl⟩ := List.eq_nil_or_concat pre |>.resolve_left (List.ne_nil_of_mem he)
      rw [List.concat_eq_append, List.getLast?_append, List.getLast?_singleton, Option.some_or, Option.all_some,
        decide_eq_true_eq]
      rw [List.concat_eq_append, List.pairwise_append] at hpre
      rw [List.concat_eq_append, List.mem_append, List.mem_singleton] at he
      obtain he | rfl := he
      · have hlt : e.before a := hpre.2.2 e he a (List.mem_singleton_self a)
        unfold StoredEvent.before at hlt
        omega
      · omega
  unfold page
  rw [hfilter, List.Pairwise.insertionSort_eq]
  exact hpost.imp fun {e f} hlt => by
    unfold StoredEvent.before at hlt
    omega

/-- **Pages of any size apply every event.** -/
theorem replay_pages (now : Int) {n : Nat} (hn : 0 < n) : ∀ (fuel : Nat) (pre post : List (StoredEvent Event))
    (t : Tables), InOrder (pre ++ post) → post.length < fuel →
      replay now (pre ++ post) n fuel pre.getLast? t = post.foldlM (applyEvent now) t
  | 0, _, _, _, _, hfuel => absurd hfuel (Nat.not_lt_zero _)
  | fuel + 1, pre, post, t, h, hfuel => by
    rw [replay, page_eq h]
    simp only [Option.bind_eq_bind, Option.pure_def]
    by_cases hshort : (post.take n).length < n
    · have hall : post.take n = post := by
        rw [List.length_take] at hshort
        exact List.take_of_length_le (by omega)
      rw [hall] at hshort ⊢
      simp only [if_pos hshort, Option.bind_fun_some]
    · have hlen : n ≤ post.length := by
        rw [List.length_take] at hshort
        omega
      have hlast : (post.take n).getLast? = (pre ++ post.take n).getLast? := by
        rw [List.getLast?_append_of_ne_nil]
        exact List.ne_nil_of_length_pos (by rw [List.length_take]; omega)
      have hrest := replay_pages now hn fuel (pre ++ post.take n) (post.drop n)
      rw [List.append_assoc, List.take_append_drop] at hrest
      simp only [if_neg hshort, hlast]
      conv_rhs => rw [← List.take_append_drop n post, List.foldlM_append]
      rw [Option.bind_eq_bind]
      congr 1
      funext t'
      exact hrest t' h (by rw [List.length_drop]; omega)

end Kryon.Projections
