import Kryon.MatcherDb
import Kryon.Lib.Transition
/-!
# TxJobs — a shard, its transactions and the node

A shard's process reserves a batch, signs and broadcasts it, waits for a receipt and releases what cannot settle
(`submitBatch`, `settle`); after a crash it waits for the open jobs and scans for orphans (`recover`).  Around it the node
takes, mines or loses transactions, the reconciler resends and closes jobs, and the indexer writes the tables.
-/
namespace Kryon.Matcher

open Transition (Machine)

/-! ## Jobs -/

/-- A job carries a fill when the fill is in its batch. -/
def TxJob.carries (j : TxJob) (fillId : Bytes32) : Prop := fillId ∈ j.data.map (·.fillId)

instance (j : TxJob) (fillId : Bytes32) : Decidable (j.carries fillId) :=
  inferInstanceAs (Decidable (fillId ∈ j.data.map (·.fillId)))

/-- Write the statuses of the jobs; nothing else of a job changes. -/
def restatus (g : TxJob → TxJobStatus) (jobs : List TxJob) : List TxJob := jobs.map fun j => { j with status := g j }

/-- `TxJobStore.update`. -/
def setStatus (id : JobId) (status : TxJobStatus) : List TxJob → List TxJob :=
  restatus fun j => if j.id = id then status else j.status

/-- A receipt is found at a nonce: the mined attempt gets its outcome, the other open attempts are dropped. -/
def recordMined (nonce : Nat) (id : JobId) (ok : Bool) : List TxJob → List TxJob :=
  restatus fun j =>
    if j.id = id then (if ok = true then .confirmed else .reverted)
    else if j.nonce = nonce ∧ j.status.open_ = true then .dropped
    else j.status

/-- The nonce went to a transaction nobody here recorded. -/
def dropAttempts (nonce : Nat) : List TxJob → List TxJob :=
  restatus fun j => if j.nonce = nonce ∧ j.status.open_ = true then .dropped else j.status

/-- PENDING and SUBMITTED jobs, lowest nonce first. -/
def openJobs (jobs : List TxJob) : List TxJob :=
  (jobs.filter fun j => j.status.open_).insertionSort fun a b => a.nonce ≤ b.nonce

/-! ## The process -/

/-- Whom a wait reports to: the batch that was just submitted, or recovery, with the jobs it still has to wait for. -/
inductive Wait where
  | settle (fills : List PlannedFill)
  | recover (todo : List JobId)

inductive Phase where
  | down
  | idle
  /-- The reservation is committed; so many attempts to broadcast it met a stale nonce. -/
  | reserved (fills : List PlannedFill) (attempt : Nat)
  | sending (fills : List PlannedFill) (attempt : Nat) (job : JobId)
  /-- `submit` threw. -/
  | failing (fills : List PlannedFill)
  | submitted (fills : List PlannedFill) (job : JobId)
  | awaiting (wait : Wait) (current : JobId)
  /-- The fee bump `next` is signed, `current` is not marked yet. -/
  | replacing (wait : Wait) (current next : JobId)
  | resending (wait : Wait) (current next : JobId)
  | reverted (fills : List PlannedFill)
  | recovering (todo : List JobId)
  /-- The orphans still to decide, and those to release. -/
  | scanning (rows : List FillRow) (release : List Bytes32)

structure Shard where
  db : Db
  phase : Phase
  /-- Transactions the node has, or may still be delivered. -/
  sent : List JobId
  /-- The key's next nonce on chain. -/
  mined : Nat
  /-- Mined transactions, and whether they succeeded. -/
  receipts : List (JobId × Bool)
  /-- `OrderGateway.filled`. -/
  filled : Address → Nat → Int

def Wait.todo : Wait → List JobId
  | .settle _ => []
  | .recover todo => todo

/-- A wait that times out leaves its job open; recovery goes on to the next. -/
def Wait.timedOut : Wait → Phase
  | .settle _ => .idle
  | .recover todo => .recovering todo

/-- A wait that throws ends the tick, or the process if it was recovering. -/
def Wait.threw : Wait → Phase
  | .settle _ => .idle
  | .recover _ => .down

/-- A receipt ends the wait; only a batch that was waited for by `settle` is released when it reverted. -/
def Wait.mined (ok : Bool) : Wait → Phase
  | .settle fills => if ok = true then .idle else .reverted fills
  | .recover todo => .recovering todo

/-- `submit` starts over on a stale nonce, twice. -/
def retried (fills : List PlannedFill) (attempt : Nat) : Phase :=
  if attempt < 2 then .reserved fills (attempt + 1) else .failing fills

/-! ## Recovery -/

variable (db : Db)

/-- The PENDING fills of a job whose signed orders are on file. -/
def fillsForJob (id : JobId) : List FillRow :=
  db.fills.filter fun r => decide (r.txJobId = some id ∧ r.status = .pending ∧
    loadSignedOrder db r.makerOrderHash ≠ none ∧ loadSignedOrder db r.takerOrderHash ≠ none)

/-- Nobody is waiting for the fill's batch: it has none, or its job is dropped or failed. -/
def unattended (r : FillRow) : Bool :=
  match r.txJobId with
  | none => true
  | some id => db.jobs.any fun j => decide (j.id = id ∧ (j.status = .dropped ∨ j.status = .failed))

/-- The PENDING fills of the shard's markets older than the grace period that nobody is waiting for. -/
def orphans (marketIds : List MarketId) (cutoff : Int) : List FillRow :=
  db.fills.filter fun r =>
    decide (r.status = .pending ∧ r.marketId ∈ marketIds ∧ r.createdAt < cutoff) && unattended db r

/-- What the chain has filled of the maker order does not account for the fill on top of what is settled. -/
def unaccounted (filled : Address → Nat → Int) (r : FillRow) : Bool :=
  match loadSignedOrder db r.makerOrderHash with
  | none => false
  | some maker => decide (filled maker.order.owner maker.order.nonce < settledSize db.fills r.makerOrderHash + r.size)

/-! ## Steps -/

/-- What else is written to the tables: by the apply step after a batch, by the order intake and by the indexer. -/
inductive Upkeep : Db → Prop where
  | recordRejection (fillId : Bytes32) (reason : String) : Upkeep (recordRejection db fillId reason)
  | retireOrder (orderHash : Bytes32) (status : OrderStatus) : Upkeep (retireOrder db orderHash status)
  | insertOrder (o : OrderRow) : Upkeep (insertOrder db o)
  | fillSettled (createdAt : Int) (e : SettledFill) : Upkeep (fillSettled db createdAt e)
  | fillRejected (fillId : Bytes32) (reason : String) : Upkeep (fillRejected db fillId reason)
  | orderCancelled (owner : Address) (nonce : Nat) : Upkeep (orderCancelled db owner nonce)
  | noncesCancelledUpTo (owner : Address) (minNonce : Nat) : Upkeep (noncesCancelledUpTo db owner minNonce)
  | positions (positions : Address × MarketId → Int) : Upkeep { db with positions := positions }

/-- What a batch that succeeds adds to the filled amounts: the sizes of the fills the gateway settled. -/
def settleFilled (filled : Address → Nat → Int) (settled : List PlannedFill) : Address → Nat → Int := fun owner nonce =>
  filled owner nonce + (settled.map fun f =>
    (if f.maker.owner = owner ∧ f.maker.nonce = nonce then f.size else 0) +
      if f.taker.owner = owner ∧ f.taker.nonce = nonce then f.size else 0).sum

inductive Act where
  | reserve (fills : List PlannedFill) (createdAt : Int)
  | abort
  | sign (id : JobId) (nonce : Nat)
  | accepted
  | nonceTooLow
  /-- Any other error of the broadcast; the node may have the transaction all the same. -/
  | refused (kept : Bool)
  | release
  | link
  | found (id : JobId) (ok : Bool)
  | timeout
  | taken
  | throw
  | rebroadcast
  | replace (id : JobId)
  | supersede
  | bumped
  | bumpTooLow
  /-- The next window bumps again from these fees. -/
  | underpriced (kept : Bool)
  | bumpRefused (kept : Bool)
  | crash
  | restart
  | resume
  | query (cutoff : Int)
  | read
  | finish
  | resend (id : JobId)
  | mine (id : JobId) (ok : Bool) (settled : List PlannedFill)
  | foreign
  | close (id : JobId) (status : TxJobStatus)
  | upkeep

variable (marketIds : List MarketId)

namespace Shard

variable (s : Shard)

/-- The same shard with other jobs. -/
def putJobs (jobs : List TxJob) : Shard := { s with db := { s.db with jobs := jobs } }

/-- A job is signed and persisted, PENDING. -/
def signAndPersist (id : JobId) (nonce : Nat) (data : List PlannedFill) : Shard :=
  s.putJobs (s.db.jobs ++ [⟨id, nonce, data, .pending⟩])

end Shard

inductive Step : Shard → Act → Shard → Prop where
  -- `submitBatch`
  | reserve {s : Shard} {fills : List PlannedFill} {createdAt : Int} (hp : s.phase = .idle)
      (hknown : ∀ f ∈ fills, f.marketId ∈ marketIds ∧ loadSignedOrder s.db f.makerOrderHash ≠ none ∧
        loadSignedOrder s.db f.takerOrderHash ≠ none) :
      Step s (.reserve fills createdAt)
        { s with phase := .reserved fills 0, db := persistPendingFills s.db createdAt fills }
  | abort {s : Shard} {fills : List PlannedFill} {attempt : Nat} (hp : s.phase = .reserved fills attempt) :
      Step s .abort { s with phase := .failing fills }
  | sign {s : Shard} {fills : List PlannedFill} {attempt : Nat} {id : JobId} {nonce : Nat}
      (hp : s.phase = .reserved fills attempt) (hid : id ∉ s.db.jobs.map (·.id)) :
      Step s (.sign id nonce) { s.signAndPersist id nonce fills with phase := .sending fills attempt id }
  | accepted {s : Shard} {fills : List PlannedFill} {attempt : Nat} {id : JobId}
      (hp : s.phase = .sending fills attempt id) :
      Step s .accepted { s.putJobs (setStatus id .submitted s.db.jobs) with
        phase := .submitted fills id, sent := id :: s.sent }
  | nonceTooLow {s : Shard} {fills : List PlannedFill} {attempt : Nat} {j : TxJob} (hj : j ∈ s.db.jobs)
      (hp : s.phase = .sending fills attempt j.id) (hlow : j.nonce < s.mined) :
      Step s .nonceTooLow { s.putJobs (setStatus j.id .dropped s.db.jobs) with phase := retried fills attempt }
  | refused {s : Shard} {fills : List PlannedFill} {attempt : Nat} {id : JobId} {kept : Bool}
      (hp : s.phase = .sending fills attempt id) :
      Step s (.refused kept) { s.putJobs (setStatus id .failed s.db.jobs) with
        phase := .failing fills, sent := if kept = true then id :: s.sent else s.sent }
  | release {s : Shard} {fills : List PlannedFill} (hp : s.phase = .failing fills ∨ s.phase = .reverted fills) :
      Step s .release { s with phase := .idle, db := releasePendingFills s.db (fills.map (·.fillId)) }
  | link {s : Shard} {fills : List PlannedFill} {id : JobId} (hp : s.phase = .submitted fills id) :
      Step s .link { s with
        phase := .awaiting (.settle fills) id, db := linkFillsToJob s.db (fills.map (·.fillId)) id }
  -- `wait`
  | found {s : Shard} {w : Wait} {c : JobId} {k j : TxJob} {ok : Bool} (hp : s.phase = .awaiting w c)
      (hk : k ∈ s.db.jobs) (hc : k.id = c) (hj : j ∈ s.db.jobs) (hn : j.nonce = k.nonce) (hr : (j.id, ok) ∈ s.receipts) :
      Step s (.found j.id ok) { s.putJobs (recordMined j.nonce j.id ok s.db.jobs) with phase := w.mined ok }
  | timeout {s : Shard} {w : Wait} {c : JobId} (hp : s.phase = .awaiting w c) :
      Step s .timeout { s with phase := w.timedOut }
  | taken {s : Shard} {w : Wait} {c : JobId} {k : TxJob} (hp : s.phase = .awaiting w c) (hk : k ∈ s.db.jobs)
      (hc : k.id = c) (hn : k.nonce < s.mined) :
      Step s .taken { s.putJobs (dropAttempts k.nonce s.db.jobs) with phase := w.threw }
  | throw {s : Shard} {w : Wait} {c : JobId} (hp : s.phase = .awaiting w c) : Step s .throw { s with phase := w.threw }
  | rebroadcast {s : Shard} {w : Wait} {c : JobId} (hp : s.phase = .awaiting w c) :
      Step s .rebroadcast { s with sent := c :: s.sent }
  | replace {s : Shard} {w : Wait} {c id : JobId} {k : TxJob} (hp : s.phase = .awaiting w c) (hk : k ∈ s.db.jobs)
      (hc : k.id = c) (hid : id ∉ s.db.jobs.map (·.id)) :
      Step s (.replace id) { s.signAndPersist id k.nonce k.data with phase := .replacing w c id }
  | supersede {s : Shard} {w : Wait} {c n : JobId} (hp : s.phase = .replacing w c n) :
      Step s .supersede { s.putJobs (setStatus c .replaced s.db.jobs) with phase := .resending w c n }
  | bumped {s : Shard} {w : Wait} {c n : JobId} (hp : s.phase = .resending w c n) :
      Step s .bumped { s.putJobs (setStatus n .submitted s.db.jobs) with
        phase := .awaiting w n, sent := n :: s.sent }
  | bumpTooLow {s : Shard} {w : Wait} {c : JobId} {j : TxJob} (hj : j ∈ s.db.jobs) (hp : s.phase = .resending w c j.id)
      (hlow : j.nonce < s.mined) :
      Step s .bumpTooLow { s.putJobs (setStatus j.id .dropped s.db.jobs) with phase := .awaiting w j.id }
  | underpriced {s : Shard} {w : Wait} {c n : JobId} {kept : Bool} (hp : s.phase = .resending w c n) :
      Step s (.underpriced kept) { s.putJobs (setStatus n .failed s.db.jobs) with
        phase := .awaiting w n, sent := if kept = true then n :: s.sent else s.sent }
  | bumpRefused {s : Shard} {w : Wait} {c n : JobId} {kept : Bool} (hp : s.phase = .resending w c n) :
      Step s (.bumpRefused kept) { s.putJobs (setStatus n .failed s.db.jobs) with
        phase := w.threw, sent := if kept = true then n :: s.sent else s.sent }
  -- `recover`
  | crash {s : Shard} : Step s .crash { s with phase := .down }
  | restart {s : Shard} (hp : s.phase = .down) :
      Step s .restart { s with phase := .recovering ((openJobs s.db.jobs).map (·.id)) }
  | resume {s : Shard} {id : JobId} {todo : List JobId} (hp : s.phase = .recovering (id :: todo)) :
      Step s .resume { s with
        phase := .awaiting (.recover todo) id
        db := linkFillsToJob s.db ((fillsForJob s.db id).map (·.fillId)) id }
  | query {s : Shard} {cutoff : Int} (hp : s.phase = .recovering []) :
      Step s (.query cutoff) { s with phase := .scanning (orphans s.db marketIds cutoff) [] }
  | read {s : Shard} {r : FillRow} {rows : List FillRow} {release : List Bytes32}
      (hp : s.phase = .scanning (r :: rows) release) :
      Step s .read { s with
        phase := .scanning rows (if unaccounted s.db s.filled r = true then release ++ [r.fillId] else release) }
  | finish {s : Shard} {release : List Bytes32} (hp : s.phase = .scanning [] release) :
      Step s .finish { s with phase := .idle, db := releasePendingFills s.db release }
  -- The reconciler, the chain and the indexer; `resend` is also a request of a dead process that still arrives
  | resend {s : Shard} {j : TxJob} (hj : j ∈ s.db.jobs) (hopen : j.status.open_ = true) :
      Step s (.resend j.id) { s with sent := j.id :: s.sent }
  | mine {s : Shard} {j : TxJob} {ok : Bool} {settled : List PlannedFill} (hj : j ∈ s.db.jobs) (hsent : j.id ∈ s.sent)
      (hn : j.nonce = s.mined) (hok : settled.Sublist (if ok = true then j.data else [])) :
      Step s (.mine j.id ok settled) { s with
        mined := s.mined + 1
        receipts := (j.id, ok) :: s.receipts
        filled := settleFilled s.filled settled }
  | foreign {s : Shard} : Step s .foreign { s with mined := s.mined + 1 }
  | close {s : Shard} {j : TxJob} {status : TxJobStatus} (hj : j ∈ s.db.jobs) (hopen : j.status.open_ = true)
      (hstatus : status = .confirmed ∧ (j.id, true) ∈ s.receipts ∨ status = .reverted ∧ (j.id, false) ∈ s.receipts ∨
        status = .dropped ∧ j.nonce < s.mined) :
      Step s (.close j.id status) (s.putJobs (setStatus j.id status s.db.jobs))
  | upkeep {s : Shard} {db : Db} (h : Upkeep s.db db) : Step s .upkeep { s with db := db }

/-- A shard before its first start: no fills, no jobs, nothing sent. -/
def Shard.Initial (s : Shard) : Prop :=
  s.phase = .down ∧ s.db.fills = [] ∧ s.db.jobs = [] ∧ s.sent = [] ∧ s.receipts = []

def machine : Machine Shard Act := ⟨Shard.Initial, Step marketIds⟩

end Kryon.Matcher
