import Kryon.MatcherDb
import Kryon.Lib.Transition
/-!
# TxSender — one key's sender, its table of attempts and the node

`submit` takes a nonce, signs and persists an attempt, and broadcasts it; a nonce the node calls too low is tried again at
a fresh one.  `wait` watches the nonce of a job: it looks up the receipts of every attempt there, resends, and replaces at
higher fees.  Calls of `submit` run one at a time, waits run beside them and each other, and a restart loses both.
Around them the reconciler closes and resends open attempts, the node answers as it likes, and other holders of the key
send transactions of their own.
-/
namespace Kryon.TxSender

open Function (update)
open Matcher (TxJobStatus JobId)
open Transition (Machine)

structure Call where
  to_ : Address
  data : Bytes
  value : Nat
deriving DecidableEq

/-- A signed transaction; its bytes and its hash are those of its content. -/
structure Tx where
  nonce : Nat
  call : Call
  gasLimit : Nat
  maxFeePerGas : Nat
  maxPriorityFeePerGas : Nat
deriving DecidableEq

/-- A row of the store, one for each broadcast attempt; `request` is the call of `submit` it belongs to. -/
structure TxJob where
  id : JobId
  request : Nat
  tx : Tx
  status : TxJobStatus
deriving DecidableEq

/-! ## The store -/

/-- `TxJobStore.update`. -/
def setStatus (id : JobId) (status : TxJobStatus) (jobs : List TxJob) : List TxJob :=
  jobs.map fun j => if j.id = id then { j with status := status } else j

def openJobs (jobs : List TxJob) : List TxJob := jobs.filter fun j => j.status.open_

/-- Every attempt at a nonce, oldest first. -/
def byNonce (nonce : Nat) (jobs : List TxJob) : List TxJob := jobs.filter fun j => decide (j.tx.nonce = nonce)

/-! ## Fees -/

structure TxSenderOptions where
  /-- The network's floor, in wei. -/
  minBaseFee : Nat
  /-- Replacement fee bump in percent. -/
  bumpPercent : Nat
  /-- Replacements stop once `maxFeePerGas` would exceed this. -/
  maxFeeCapWei : Nat

def MIN_MAX_FEE : Nat := 40 * 10 ^ 9

def PRIORITY_FEE : Nat := 10 ^ 9

structure Fees where
  maxFeePerGas : Nat
  maxPriorityFeePerGas : Nat

def initialFees (baseFee : Option Nat) (minBaseFee : Nat) : Fees where
  maxFeePerGas :=
    let base := max (baseFee.getD 0) minBaseFee
    max (base * 2) MIN_MAX_FEE
  maxPriorityFeePerGas := PRIORITY_FEE

def bump (value percent : Nat) : Nat := (value * (100 + percent) + 99) / 100

/-- The fees of a replacement; none at the fee cap. -/
def replaceFees (opts : TxSenderOptions) (tx : Tx) (baseFee : Option Nat) : Option Fees :=
  let maxFeePerGas := max (bump tx.maxFeePerGas opts.bumpPercent) (initialFees baseFee opts.minBaseFee).maxFeePerGas
  if maxFeePerGas > opts.maxFeeCapWei then none
  else some ⟨maxFeePerGas, bump tx.maxPriorityFeePerGas opts.bumpPercent⟩

/-! ## The node's answers -/

/-- An error of `sendRawTransaction`, by what its text matches. -/
structure RpcError where
  alreadyKnown : Bool
  nonceTooLow : Bool
  underpriced : Bool
deriving DecidableEq

/-- The error a broadcast ends with; the node having the transaction already is none. -/
def refusal (reply : Option RpcError) : Option RpcError := reply.filter fun e => !e.alreadyKnown

/-- What is recorded of an attempt the node refused. -/
def RpcError.status (e : RpcError) : TxJobStatus := if e.nonceTooLow = true then .dropped else .failed

/-- A resent or replaced transaction may be refused this way; anything else is thrown. -/
def RpcError.expected (e : RpcError) : Bool := e.nonceTooLow || e.underpriced

/-! ## Nonces -/

/-- Where a call of `submit` is. -/
inductive Stage where
  /-- About to ask the node for the pending count. -/
  | counting
  /-- The count is below the next nonce: the open jobs are still to be read. -/
  | scanning (pending : Nat)
  | signing (nonce : Nat)
  | sending (job : TxJob)
  | marking (job : TxJob)
  | refusing (job : TxJob) (e : RpcError)

/-- The first half of `allocateNonce`: only a count below the next nonce leads to a look at the open jobs. -/
def counted (nextNonce : Option Nat) (pending : Nat) : Option Nat × Stage :=
  match nextNonce with
  | none => (some pending, .signing pending)
  | some next =>
    if pending > next then (some pending, .signing pending)
    else if pending < next then (some next, .scanning pending)
    else (some next, .signing next)

/-- The second half: the lowest nonce in flight without an open job, or the next one. -/
def scanned (jobs : List TxJob) (pending next : Nat) : Nat :=
  ((List.range' pending (next - pending)).find? fun n => !decide (n ∈ (openJobs jobs).map (·.tx.nonce))).getD next

/-- A gap fill never moves the next nonce back. -/
def advanced (nextNonce : Option Nat) (nonce : Nat) : Option Nat :=
  match nextNonce with
  | none => some (nonce + 1)
  | some next => if nonce + 1 > next then some (nonce + 1) else some next

/-! ## Calls in progress -/

structure Submit where
  request : Nat
  call : Call
  gasLimit : Nat
  attempt : Nat
  stage : Stage

/-- Where a call of `wait` is. -/
inductive Watch where
  | watching
  /-- The replacement is persisted, the attempt it replaces not marked yet. -/
  | replacing (next : TxJob)
  | resending (next : TxJob)
  | marking (next : TxJob)
  | refusing (next : TxJob) (e : RpcError)
  /-- The attempts still to drop, and the receipt, if one was found. -/
  | closing (ids : List JobId) (receipt : Option (Tx × Bool))

structure Wait where
  /-- What `wait` was called with. -/
  job : TxJob
  current : TxJob
  stage : Watch

structure State where
  jobs : List TxJob
  nextNonce : Option Nat
  submit : Option Submit
  waits : Nat → Option Wait
  /-- Jobs this process was given, by `submit` or `openJobs`. -/
  handed : List TxJob
  /-- How often `submit` has been called. -/
  requests : Nat
  /-- Transactions of the key some node has taken. -/
  known : List Tx
  /-- Mined transactions in order of their nonce, and whether they succeeded. -/
  mined : List (Tx × Bool)

namespace State

variable (s : State)

def setStatus (id : JobId) (status : TxJobStatus) : State := { s with jobs := TxSender.setStatus id status s.jobs }

/-- A signed attempt is persisted, PENDING. -/
def signAndPersist (request : Nat) (tx : Tx) : State :=
  { s with jobs := s.jobs ++ [⟨s.jobs.length, request, tx, .pending⟩] }

/-- The job `signAndPersist` adds. -/
def signed (request : Nat) (tx : Tx) : TxJob := ⟨s.jobs.length, request, tx, .pending⟩

/-- A broadcast reaches a node or not, whatever is answered. -/
def broadcast (tx : Tx) (taken : Bool) : State := { s with known := if taken = true then tx :: s.known else s.known }

def setWait (w : Nat) (x : Option Wait) : State := { s with waits := update s.waits w x }

/-- The open attempts at a nonce but one. -/
def others (nonce : Nat) (id : Option JobId) : List JobId :=
  ((byNonce nonce s.jobs).filter fun j => decide (some j.id ≠ id) && j.status.open_).map (·.id)

end State

/-! ## Steps -/

inductive Act where
  | request (call : Call) (gasLimit : Nat)
  | count (pending : Nat)
  | scan
  | sign (baseFee : Option Nat)
  | send (reply : Option RpcError) (taken : Bool)
  | mark
  | refuse
  | abort
  | restart
  | resume (job : TxJob)
  | wait (w : Nat) (job : TxJob)
  | bump (w : Nat) (baseFee : Option Nat)
  | supersede (w : Nat)
  | resend (w : Nat) (reply : Option RpcError) (taken : Bool)
  | bumped (w : Nat)
  | bumpRefused (w : Nat)
  | rebroadcast (w : Nat) (reply : Option RpcError) (taken : Bool)
  | found (w : Nat) (job : TxJob) (ok : Bool)
  | taken (w : Nat)
  | drop (w : Nat)
  | returned (w : Nat) (job : TxJob) (receipt : Tx × Bool)
  | throw (w : Nat)
  | close (id : JobId) (status : TxJobStatus)
  | deliver (tx : Tx)
  | mine (tx : Tx) (ok : Bool)

inductive Step (opts : TxSenderOptions) : State → Act → State → Prop where
  -- `submit`
  | request {s : State} {call : Call} {gasLimit : Nat} (hidle : s.submit = none) :
      Step opts s (.request call gasLimit)
        { s with submit := some ⟨s.requests, call, gasLimit, 0, .counting⟩, requests := s.requests + 1 }
  | count {s : State} {f : Submit} {pending : Nat} (hf : s.submit = some f) (hstage : f.stage = .counting) :
      Step opts s (.count pending)
        { s with
          nextNonce := (counted s.nextNonce pending).1
          submit := some { f with stage := (counted s.nextNonce pending).2 } }
  | scan {s : State} {f : Submit} {pending next : Nat} (hf : s.submit = some f) (hstage : f.stage = .scanning pending)
      (hnext : s.nextNonce = some next) :
      Step opts s .scan { s with submit := some { f with stage := .signing (scanned s.jobs pending next) } }
  | sign {s : State} {f : Submit} {nonce : Nat} {baseFee : Option Nat} {tx : Tx} (hf : s.submit = some f)
      (hstage : f.stage = .signing nonce)
      (htx : tx = ⟨nonce, f.call, f.gasLimit, (initialFees baseFee opts.minBaseFee).maxFeePerGas,
        (initialFees baseFee opts.minBaseFee).maxPriorityFeePerGas⟩) :
      Step opts s (.sign baseFee)
        { s.signAndPersist f.request tx with submit := some { f with stage := .sending (s.signed f.request tx) } }
  | send {s : State} {f : Submit} {j : TxJob} {reply : Option RpcError} {taken : Bool} (hf : s.submit = some f)
      (hstage : f.stage = .sending j) :
      Step opts s (.send reply taken) { s.broadcast j.tx taken with
        submit := some { f with stage := match refusal reply with | none => .marking j | some e => .refusing j e } }
  | mark {s : State} {f : Submit} {j : TxJob} (hf : s.submit = some f) (hstage : f.stage = .marking j) :
      Step opts s .mark { s.setStatus j.id .submitted with
        nextNonce := advanced s.nextNonce j.tx.nonce
        submit := none
        handed := j :: s.handed }
  | refuse {s : State} {f : Submit} {j : TxJob} {e : RpcError} (hf : s.submit = some f)
      (hstage : f.stage = .refusing j e) :
      Step opts s .refuse
        (if e.nonceTooLow = true ∧ f.attempt < 2 then { s.setStatus j.id e.status with
            nextNonce := none, submit := some { f with attempt := f.attempt + 1, stage := .counting } }
        else { s.setStatus j.id e.status with submit := none })
  | abort {s : State} : Step opts s .abort { s with submit := none }
  -- The process
  | restart {s : State} :
      Step opts s .restart { s with nextNonce := none, submit := none, waits := fun _ => none, handed := [] }
  | resume {s : State} {j : TxJob} (hidle : s.submit = none) (hj : j ∈ openJobs s.jobs) :
      Step opts s (.resume j) { s with handed := j :: s.handed }
  -- `wait`
  | wait {s : State} {w : Nat} {j : TxJob} (hw : s.waits w = none) (hj : j ∈ s.handed) :
      Step opts s (.wait w j) (s.setWait w (some ⟨j, j, .watching⟩))
  | bump {s : State} {w : Nat} {j c : TxJob} {baseFee : Option Nat} {fees : Fees} {tx : Tx}
      (hw : s.waits w = some ⟨j, c, .watching⟩) (hfees : replaceFees opts c.tx baseFee = some fees)
      (htx : tx = { c.tx with
        maxFeePerGas := fees.maxFeePerGas, maxPriorityFeePerGas := fees.maxPriorityFeePerGas }) :
      Step opts s (.bump w baseFee)
        ((s.signAndPersist c.request tx).setWait w (some ⟨j, c, .replacing (s.signed c.request tx)⟩))
  | supersede {s : State} {w : Nat} {j c n : TxJob} (hw : s.waits w = some ⟨j, c, .replacing n⟩) :
      Step opts s (.supersede w) ((s.setStatus c.id .replaced).setWait w (some ⟨j, c, .resending n⟩))
  | resend {s : State} {w : Nat} {j c n : TxJob} {reply : Option RpcError} {taken : Bool}
      (hw : s.waits w = some ⟨j, c, .resending n⟩) :
      Step opts s (.resend w reply taken) ((s.broadcast n.tx taken).setWait w
        (some ⟨j, c, match refusal reply with | none => .marking n | some e => .refusing n e⟩))
  | bumped {s : State} {w : Nat} {j c n : TxJob} (hw : s.waits w = some ⟨j, c, .marking n⟩) :
      Step opts s (.bumped w) ((s.setStatus n.id .submitted).setWait w (some ⟨j, n, .watching⟩))
  | bumpRefused {s : State} {w : Nat} {j c n : TxJob} {e : RpcError} (hw : s.waits w = some ⟨j, c, .refusing n e⟩) :
      Step opts s (.bumpRefused w) ((s.setStatus n.id e.status).setWait w
        (if e.expected = true then some ⟨j, n, .watching⟩ else none))
  | rebroadcast {s : State} {w : Nat} {j c : TxJob} {reply : Option RpcError} {taken : Bool}
      (hw : s.waits w = some ⟨j, c, .watching⟩) :
      Step opts s (.rebroadcast w reply taken) ((s.broadcast c.tx taken).setWait w
        (if (refusal reply).all (·.expected) = true then some ⟨j, c, .watching⟩ else none))
  | found {s : State} {w : Nat} {j c k : TxJob} {ok : Bool} (hw : s.waits w = some ⟨j, c, .watching⟩)
      (hk : k ∈ byNonce c.tx.nonce s.jobs) (hreceipt : (k.tx, ok) ∈ s.mined) :
      Step opts s (.found w k ok) ((s.setStatus k.id (if ok = true then .confirmed else .reverted)).setWait w
        (some ⟨j, c, .closing (s.others c.tx.nonce (some k.id)) (some (k.tx, ok))⟩))
  | taken {s : State} {w : Nat} {j c : TxJob} (hw : s.waits w = some ⟨j, c, .watching⟩) :
      Step opts s (.taken w) (s.setWait w (some ⟨j, c, .closing (s.others c.tx.nonce none) none⟩))
  | drop {s : State} {w : Nat} {j c : TxJob} {id : JobId} {ids : List JobId} {receipt : Option (Tx × Bool)}
      (hw : s.waits w = some ⟨j, c, .closing (id :: ids) receipt⟩) :
      Step opts s (.drop w) ((s.setStatus id .dropped).setWait w (some ⟨j, c, .closing ids receipt⟩))
  | returned {s : State} {w : Nat} {j c : TxJob} {receipt : Tx × Bool}
      (hw : s.waits w = some ⟨j, c, .closing [] (some receipt)⟩) :
      Step opts s (.returned w j receipt) (s.setWait w none)
  | throw {s : State} {w : Nat} : Step opts s (.throw w) (s.setWait w none)
  -- The reconciler, other holders of the key and the chain
  | close {s : State} {j : TxJob} {status : TxJobStatus} (hj : j ∈ openJobs s.jobs) (hclosed : status.open_ = false) :
      Step opts s (.close j.id status) (s.setStatus j.id status)
  | deliver {s : State} {tx : Tx} : Step opts s (.deliver tx) (s.broadcast tx true)
  | mine {s : State} {tx : Tx} {ok : Bool} (hknown : tx ∈ s.known) (hnonce : tx.nonce = s.mined.length) :
      Step opts s (.mine tx ok) { s with mined := s.mined ++ [(tx, ok)] }

/-- A key's first process, before it has sent anything. -/
structure State.Initial (s : State) : Prop where
  jobs : s.jobs = []
  submit : s.submit = none
  waits : ∀ w, s.waits w = none
  handed : s.handed = []
  requests : s.requests = 0
  mined : s.mined.map (·.1.nonce) = List.range s.mined.length

def machine (opts : TxSenderOptions) : Machine State Act := ⟨State.Initial, Step opts⟩

/-! ## Rows -/

theorem mem_openJobs {jobs : List TxJob} {j : TxJob} : j ∈ openJobs jobs ↔ j ∈ jobs ∧ j.status.open_ = true := by
  simp [openJobs]

theorem mem_byNonce {jobs : List TxJob} {j : TxJob} {nonce : Nat} :
    j ∈ byNonce nonce jobs ↔ j ∈ jobs ∧ j.tx.nonce = nonce := by
  simp [byNonce]

theorem setStatus_ids (id : JobId) (status : TxJobStatus) (jobs : List TxJob) :
    (setStatus id status jobs).map (·.id) = jobs.map (·.id) := by
  rw [setStatus, List.map_map]
  refine List.map_congr_left fun j _ => ?_
  simp only [Function.comp_apply]
  split <;> rfl

theorem mem_setStatus {id : JobId} {status : TxJobStatus} {jobs : List TxJob} {k : TxJob}
    (h : k ∈ setStatus id status jobs) : ∃ j ∈ jobs, j.id = k.id ∧ j.request = k.request ∧ j.tx = k.tx ∧
      (k.status = j.status ∨ k.id = id ∧ k.status = status) := by
  obtain ⟨j, hj, rfl⟩ := List.mem_map.1 h
  split
  · next hid => exact ⟨j, hj, rfl, rfl, rfl, Or.inr ⟨hid, rfl⟩⟩
  · exact ⟨j, hj, rfl, rfl, rfl, Or.inl rfl⟩

theorem setStatus_status {id : JobId} {status : TxJobStatus} {jobs : List TxJob} {k : TxJob}
    (h : k ∈ setStatus id status jobs) (hid : k.id = id) : k.status = status := by
  obtain ⟨j, -, rfl⟩ := List.mem_map.1 h
  split at hid
  · next hj => rw [if_pos hj]
  · next hj => exact absurd hid hj

theorem RpcError.status_closed (e : RpcError) : e.status.open_ = false := by
  unfold RpcError.status
  split <;> rfl

theorem setStatus_mem (id : JobId) (status : TxJobStatus) {jobs : List TxJob} {j : TxJob} (h : j ∈ jobs) :
    ∃ k ∈ setStatus id status jobs, k.id = j.id ∧ k.request = j.request ∧ k.tx = j.tx := by
  refine ⟨_, List.mem_map_of_mem h, ?_⟩
  split <;> exact ⟨rfl, rfl, rfl⟩

end Kryon.TxSender
