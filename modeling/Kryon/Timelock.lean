import Kryon.World
import Kryon.Lib.Transition
/-!
# Timelock — governance's delay, and the guardian's veto over it

`KryonTimelock` extends OpenZeppelin's `TimelockController`, which is not part of this repository: its functions are the
parameter `Controller`, and `Controller.Documented` states what its documentation says they do.  An execution is not one
step: it begins, makes its calls one by one, and finishes, and anything may be called in between.  A call by the timelock
itself is always the next call of the operation that began last.
-/
namespace Kryon

open Program Transition
open Function (update)

inductive TimelockRole where
  | defaultAdmin
  | proposer
  | executor
  | canceller
  | pauser
  deriving DecidableEq

structure TimelockCall where
  target : Address
  value : Nat
  payload : Bytes

/-- What `schedule` and `scheduleBatch` queue. -/
inductive Operation where
  | single (call : TimelockCall) (predecessor salt : Bytes32)
  | batch (calls : List TimelockCall) (predecessor salt : Bytes32)

namespace Operation

def calls : Operation → List TimelockCall
  | .single call _ _ => [call]
  | .batch calls _ _ => calls

def predecessor : Operation → Bytes32
  | .single _ predecessor _ | .batch _ predecessor _ => predecessor

def salt : Operation → Bytes32
  | .single _ _ salt | .batch _ _ salt => salt

end Operation

/-- OpenZeppelin's storage: when an operation becomes ready (zero if unset, `DONE_TIMESTAMP` once executed), the
configured delay and the roles. -/
structure ControllerStorage where
  timestamps : Bytes32 → Nat
  minDelay : Nat
  roles : TimelockRole → Address → Bool

def DONE_TIMESTAMP : Nat := 1

namespace ControllerStorage

def isOperationPending (s : ControllerStorage) (id : Bytes32) : Prop := DONE_TIMESTAMP < s.timestamps id

def isOperationReady (s : ControllerStorage) (now : Nat) (id : Bytes32) : Prop :=
  s.isOperationPending id ∧ s.timestamps id ≤ now

def isOperationDone (s : ControllerStorage) (id : Bytes32) : Prop := s.timestamps id = DONE_TIMESTAMP

instance (s : ControllerStorage) (id : Bytes32) : Decidable (s.isOperationPending id) :=
  inferInstanceAs (Decidable (DONE_TIMESTAMP < s.timestamps id))

instance (s : ControllerStorage) (now : Nat) (id : Bytes32) : Decidable (s.isOperationReady now id) :=
  inferInstanceAs (Decidable (_ ∧ _))

instance (s : ControllerStorage) (id : Bytes32) : Decidable (s.isOperationDone id) :=
  inferInstanceAs (Decidable (s.timestamps id = DONE_TIMESTAMP))

end ControllerStorage

/-- The functions of OpenZeppelin's `TimelockController`, deployed at `self`.  `schedule` reads the minimum delay through
the overridable getter; `beforeCall` and `afterCall` are what an execution checks before its first call and after its
last. -/
structure Controller where
  self : Address
  hashOperation : Operation → Bytes32
  construct : (minDelay : Nat) → (proposers executors : List Address) → ControllerStorage
  grantRole : ControllerStorage → TimelockRole → Address → ControllerStorage
  changeRole : ControllerStorage → (sender : Address) → TimelockRole → Address → (held : Bool) →
    Except Error ControllerStorage
  schedule : ControllerStorage → (now : Nat) → (sender : Address) → (minDelay : Nat) → Operation → (delay : Nat) →
    Except Error ControllerStorage
  cancel : ControllerStorage → (now : Nat) → (sender : Address) → Bytes32 → Except Error ControllerStorage
  beforeCall : ControllerStorage → (now : Nat) → (sender : Address) → Operation → Except Error Unit
  afterCall : ControllerStorage → (now : Nat) → Bytes32 → Except Error ControllerStorage
  updateDelay : ControllerStorage → (sender : Address) → Nat → Except Error ControllerStorage

/-- What OpenZeppelin documents of the functions. -/
structure Controller.Documented (C : Controller) : Prop where
  /-- The salt tells otherwise identical operations apart. -/
  salt : ∀ op op', C.hashOperation op = C.hashOperation op' → op.salt = op'.salt
  construct : ∀ minDelay proposers executors, C.construct minDelay proposers executors = {
    timestamps := fun _ => 0
    minDelay := minDelay
    roles := fun r a =>
      match r with
      | .defaultAdmin => decide (a = C.self)
      | .proposer | .canceller => decide (a ∈ proposers)
      | .executor => decide (a ∈ executors)
      | .pauser => false }
  grantRole : ∀ s r a, C.grantRole s r a = { s with roles := update s.roles r (update (s.roles r) a true) }
  /-- Roles are granted and revoked by the admin, and renounced by their holder. -/
  changeRole : ∀ s sender r a held s', C.changeRole s sender r a held = .ok s' →
    (s.roles .defaultAdmin sender = true ∨ sender = a ∧ held = false) ∧
      s' = { s with roles := update s.roles r (update (s.roles r) a held) }
  schedule : ∀ s now sender minDelay op delay s', C.schedule s now sender minDelay op delay = .ok s' ↔
    s.roles .proposer sender = true ∧ s.timestamps (C.hashOperation op) = 0 ∧ minDelay ≤ delay ∧
      now + delay < 2 ^ 256 ∧ s' = { s with timestamps := update s.timestamps (C.hashOperation op) (now + delay) }
  cancel : ∀ s now sender id s', C.cancel s now sender id = .ok s' ↔
    s.roles .canceller sender = true ∧ s.isOperationPending id ∧
      s' = { s with timestamps := update s.timestamps id 0 }
  beforeCall : ∀ s now sender op u, C.beforeCall s now sender op = .ok u ↔
    (s.roles .executor sender = true ∨ s.roles .executor 0 = true) ∧ s.isOperationReady now (C.hashOperation op) ∧
      (op.predecessor = 0 ∨ s.isOperationDone op.predecessor)
  afterCall : ∀ s now id s', C.afterCall s now id = .ok s' ↔
    s.isOperationReady now id ∧ s' = { s with timestamps := update s.timestamps id DONE_TIMESTAMP }
  updateDelay : ∀ s sender newDelay s', C.updateDelay s sender newDelay = .ok s' ↔
    sender = C.self ∧ s' = { s with minDelay := newDelay }

/-- The timelock's external functions; `execute` and `executeBatch` are one, as are `schedule` and `scheduleBatch`, and
the three that change a role. -/
inductive TimelockTx where
  | pauseExecution
  | unpauseExecution
  | updateDelay (newDelay : Nat)
  | schedule (op : Operation) (delay : Nat)
  | cancel (id : Bytes32)
  | changeRole (r : TimelockRole) (account : Address) (held : Bool)
  | execute (op : Operation)

/-- The compiler's dispatch of call data to the timelock's functions; `none` is a call that writes nothing. -/
structure Dispatch where
  decode : Bytes → Option TimelockTx
  /-- `this.unpauseExecution.selector`. -/
  unpauseSelector : Bytes
  selector_length : unpauseSelector.length = 4
  decode_unpause : ∀ payload, payload.take 4 = unpauseSelector → decode payload = some .unpauseExecution

/-- An operation that has begun, and the calls it has still to make. -/
structure Frame where
  id : Bytes32
  calls : List TimelockCall

/-- The timelock between two of its steps; `running` is the operations that have begun, the last one first. -/
structure Timelock where
  now : Nat
  vetoUntil : Nat
  controller : ControllerStorage
  running : List Frame

namespace KryonTimelock

def MIN_SAFE_DELAY : Nat := 48 * 3600
def VETO_DURATION : Nat := 7 * 86400
def VETO_COOLDOWN : Nat := 3 * 86400

variable (C : Controller) (d : Dispatch)

def construct (now minDelay : Nat) (proposers executors : List Address) (guardian : Address) :
    Except Error Timelock := do
  let s := C.construct minDelay proposers executors
  revertIf (minDelay < MIN_SAFE_DELAY) .invalidConfig
  revertIf (guardian = 0) .zeroAddress
  pure ⟨now, 0, C.grantRole s .pauser guardian, []⟩

def executionPaused (t : Timelock) : Bool := decide (t.now < t.vetoUntil)

def vetoCooldownEndsAt (t : Timelock) : Nat := if t.vetoUntil = 0 then 0 else t.vetoUntil + VETO_COOLDOWN

/-- The guardian's veto: it cannot be renewed while active or in the cooldown of the last one. -/
def pauseExecution (t : Timelock) (sender : Address) : Except Error Timelock := do
  revertIf (t.controller.roles .pauser sender = false) .accessControlUnauthorizedAccount
  revertIf (t.vetoUntil ≠ 0 ∧ t.now < vetoCooldownEndsAt t) .vetoCooldownActive
  pure { t with vetoUntil := t.now + VETO_DURATION }

/-- Ends an active veto now; without one it does nothing. -/
def unpauseExecution (t : Timelock) (sender : Address) : Except Error Timelock := do
  revertIf (sender ≠ C.self) .unauthorized
  if executionPaused t = false then pure t else pure { t with vetoUntil := t.now }

def getMinDelay (t : Timelock) : Nat :=
  let configured := t.controller.minDelay
  if configured < MIN_SAFE_DELAY then MIN_SAFE_DELAY else configured

def updateDelay (t : Timelock) (sender : Address) (newDelay : Nat) : Except Error Timelock := do
  revertIf (newDelay < MIN_SAFE_DELAY) .invalidConfig
  let s ← C.updateDelay t.controller sender newDelay
  pure { t with controller := s }

def isUnpauseCall (call : TimelockCall) : Bool :=
  decide (call.target = C.self ∧ call.payload.length = 4 ∧ call.payload.take 4 = d.unpauseSelector)

/-- The veto's gate: it blocks every batch, and every single call but the one that can lift it. -/
def gate (t : Timelock) : Operation → Except Error Unit
  | .single call _ _ => revertIf (executionPaused t = true ∧ isUnpauseCall C d call = false) .executionPaused
  | .batch _ _ _ => revertIf (executionPaused t = true) .executionPaused

/-- `execute` and `executeBatch` up to the first call. -/
def execute (t : Timelock) (sender : Address) (op : Operation) : Except Error Timelock := do
  gate C d t op
  C.beforeCall t.controller t.now sender op
  pure { t with running := ⟨C.hashOperation op, op.calls⟩ :: t.running }

def schedule (t : Timelock) (sender : Address) (op : Operation) (delay : Nat) : Except Error Timelock := do
  let s ← C.schedule t.controller t.now sender (getMinDelay t) op delay
  pure { t with controller := s }

def cancel (t : Timelock) (sender : Address) (id : Bytes32) : Except Error Timelock := do
  let s ← C.cancel t.controller t.now sender id
  pure { t with controller := s }

def changeRole (t : Timelock) (sender : Address) (r : TimelockRole) (account : Address) (held : Bool) :
    Except Error Timelock := do
  let s ← C.changeRole t.controller sender r account held
  pure { t with controller := s }

def exec (t : Timelock) (sender : Address) : TimelockTx → Except Error Timelock
  | .pauseExecution => pauseExecution t sender
  | .unpauseExecution => unpauseExecution C t sender
  | .updateDelay newDelay => updateDelay C t sender newDelay
  | .schedule op delay => schedule C t sender op delay
  | .cancel id => cancel C t sender id
  | .changeRole r account held => changeRole C t sender r account held
  | .execute op => execute C d t sender op

/-- The function of the timelock itself that a call of an operation reaches, if any. -/
def selfCall (call : TimelockCall) : Option TimelockTx := if call.target = C.self then d.decode call.payload else none

inductive Label where
  | call (sender : Address) (tx : TimelockTx)
  /-- The next call of the operation that began last, and the function of the timelock it reaches. -/
  | next (inner : Option TimelockTx)
  | finish (id : Bytes32)
  | wait (seconds : Nat)

/-- The function of the timelock a step calls. -/
def Label.tx : Label → Option TimelockTx
  | .call _ tx => some tx
  | .next inner => inner
  | .finish _ | .wait _ => none

inductive Step (t : Timelock) : Label → Timelock → Prop where
  | call {sender : Address} {tx : TimelockTx} {t' : Timelock} (hs : sender ≠ C.self)
      (h : exec C d t sender tx = .ok t') : Step t (.call sender tx) t'
  | inner {id : Bytes32} {c : TimelockCall} {calls : List TimelockCall} {rest : List Frame} {tx : TimelockTx}
      {t' : Timelock} (hr : t.running = ⟨id, c :: calls⟩ :: rest) (hc : selfCall C d c = some tx)
      (h : exec C d { t with running := ⟨id, calls⟩ :: rest } C.self tx = .ok t') : Step t (.next (some tx)) t'
  | outer {id : Bytes32} {c : TimelockCall} {calls : List TimelockCall} {rest : List Frame}
      (hr : t.running = ⟨id, c :: calls⟩ :: rest) (hc : selfCall C d c = none) :
      Step t (.next none) { t with running := ⟨id, calls⟩ :: rest }
  | finish {id : Bytes32} {rest : List Frame} {s : ControllerStorage} (hr : t.running = ⟨id, []⟩ :: rest)
      (h : C.afterCall t.controller t.now id = .ok s) :
      Step t (.finish id) { t with controller := s, running := rest }
  | wait (seconds : Nat) (hr : t.running = []) : Step t (.wait seconds) { t with now := t.now + seconds }

/-- The timelock from any construction the contract accepts. -/
def machine : Machine Timelock Label where
  init t := ∃ now minDelay proposers executors guardian, 0 < now ∧
    construct C now minDelay proposers executors guardian = .ok t
  step := Step C d

end KryonTimelock
end Kryon
