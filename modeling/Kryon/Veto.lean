import Kryon.Timelock
import Kryon.Lib.Latch
/-!
# Veto — what the guardian can stop at the timelock, and what escapes it

The veto is a latch (`Latch`): `pauseExecution` arms it, `unpauseExecution` releases it, and no other function touches
it.
-/
namespace Kryon.KryonTimelock

open Program Transition Latch
open Function (update)

variable {C : Controller} {d : Dispatch} {t t' : Timelock} {l : Label}

def veto (t : Timelock) : Reading := ⟨t.now, t.vetoUntil⟩

/-! ## What a step does to the veto -/

def TimelockTx.vetoes : TimelockTx → Bool
  | .pauseExecution => true
  | _ => false

/-- Whether a step is a veto. -/
def Label.vetoes (l : Label) : Bool := l.tx.any TimelockTx.vetoes

theorem vetoes_iff : l.vetoes = true ↔ l.tx = some .pauseExecution := by
  unfold Label.vetoes
  cases l.tx with
  | none => simp
  | some tx => cases tx <;> simp [TimelockTx.vetoes]

theorem vetoes_eq_false : l.vetoes = false ↔ l.tx ≠ some .pauseExecution := by
  rw [← Bool.not_eq_true, not_iff_not, vetoes_iff]

theorem exec_turn {sender : Address} {tx : TimelockTx} (h : exec C d t sender tx = .ok t') :
    Turn VETO_DURATION VETO_COOLDOWN (veto t) (TimelockTx.vetoes tx) (veto t') := by
  cases tx with
  | pauseExecution =>
    simp only [exec, pauseExecution, bind_ok_iff, revertIf_ok, exists_const, pure_ok, not_and, not_lt] at h
    obtain ⟨-, hcool, rfl⟩ := h
    refine Turn.arm (r := veto t) ?_
    by_cases hzero : t.vetoUntil = 0
    · exact Or.inl hzero
    · have hends := hcool hzero
      rw [vetoCooldownEndsAt, if_neg hzero] at hends
      exact Or.inr hends
  | unpauseExecution =>
    simp only [exec, unpauseExecution, bind_ok_iff, revertIf_ok, exists_const] at h
    obtain ⟨-, h⟩ := h
    split at h
    · rw [pure_ok] at h
      subst h
      exact Turn.idle_of_eq (le_refl _) rfl
    · rename_i hactive
      rw [pure_ok] at h
      subst h
      have hheld : t.now < t.vetoUntil := by simpa [executionPaused] using hactive
      exact Turn.release (r := veto t) hheld
  | updateDelay newDelay =>
    simp only [exec, updateDelay, bind_ok_iff, pure_ok] at h
    obtain ⟨-, -, s, -, rfl⟩ := h
    exact Turn.idle_of_eq (le_refl _) rfl
  | schedule op delay =>
    simp only [exec, schedule, bind_ok_iff, pure_ok] at h
    obtain ⟨s, -, rfl⟩ := h
    exact Turn.idle_of_eq (le_refl _) rfl
  | cancel id =>
    simp only [exec, cancel, bind_ok_iff, pure_ok] at h
    obtain ⟨s, -, rfl⟩ := h
    exact Turn.idle_of_eq (le_refl _) rfl
  | changeRole r account held =>
    simp only [exec, changeRole, bind_ok_iff, pure_ok] at h
    obtain ⟨s, -, rfl⟩ := h
    exact Turn.idle_of_eq (le_refl _) rfl
  | execute op =>
    simp only [exec, execute, bind_ok_iff, pure_ok] at h
    obtain ⟨-, -, -, -, rfl⟩ := h
    exact Turn.idle_of_eq (le_refl _) rfl

/-- **The veto is a latch**, whatever is scheduled, executed or called in between. -/
theorem veto_latched (C : Controller) (d : Dispatch) :
    Latched (machine C d) VETO_DURATION VETO_COOLDOWN veto Label.vetoes := by
  intro t l t' h
  cases h with
  | call _ h => exact exec_turn h
  | inner _ _ h =>
    have hturn := exec_turn h
    exact hturn
  | outer _ _ => exact Turn.idle_of_eq (le_refl _) rfl
  | finish _ _ => exact Turn.idle_of_eq (le_refl _) rfl
  | wait seconds _ => exact Turn.idle_of_eq (Nat.le_add_right _ seconds) rfl

theorem construct_ok {now minDelay : Nat} {proposers executors : List Address} {guardian : Address} :
    construct C now minDelay proposers executors guardian = .ok t ↔ MIN_SAFE_DELAY ≤ minDelay ∧ guardian ≠ 0 ∧
      ⟨now, 0, C.grantRole (C.construct minDelay proposers executors) .pauser guardian, []⟩ = t := by
  simp only [construct, bind_ok_iff, revertIf_ok, exists_const, pure_ok, not_lt]

theorem init_veto (h : (machine C d).init t) : 0 < t.now ∧ t.vetoUntil = 0 := by
  obtain ⟨now, minDelay, proposers, executors, guardian, hnow, h⟩ := h
  obtain ⟨-, -, rfl⟩ := construct_ok.1 h
  exact ⟨hnow, rfl⟩

theorem reachable_now_pos (h : Reachable (machine C d) t) : 0 < t.now := by
  refine h.invariant (fun t => 0 < t.now) (fun _ ht => (init_veto ht).1) ?_
  intro t l t' _ hpos hstep
  exact lt_of_lt_of_le hpos (veto_latched C d t l t' hstep).now_le

/-! ## The delay -/

theorem le_getMinDelay (t : Timelock) : MIN_SAFE_DELAY ≤ getMinDelay t := by
  simp only [getMinDelay]
  split
  · exact le_refl _
  · exact le_of_not_gt ‹_›

theorem getMinDelay_eq (h : MIN_SAFE_DELAY ≤ t.controller.minDelay) : getMinDelay t = t.controller.minDelay :=
  if_neg (not_lt.2 h)

theorem exec_minDelay (hdoc : C.Documented) {sender : Address} {tx : TimelockTx}
    (h : exec C d t sender tx = .ok t') (hle : MIN_SAFE_DELAY ≤ t.controller.minDelay) :
    MIN_SAFE_DELAY ≤ t'.controller.minDelay := by
  cases tx with
  | pauseExecution =>
    simp only [exec, pauseExecution, bind_ok_iff, revertIf_ok, exists_const, pure_ok] at h
    obtain ⟨-, -, rfl⟩ := h
    exact hle
  | unpauseExecution =>
    simp only [exec, unpauseExecution, bind_ok_iff, revertIf_ok, exists_const] at h
    obtain ⟨-, h⟩ := h
    split at h
    all_goals
      rw [pure_ok] at h
      subst h
      exact hle
  | updateDelay newDelay =>
    simp only [exec, updateDelay, bind_ok_iff, revertIf_ok, exists_const, pure_ok, not_lt] at h
    obtain ⟨hnew, s, hs, rfl⟩ := h
    obtain ⟨-, rfl⟩ := (hdoc.updateDelay _ _ _ _).1 hs
    exact hnew
  | schedule op delay =>
    simp only [exec, schedule, bind_ok_iff, pure_ok] at h
    obtain ⟨s, hs, rfl⟩ := h
    obtain ⟨-, -, -, -, rfl⟩ := (hdoc.schedule _ _ _ _ _ _ _).1 hs
    exact hle
  | cancel id =>
    simp only [exec, cancel, bind_ok_iff, pure_ok] at h
    obtain ⟨s, hs, rfl⟩ := h
    obtain ⟨-, -, rfl⟩ := (hdoc.cancel _ _ _ _ _).1 hs
    exact hle
  | changeRole r account held =>
    simp only [exec, changeRole, bind_ok_iff, pure_ok] at h
    obtain ⟨s, hs, rfl⟩ := h
    obtain ⟨-, rfl⟩ := hdoc.changeRole _ _ _ _ _ _ hs
    exact hle
  | execute op =>
    simp only [exec, execute, bind_ok_iff, pure_ok] at h
    obtain ⟨-, -, -, -, rfl⟩ := h
    exact hle

/-- **The configured delay is never below 48 hours.** -/
theorem reachable_minDelay (hdoc : C.Documented) (h : Reachable (machine C d) t) :
    MIN_SAFE_DELAY ≤ t.controller.minDelay := by
  refine h.invariant (fun t => MIN_SAFE_DELAY ≤ t.controller.minDelay) ?_ ?_
  · rintro t ⟨now, minDelay, proposers, executors, guardian, -, h⟩
    obtain ⟨hle, -, rfl⟩ := construct_ok.1 h
    rw [hdoc.grantRole, hdoc.construct]
    exact hle
  · intro t l t' _ hle hstep
    cases hstep with
    | call _ h => exact exec_minDelay hdoc h hle
    | inner _ _ h => exact exec_minDelay hdoc h hle
    | outer _ _ => exact hle
    | finish _ h =>
      obtain ⟨-, rfl⟩ := (hdoc.afterCall _ _ _ _).1 h
      exact hle
    | wait _ _ => exact hle

theorem step_exec {tx : TimelockTx} (h : Step C d t l t') (htx : l.tx = some tx) :
    ∃ sender running, exec C d { t with running := running } sender tx = .ok t' := by
  cases h with
  | call _ h =>
    obtain rfl := Option.some.inj htx
    exact ⟨_, t.running, h⟩
  | inner _ _ h =>
    obtain rfl := Option.some.inj htx
    exact ⟨_, _, h⟩
  | outer _ _ => exact absurd htx (by simp [Label.tx])
  | finish _ _ => exact absurd htx (by simp [Label.tx])
  | wait _ _ => exact absurd htx (by simp [Label.tx])

theorem step_schedule (hdoc : C.Documented) {op : Operation} {delay : Nat} (h : Step C d t l t')
    (htx : l.tx = some (.schedule op delay)) : t.controller.timestamps (C.hashOperation op) = 0 ∧
      getMinDelay t ≤ delay ∧ t.now + delay < 2 ^ 256 ∧ t'.now = t.now ∧ t'.vetoUntil = t.vetoUntil ∧
      t'.controller.timestamps (C.hashOperation op) = t.now + delay := by
  obtain ⟨sender, running, h⟩ := step_exec h htx
  simp only [exec, schedule, bind_ok_iff, pure_ok] at h
  obtain ⟨s, hs, rfl⟩ := h
  obtain ⟨-, hunset, hdelay, hfits, rfl⟩ := (hdoc.schedule _ _ _ _ _ _ _).1 hs
  exact ⟨hunset, hdelay, hfits, rfl, rfl, Function.update_self _ _ _⟩

theorem isUnpauseCall_iff {c : TimelockCall} :
    isUnpauseCall C d c = true ↔ c.target = C.self ∧ c.payload = d.unpauseSelector := by
  simp only [isUnpauseCall, decide_eq_true_eq]
  constructor
  · rintro ⟨htarget, hlen, htake⟩
    rw [List.take_of_length_le (le_of_eq hlen)] at htake
    exact ⟨htarget, htake⟩
  · rintro ⟨htarget, hpayload⟩
    have hlen : c.payload.length = 4 := by rw [hpayload, d.selector_length]
    exact ⟨htarget, hlen, by rw [List.take_of_length_le (le_of_eq hlen), hpayload]⟩

theorem gate_ok {op : Operation} (hactive : executionPaused t = true) (h : gate C d t op = .ok ()) :
    ∃ value predecessor salt, op = .single ⟨C.self, value, d.unpauseSelector⟩ predecessor salt := by
  cases op with
  | single c predecessor salt =>
    simp only [gate, revertIf_ok, hactive, true_and, Bool.not_eq_false] at h
    obtain ⟨target, value, payload⟩ := c
    obtain ⟨htarget, hpayload⟩ := isUnpauseCall_iff.1 h
    simp only at htarget hpayload
    subst htarget hpayload
    exact ⟨value, predecessor, salt, rfl⟩
  | batch calls predecessor salt =>
    simp only [gate, revertIf_ok] at h
    exact absurd hactive h

theorem selfCall_unpause (value : Nat) : selfCall C d ⟨C.self, value, d.unpauseSelector⟩ = some .unpauseExecution := by
  unfold selfCall
  rw [if_pos rfl]
  exact d.decode_unpause _ (List.take_of_length_le (le_of_eq d.selector_length))

/-! ## Runs to show -/

section Seats
variable {s : ControllerStorage} {delay : Nat} {a : Address} {op : Operation}

/-- The storage of a timelock with one account as proposer and guardian, and execution open to all. -/
def seated (C : Controller) (delay : Nat) (a : Address) : ControllerStorage :=
  C.grantRole (C.construct delay [a] [0]) .pauser a

structure Seated (s : ControllerStorage) (delay : Nat) (a : Address) : Prop where
  proposer : s.roles .proposer a = true
  pauser : s.roles .pauser a = true
  executor : s.roles .executor 0 = true
  minDelay : s.minDelay = delay

/-- The storage once an operation is scheduled to be ready at a time. -/
def queued (C : Controller) (s : ControllerStorage) (op : Operation) (ready : Nat) : ControllerStorage :=
  { s with timestamps := update s.timestamps (C.hashOperation op) ready }

theorem queued_self (ready : Nat) : (queued C s op ready).timestamps (C.hashOperation op) = ready :=
  Function.update_self _ _ _

theorem queued_of_ne {op' : Operation} (ready : Nat) (h : C.hashOperation op' ≠ C.hashOperation op) :
    (queued C s op ready).timestamps (C.hashOperation op') = s.timestamps (C.hashOperation op') :=
  Function.update_of_ne h _ _

theorem Seated.queued (h : Seated s delay a) (op : Operation) (ready : Nat) : Seated (queued C s op ready) delay a :=
  ⟨h.proposer, h.pauser, h.executor, h.minDelay⟩

theorem Seated.getMinDelay (h : Seated s delay a) (now vetoUntil : Nat) (hd : MIN_SAFE_DELAY ≤ delay) :
    getMinDelay ⟨now, vetoUntil, s, []⟩ = delay := by
  rw [getMinDelay_eq (by rw [h.minDelay]; exact hd)]
  exact h.minDelay

theorem seated_ok (hdoc : C.Documented) (delay : Nat) (a : Address) :
    Seated (seated C delay a) delay a ∧ (seated C delay a).timestamps = fun _ => 0 := by
  rw [seated, hdoc.grantRole, hdoc.construct]
  refine ⟨⟨?_, ?_, ?_, rfl⟩, rfl⟩
  · simp
  · simp
  · simp

theorem step_pauseExecution (now : Nat) (hs : Seated s delay a) (ha : a ≠ C.self) :
    Step C d ⟨now, 0, s, []⟩ (.call a .pauseExecution) ⟨now, now + VETO_DURATION, s, []⟩ := by
  refine Step.call ha ?_
  simp only [exec, pauseExecution, bind_ok_iff, revertIf_ok, exists_const, pure_ok]
  exact ⟨by simp [hs.pauser], by simp⟩

theorem step_schedule_of (hdoc : C.Documented) (now vetoUntil : Nat) (op : Operation) (hs : Seated s delay a)
    (ha : a ≠ C.self) (hd : MIN_SAFE_DELAY ≤ delay) (hunset : s.timestamps (C.hashOperation op) = 0)
    (hfits : now + delay < 2 ^ 256) :
    Step C d ⟨now, vetoUntil, s, []⟩ (.call a (.schedule op delay))
      ⟨now, vetoUntil, queued C s op (now + delay), []⟩ := by
  have hmin := hs.getMinDelay now vetoUntil hd
  refine Step.call ha ?_
  simp only [exec, schedule, bind_ok_iff, pure_ok, hmin]
  exact ⟨_, (hdoc.schedule _ _ _ _ _ _ _).2 ⟨hs.proposer, hunset, le_refl _, hfits, rfl⟩, rfl⟩

/-- A timelock of any delay the constructor accepts, with nothing scheduled. -/
theorem reachable_seated (hd : MIN_SAFE_DELAY ≤ delay) (ha : a ≠ 0) :
    Reachable (machine C d) ⟨1, 0, seated C delay a, []⟩ :=
  ⟨_, [], ⟨1, delay, [a], [0], a, Nat.one_pos, construct_ok.2 ⟨hd, ha, rfl⟩⟩, Run.nil⟩

theorem vetoed_active (now : Nat) (s : ControllerStorage) : executionPaused ⟨now, now + VETO_DURATION, s, []⟩ = true :=
  decide_eq_true (Nat.lt_add_of_pos_right (by decide))

end Seats

/-! ## A controller -/

namespace Sample

/-- A controller that does what is documented; the salt identifies an operation. -/
def controller : Controller where
  self := 100
  hashOperation := Operation.salt
  construct minDelay proposers executors := {
    timestamps := fun _ => 0
    minDelay := minDelay
    roles := fun r a =>
      match r with
      | .defaultAdmin => decide (a = 100)
      | .proposer | .canceller => decide (a ∈ proposers)
      | .executor => decide (a ∈ executors)
      | .pauser => false }
  grantRole s r a := { s with roles := update s.roles r (update (s.roles r) a true) }
  changeRole s sender r a held := do
    revertIf (¬ (s.roles .defaultAdmin sender = true ∨ sender = a ∧ held = false)) .accessControlUnauthorizedAccount
    pure { s with roles := update s.roles r (update (s.roles r) a held) }
  schedule s now sender minDelay op delay := do
    revertIf (s.roles .proposer sender = false) .accessControlUnauthorizedAccount
    revertIf (s.timestamps op.salt ≠ 0) .invalidConfig
    revertIf (delay < minDelay) .invalidConfig
    revertIf (2 ^ 256 ≤ now + delay) .panic
    pure { s with timestamps := update s.timestamps op.salt (now + delay) }
  cancel s _ sender id := do
    revertIf (s.roles .canceller sender = false) .accessControlUnauthorizedAccount
    revertIf (¬ s.isOperationPending id) .invalidConfig
    pure { s with timestamps := update s.timestamps id 0 }
  beforeCall s now sender op := do
    revertIf (s.roles .executor sender = false ∧ s.roles .executor 0 = false) .accessControlUnauthorizedAccount
    revertIf (¬ s.isOperationReady now op.salt) .invalidConfig
    revertIf (op.predecessor ≠ 0 ∧ ¬ s.isOperationDone op.predecessor) .invalidConfig
  afterCall s now id := do
    revertIf (¬ s.isOperationReady now id) .invalidConfig
    pure { s with timestamps := update s.timestamps id DONE_TIMESTAMP }
  updateDelay s sender newDelay := do
    revertIf (sender ≠ 100) .unauthorized
    pure { s with minDelay := newDelay }

theorem documented : controller.Documented where
  salt _ _ h := h
  construct _ _ _ := rfl
  grantRole _ _ _ := rfl
  changeRole s sender r a held s' h := by
    simp only [controller, bind_ok_iff, revertIf_ok, not_not, pure_ok, exists_const] at h
    exact ⟨h.1, h.2.symm⟩
  schedule s now sender minDelay op delay s' := by
    simp only [controller, bind_ok_iff, revertIf_ok, not_not, not_lt, not_le, Bool.not_eq_false, pure_ok,
      exists_const]
    rw [eq_comm (a := s')]
  cancel s now sender id s' := by
    simp only [controller, bind_ok_iff, revertIf_ok, not_not, Bool.not_eq_false, pure_ok, exists_const]
    rw [eq_comm (a := s')]
  beforeCall s now sender op u := by
    simp only [controller, bind_ok_iff, revertIf_ok, not_not, not_and, Bool.not_eq_false, exists_const]
    constructor
    · rintro ⟨hrole, hready, hpred⟩
      refine ⟨?_, hready, ?_⟩
      · cases hs : s.roles .executor sender with
        | true => exact Or.inl rfl
        | false => exact Or.inr (hrole hs)
      · by_cases h0 : op.predecessor = 0
        · exact Or.inl h0
        · exact Or.inr (hpred h0)
    · rintro ⟨hrole, hready, hpred⟩
      refine ⟨fun hs => ?_, hready, fun h0 => hpred.resolve_left h0⟩
      rcases hrole with hrole | hrole
      · rw [hs] at hrole
        exact absurd hrole (by decide)
      · exact hrole
  afterCall s now id s' := by
    simp only [controller, bind_ok_iff, revertIf_ok, not_not, pure_ok, exists_const]
    rw [eq_comm (a := s')]
  updateDelay s sender newDelay s' := by
    simp only [controller, bind_ok_iff, revertIf_ok, not_not, pure_ok, exists_const]
    exact and_congr_right fun _ => eq_comm

def selector : Bytes := [0x85, 0x98, 0x06, 0xcc]

def dispatch : Dispatch where
  decode payload := if payload.take 4 = selector then some .unpauseExecution else none
  unpauseSelector := selector
  selector_length := rfl
  decode_unpause _ h := if_pos h

end Sample

/-! ## The bound -/

/-- A run with the times at which it passed through a vetoed timelock. -/
abbrev VetoedDuring (C : Controller) (d : Dispatch) (t : Timelock) (ls : List Label) (t' : Timelock)
    (H : Set Nat) : Prop :=
  Watched (machine C d) Timelock.now (fun t time => executionPaused { t with now := time } = true) t ls t' H

theorem executionPaused_iff (time : Nat) : executionPaused { t with now := time } = true ↔ time < (veto t).till :=
  decide_eq_true_iff

theorem veto_turn (h : (machine C d).step t l t') (htx : l.tx = some .pauseExecution) :
    Turn VETO_DURATION VETO_COOLDOWN (veto t) true (veto t') := by
  rw [← vetoes_iff.2 htx]
  exact veto_latched C d t l t' h

/-- **A veto lasts at most 7 days and the next one is 3 days away; a lift without a veto does nothing; the delay is never
below 48 hours; and during a veto nothing begins but the one call that lifts it.** -/
theorem veto_bounded (hdoc : C.Documented) {t₀ : Timelock} {ls : List Label} {H : Set Nat}
    (h₀ : Reachable (machine C d) t₀) (h : VetoedDuring C d t₀ ls t H) :
    (∀ v l, (machine C d).step v l t₀ → l.tx = some .pauseExecution → (∀ l ∈ ls, l.tx ≠ some .pauseExecution) →
      (∀ time ∈ H, time < v.now + 7 * 86400) ∧ (executionPaused t = true → t.now < v.now + 7 * 86400)) ∧
    (∀ start length, (∀ time, start ≤ time → time < start + length → time ∈ H) → length ≤ 7 * 86400) ∧
    (∀ l t', (machine C d).step t l t' → l.tx = some .pauseExecution →
      (∀ time ∈ H, time + 3 * 86400 < t.now) ∧ (executionPaused t₀ = true → t₀.now + 3 * 86400 ≤ t.now)) ∧
    (executionPaused t = false → ∀ sender t', unpauseExecution C t sender = .ok t' → t' = t) ∧
    (48 * 3600 ≤ getMinDelay t ∧ 48 * 3600 ≤ t.controller.minDelay ∧
      ∀ l t' op delay, (machine C d).step t l t' → l.tx = some (.schedule op delay) →
        t.now + 48 * 3600 ≤ t'.controller.timestamps (C.hashOperation op)) ∧
    (executionPaused t = true → ∀ l t' op, (machine C d).step t l t' → l.tx = some (.execute op) →
      ∃ value predecessor salt, op = .single ⟨C.self, value, d.unpauseSelector⟩ predecessor salt ∧
        selfCall C d ⟨C.self, value, d.unpauseSelector⟩ = some .unpauseExecution) := by
  have hlatched := veto_latched C d
  have hkept := hlatched.kept h (fun _ _ _ time _ => executionPaused_iff time)
    (hlatched.till_le (fun _ ht => (init_veto ht).2) h₀)
  have hmin := le_getMinDelay t
  refine ⟨?_, ?_, ?_, ?_, ⟨hmin, reachable_minDelay hdoc (h₀.of_run h.run), ?_⟩, ?_⟩
  · intro v l hveto htx hls
    obtain ⟨hle, hH⟩ := hlatched.lasts (veto_turn hveto htx) h (fun _ _ _ time _ => executionPaused_iff time)
      fun l hl => vetoes_eq_false.2 (hls l hl)
    exact ⟨hH, fun hactive => lt_of_lt_of_le (of_decide_eq_true hactive) hle⟩
  · intro start length hstretch
    exact hkept.spaced.stretch_le (by decide) (by decide) hstretch
  · intro l t' hveto htx
    have hturn := veto_turn hveto htx
    refine ⟨hkept.rested hturn.cooled, fun hactive => ?_⟩
    exact hlatched.rests h.run (of_decide_eq_true hactive) (reachable_now_pos h₀) hturn
  · intro hinactive sender t' hlift
    simp only [unpauseExecution, bind_ok_iff, revertIf_ok, exists_const, if_pos hinactive, pure_ok] at hlift
    exact hlift.2.symm
  · intro l t' op delay hstep htx
    obtain ⟨-, hdelay, -, -, -, hready⟩ := step_schedule hdoc hstep htx
    rw [hready]
    exact Nat.add_le_add_left (hmin.trans hdelay) _
  · intro hactive l t' op hstep htx
    obtain ⟨sender, running, hexec⟩ := step_exec hstep htx
    simp only [exec, execute, bind_ok_iff] at hexec
    obtain ⟨u, hgate, -⟩ := hexec
    obtain ⟨value, predecessor, salt, rfl⟩ := gate_ok (t := { t with running := running }) hactive hgate
    exact ⟨value, predecessor, salt, rfl, selfCall_unpause value⟩

/-- Over the first veto of a timelock and its cooldown. -/
theorem veto_bounded_first : ∃ t H, VetoedDuring Sample.controller Sample.dispatch
      ⟨1, 0, seated Sample.controller MIN_SAFE_DELAY 11, []⟩
      [.call 11 .pauseExecution, .wait (VETO_DURATION + VETO_COOLDOWN)] t H ∧ 48 * 3600 ≤ getMinDelay t ∧
      ∀ start length, (∀ time, start ≤ time → time < start + length → time ∈ H) → length ≤ 7 * 86400 := by
  have hseat := (seated_ok Sample.documented MIN_SAFE_DELAY 11).1
  have hveto := step_pauseExecution (C := Sample.controller) (d := Sample.dispatch) 1 hseat (by decide)
  obtain ⟨H, hwatched⟩ := Watched.exists_of_run Timelock.now (fun t time => executionPaused { t with now := time } = true)
    ((Run.single (M := machine Sample.controller Sample.dispatch) hveto).snoc
      (Step.wait (VETO_DURATION + VETO_COOLDOWN) rfl))
  have hbounded := veto_bounded Sample.documented (reachable_seated (le_refl _) (by decide)) hwatched
  exact ⟨_, H, hwatched, hbounded.2.2.2.2.1.1, hbounded.2.1⟩

end Kryon.KryonTimelock
