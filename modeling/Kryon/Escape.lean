import Kryon.Veto
/-!
# Escape — what a veto cannot keep from happening

An operation scheduled during a veto escapes it if, before the guardian can veto again, there is a time at which it can
begin.  The window is open from the later of its delay and the end of the veto until the veto's cooldown has passed, and
a delay of the cooldown or more lets it close before it opens.
-/
namespace Kryon.KryonTimelock

open Program Transition Latch
open Function (update)

variable {C : Controller} {d : Dispatch} {t t' : Timelock} {l : Label}

/-! ## The escape -/

/-- The guardian can veto: it never has, or its last veto has cooled down. -/
def CanVeto (t : Timelock) : Prop := t.vetoUntil = 0 ∨ t.vetoUntil + VETO_COOLDOWN ≤ t.now

/-- Whether an operation can begin at a time, when the timelock is left as it is: it is ready and passes the gate. -/
def Executable (C : Controller) (d : Dispatch) (op : Operation) (t : Timelock) (time : Nat) : Prop :=
  t.controller.isOperationReady time (C.hashOperation op) ∧ gate C d { t with now := time } op = .ok ()

/-- A step that is no veto and neither cancels nor finishes an operation. -/
def Spares (C : Controller) (op : Operation) (l : Label) : Prop :=
  l.tx ≠ some .pauseExecution ∧ l.tx ≠ some (.cancel (C.hashOperation op)) ∧ l ≠ .finish (C.hashOperation op)

/-- Whatever is scheduled here with the minimum delay can begin during some time, and does not have to before the
guardian can veto again. -/
def Escapes (C : Controller) (d : Dispatch) (t : Timelock) : Prop :=
  ∀ l op t₁, (machine C d).step t l t₁ → l.tx = some (.schedule op (getMinDelay t)) →
    ∀ ls t₂ H, Watched ((machine C d).restrict fun _ l => Spares C op l) Timelock.now (Executable C d op) t₁ ls t₂ H →
      CanVeto t₂ → H.Nonempty

theorem exec_timestamps (hdoc : C.Documented) {sender : Address} {tx : TimelockTx} {id : Bytes32}
    (h : exec C d t sender tx = .ok t') (hset : t.controller.timestamps id ≠ 0) (hc : tx ≠ .cancel id) :
    t'.controller.timestamps id = t.controller.timestamps id := by
  cases tx with
  | pauseExecution =>
    simp only [exec, pauseExecution, bind_ok_iff, revertIf_ok, exists_const, pure_ok] at h
    obtain ⟨-, -, rfl⟩ := h
    rfl
  | unpauseExecution =>
    simp only [exec, unpauseExecution, bind_ok_iff, revertIf_ok, exists_const] at h
    obtain ⟨-, h⟩ := h
    split at h
    all_goals
      rw [pure_ok] at h
      subst h
      rfl
  | updateDelay newDelay =>
    simp only [exec, updateDelay, bind_ok_iff, pure_ok] at h
    obtain ⟨-, -, s, hs, rfl⟩ := h
    obtain ⟨-, rfl⟩ := (hdoc.updateDelay _ _ _ _).1 hs
    rfl
  | schedule op delay =>
    simp only [exec, schedule, bind_ok_iff, pure_ok] at h
    obtain ⟨s, hs, rfl⟩ := h
    obtain ⟨-, hunset, -, -, rfl⟩ := (hdoc.schedule _ _ _ _ _ _ _).1 hs
    refine Function.update_of_ne ?_ _ _
    rintro rfl
    exact hset hunset
  | cancel id' =>
    simp only [exec, cancel, bind_ok_iff, pure_ok] at h
    obtain ⟨s, hs, rfl⟩ := h
    obtain ⟨-, -, rfl⟩ := (hdoc.cancel _ _ _ _ _).1 hs
    refine Function.update_of_ne ?_ _ _
    rintro rfl
    exact hc rfl
  | changeRole r account held =>
    simp only [exec, changeRole, bind_ok_iff, pure_ok] at h
    obtain ⟨s, hs, rfl⟩ := h
    obtain ⟨-, rfl⟩ := hdoc.changeRole _ _ _ _ _ _ hs
    rfl
  | execute op =>
    simp only [exec, execute, bind_ok_iff, pure_ok] at h
    obtain ⟨-, -, -, -, rfl⟩ := h
    rfl

/-- A scheduled operation stays scheduled for its time until it is cancelled or finishes. -/
theorem step_timestamps (hdoc : C.Documented) {op : Operation} (h : Step C d t l t') (hl : Spares C op l)
    (hset : t.controller.timestamps (C.hashOperation op) ≠ 0) :
    t'.controller.timestamps (C.hashOperation op) = t.controller.timestamps (C.hashOperation op) := by
  cases h with
  | call _ h => exact exec_timestamps hdoc h hset fun hc => hl.2.1 (congrArg some hc)
  | inner _ _ h =>
    have hsame := exec_timestamps hdoc h hset fun hc => hl.2.1 (congrArg some hc)
    exact hsame
  | outer _ _ => rfl
  | finish _ h =>
    obtain ⟨-, rfl⟩ := (hdoc.afterCall _ _ _ _).1 h
    refine Function.update_of_ne ?_ _ _
    intro hid
    exact hl.2.2 (congrArg Label.finish hid.symm)
  | wait _ _ => rfl

/-- **A scheduled operation can begin at every time after its delay and after the last veto**, as long as it is neither
cancelled nor finished and no new veto comes. -/
theorem escape_window (hdoc : C.Documented) {op : Operation} {t₁ t₂ : Timelock} {ls : List Label} {H : Set Nat}
    (h : Watched ((machine C d).restrict fun _ l => Spares C op l) Timelock.now (Executable C d op) t₁ ls t₂ H)
    (hpend : t₁.controller.isOperationPending (C.hashOperation op)) (hactive : t₁.now ≤ t₁.vetoUntil) :
    t₂.controller.timestamps (C.hashOperation op) = t₁.controller.timestamps (C.hashOperation op) ∧
      t₁.now ≤ t₂.vetoUntil ∧ t₁.now ≤ t₂.now ∧
      ∀ time, t₁.now ≤ time → time < t₂.now → t₂.vetoUntil ≤ time →
        t₁.controller.timestamps (C.hashOperation op) ≤ time → time ∈ H := by
  induction h with
  | nil => exact ⟨rfl, hactive, le_refl _, fun time hle hlt => absurd hle (not_le.2 hlt)⟩
  | snoc _ hl ih =>
    rename_i t u _ l H _
    obtain ⟨hspares, hstep⟩ := hl
    obtain ⟨hsame, hveto, hnow, hH⟩ := ih
    have hset : t.controller.timestamps (C.hashOperation op) ≠ 0 := by
      rw [hsame]
      exact Nat.ne_of_gt (lt_trans Nat.zero_lt_one hpend)
    have hturn := veto_latched C d t l u hstep
    rw [vetoes_eq_false.2 hspares.1] at hturn
    have hkeeps := step_timestamps hdoc hstep hspares hset
    refine ⟨hkeeps.trans hsame, ?_⟩
    rcases hturn.of_not_arms with ⟨hle, htill⟩ | ⟨hsamenow, htill⟩
    · have htill : u.vetoUntil = t.vetoUntil := htill
      refine ⟨htill ▸ hveto, hnow.trans hle, fun time hfrom hto hafter hready => ?_⟩
      by_cases hold : time < t.now
      · exact Or.inl (hH time hfrom hold (htill ▸ hafter) hready)
      · refine Or.inr ⟨not_lt.1 hold, hto, ⟨?_, ?_⟩, ?_⟩
        · rw [ControllerStorage.isOperationPending, hsame]
          exact hpend
        · rw [hsame]
          exact hready
        · have hfree : executionPaused { t with now := time } = false := decide_eq_false (not_lt.2 (htill ▸ hafter))
          cases op with
          | single c _ _ => simp [gate, hfree]
          | batch _ _ _ => simp [gate, hfree]
    -- a lift ends the veto at the present, and no time has passed since
    · have htill : u.vetoUntil = t.now := htill
      have hsamenow : u.now = t.now := hsamenow
      refine ⟨htill ▸ hnow, hsamenow ▸ hnow, fun time _ hto hafter => ?_⟩
      rw [hsamenow] at hto
      rw [htill] at hafter
      exact absurd hto (not_lt.2 hafter)

/-- **Below the veto's cooldown, whatever is scheduled during a veto escapes it.** -/
theorem escapes_of_lt (hdoc : C.Documented) (h : Reachable (machine C d) t) (hactive : executionPaused t = true)
    (hlt : getMinDelay t < VETO_COOLDOWN) : Escapes C d t := by
  intro l op t₁ hstep htx ls t₂ H hwatched hcan
  obtain ⟨-, -, -, hnow, hveto, hready⟩ := step_schedule hdoc hstep htx
  have hpos := reachable_now_pos h
  have hheld : t.now < t.vetoUntil := of_decide_eq_true hactive
  have hdelay := le_getMinDelay t
  have hmin : 0 < MIN_SAFE_DELAY := by decide
  have hpend : t₁.controller.isOperationPending (C.hashOperation op) := by
    have hlt : DONE_TIMESTAMP < t.now + getMinDelay t := by
      unfold DONE_TIMESTAMP
      omega
    rw [ControllerStorage.isOperationPending, hready]
    exact hlt
  obtain ⟨-, hafter, hle, hH⟩ := escape_window hdoc hwatched hpend (by omega)
  rw [hready] at hH
  refine ⟨max t₂.vetoUntil (t.now + getMinDelay t), hH _ ?_ ?_ (le_max_left _ _) (le_max_right _ _)⟩
  · exact le_max_of_le_left hafter
  · have hcooled : t₂.vetoUntil + VETO_COOLDOWN ≤ t₂.now := by
      rcases hcan with hzero | hcooled
      · omega
      · exact hcooled
    have hcool : 0 < VETO_COOLDOWN := by decide
    omega

theorem escape_late (hdoc : C.Documented) {op : Operation} {t₁ t₂ : Timelock} {ls : List Label} {H : Set Nat}
    (h : Watched ((machine C d).restrict fun _ l => Spares C op l) Timelock.now (Executable C d op) t₁ ls t₂ H)
    (hset : t₁.controller.timestamps (C.hashOperation op) ≠ 0) :
    t₂.controller.timestamps (C.hashOperation op) = t₁.controller.timestamps (C.hashOperation op) ∧
      ∀ time ∈ H, t₁.controller.timestamps (C.hashOperation op) ≤ time ∧ time < t₂.now := by
  induction h with
  | nil => exact ⟨rfl, fun _ hx => absurd hx (Set.notMem_empty _)⟩
  | snoc _ hl ih =>
    rename_i t u _ l H _
    obtain ⟨hsame, hH⟩ := ih
    have hle := (veto_latched C d t l u hl.2).now_le
    refine ⟨(step_timestamps hdoc hl.2 hl.1 (hsame ▸ hset)).trans hsame, ?_⟩
    rintro time (htime | htime)
    · exact ⟨(hH time htime).1, lt_of_lt_of_le (hH time htime).2 hle⟩
    · exact ⟨hsame ▸ htime.2.2.1.2, htime.2.1⟩

/-- **A run that reaches the guardian's next veto before the delay has passed is no escape.** -/
theorem not_escapes (hdoc : C.Documented) {op : Operation} {t₁ t₂ : Timelock} {ls : List Label}
    (hstep : (machine C d).step t l t₁) (htx : l.tx = some (.schedule op (getMinDelay t)))
    (hrun : Run ((machine C d).restrict fun _ l => Spares C op l) t₁ ls t₂) (hcan : CanVeto t₂)
    (hlate : t₂.now ≤ t.now + getMinDelay t) : ¬ Escapes C d t := by
  intro hescapes
  obtain ⟨H, hwatched⟩ := Watched.exists_of_run Timelock.now (Executable C d op) hrun
  obtain ⟨time, htime⟩ := hescapes l op t₁ hstep htx ls t₂ H hwatched hcan
  obtain ⟨-, -, -, -, -, hready⟩ := step_schedule hdoc hstep htx
  have hmin := le_getMinDelay t
  have hpos : 0 < MIN_SAFE_DELAY := by decide
  obtain ⟨-, hH⟩ := escape_late hdoc hwatched (by omega)
  have hbounds := hH time htime
  omega

/-! ## Races the escape loses -/

section Race
variable {s : ControllerStorage} {delay : Nat} {a : Address}

/-- The operation that lifts a veto. -/
def lift (C : Controller) (d : Dispatch) : Operation := .single ⟨C.self, 0, d.unpauseSelector⟩ 0 1

/-- An operation that does nothing. -/
def idleOp : Operation := .batch [] 0 0

theorem hash_lift_ne (hdoc : C.Documented) : C.hashOperation idleOp ≠ C.hashOperation (lift C d) := by
  intro h
  have hsalt := hdoc.salt _ _ h
  have hne : (0 : Bytes32) ≠ 1 := by decide
  exact hne hsalt

/-- **A ready lift ends a veto at once**: it begins, makes its call and finishes. -/
theorem lift_run (hdoc : C.Documented) {now vetoUntil : Nat} (hs : Seated s delay a) (ha : a ≠ C.self)
    (hactive : now < vetoUntil) (hready : s.isOperationReady now (C.hashOperation (lift C d))) :
    ∃ t₁ t₂, Step C d ⟨now, vetoUntil, s, []⟩ (.call a (.execute (lift C d))) t₁ ∧ t₁.now = now ∧
      Step C d t₁ (.next (some .unpauseExecution)) t₂ ∧ t₂.now = now ∧
      Step C d t₂ (.finish (C.hashOperation (lift C d))) ⟨now, now, { s with
        timestamps := update s.timestamps (C.hashOperation (lift C d)) DONE_TIMESTAMP }, []⟩ := by
  refine ⟨⟨now, vetoUntil, s, [⟨C.hashOperation (lift C d), (lift C d).calls⟩]⟩,
    ⟨now, now, s, [⟨C.hashOperation (lift C d), []⟩]⟩, ?_, rfl, ?_, rfl, ?_⟩
  · refine Step.call ha ?_
    have hunpause : isUnpauseCall C d ⟨C.self, 0, d.unpauseSelector⟩ = true := isUnpauseCall_iff.2 ⟨rfl, rfl⟩
    have hgate : gate C d ⟨now, vetoUntil, s, []⟩ (lift C d) = .ok () := by simp [gate, lift, hunpause]
    have hbefore := (hdoc.beforeCall s now a (lift C d) ()).2 ⟨Or.inr hs.executor, hready, Or.inl rfl⟩
    simp only [exec, execute, bind_ok_iff, pure_ok]
    exact ⟨(), hgate, (), hbefore, trivial⟩
  · refine Step.inner rfl (selfCall_unpause 0) ?_
    have hheld : executionPaused ⟨now, vetoUntil, s, [⟨C.hashOperation (lift C d), []⟩]⟩ = true := decide_eq_true hactive
    simp only [exec, unpauseExecution, bind_ok_iff, revertIf_ok, exists_const, hheld, Bool.true_eq_false, if_false,
      pure_ok]
    exact ⟨not_not.2 rfl, trivial⟩
  · exact Step.finish rfl ((hdoc.afterCall _ _ _ _).2 ⟨hready, rfl⟩)

theorem exists_account (C : Controller) : ∃ a : Address, a ≠ 0 ∧ a ≠ C.self := by
  by_cases h : C.self = 1
  · exact ⟨2, by decide, by rw [h]; decide⟩
  · exact ⟨1, by decide, fun he => h he.symm⟩

/-- **With a delay of ten days or more an operation scheduled during a veto is not ready when the next one may come.** -/
theorem not_escapes_of_long (hdoc : C.Documented) (hd : VETO_DURATION + VETO_COOLDOWN ≤ delay)
    (hfits : 1 + delay < 2 ^ 256) :
    ∃ t, Reachable (machine C d) t ∧ executionPaused t = true ∧ getMinDelay t = delay ∧ ¬ Escapes C d t := by
  obtain ⟨a, ha0, ha⟩ := exists_account C
  obtain ⟨hseat, hunset⟩ := seated_ok hdoc delay a
  have hmin : MIN_SAFE_DELAY ≤ delay := le_trans (by decide) hd
  have hveto := step_pauseExecution (C := C) (d := d) 1 hseat ha
  have hdelay := hseat.getMinDelay 1 (1 + VETO_DURATION) hmin
  have hstep := step_schedule_of (d := d) hdoc 1 (1 + VETO_DURATION) idleOp hseat ha hmin (congrFun hunset _) hfits
  refine ⟨_, (reachable_seated hmin ha0).step hveto, vetoed_active _ _, hdelay, ?_⟩
  refine not_escapes hdoc hstep (by rw [hdelay]; rfl)
    (Run.single ⟨⟨?_, ?_, ?_⟩, Step.wait (VETO_DURATION + VETO_COOLDOWN) rfl⟩) (Or.inr ?_) ?_
  · exact fun h => absurd h (by simp [Label.tx])
  · exact fun h => absurd h (by simp [Label.tx])
  · exact fun h => Label.noConfusion h
  · show 1 + VETO_DURATION + VETO_COOLDOWN ≤ 1 + (VETO_DURATION + VETO_COOLDOWN)
    omega
  · rw [hdelay]
    exact Nat.add_le_add_left hd 1

/-- **With a delay of the cooldown or more, a lift in the second in which an operation is scheduled loses its race.** -/
theorem not_escapes_of_lifted (hdoc : C.Documented) (hd : VETO_COOLDOWN ≤ delay)
    (hlong : delay < VETO_DURATION + VETO_COOLDOWN) :
    ∃ t, Reachable (machine C d) t ∧ executionPaused t = true ∧ getMinDelay t = delay ∧ ¬ Escapes C d t := by
  obtain ⟨a, ha0, ha⟩ := exists_account C
  obtain ⟨hseat, hunset⟩ := seated_ok hdoc delay a
  have hmin : MIN_SAFE_DELAY ≤ delay := le_trans (by decide) hd
  have hbound : VETO_DURATION + VETO_COOLDOWN < 2 ^ 250 := by decide
  have hpow : (2 : Nat) ^ 250 * 64 = 2 ^ 256 := by decide
  have hpending : DONE_TIMESTAMP < 1 + delay := Nat.lt_add_of_pos_right (lt_of_lt_of_le (by decide) hd)
  -- the lift is scheduled a delay before the veto comes
  have hlift := step_schedule_of (d := d) hdoc 1 0 (lift C d) hseat ha hmin (congrFun hunset _) (by omega)
  have hseat₁ := hseat.queued (C := C) (lift C d) (1 + delay)
  have hveto := step_pauseExecution (C := C) (d := d) (1 + delay) hseat₁ ha
  have hreach := (((reachable_seated hmin ha0).step hlift).step (Step.wait delay rfl)).step hveto
  have hdelay := hseat₁.getMinDelay (1 + delay) (1 + delay + VETO_DURATION) hmin
  have hne := hash_lift_ne (d := d) hdoc
  have hstep := step_schedule_of (d := d) hdoc (1 + delay) (1 + delay + VETO_DURATION) idleOp hseat₁ ha hmin
    ((queued_of_ne _ hne).trans (congrFun hunset _)) (by omega)
  have hready : (queued C (queued C (seated C delay a) (lift C d) (1 + delay)) idleOp
      (1 + delay + delay)).timestamps (C.hashOperation (lift C d)) = 1 + delay :=
    (queued_of_ne _ hne.symm).trans (queued_self _)
  have hheld : 1 + delay < 1 + delay + VETO_DURATION := Nat.lt_add_of_pos_right (by decide)
  obtain ⟨t₁, t₂, hbegin, -, hcall, -, hfinish⟩ := lift_run (d := d) hdoc
    (hseat₁.queued idleOp (1 + delay + delay)) ha hheld ⟨lt_of_lt_of_eq hpending hready.symm, le_of_eq hready⟩
  refine ⟨_, hreach, vetoed_active _ _, hdelay, ?_⟩
  have hrun := (((Run.single (M := (machine C d).restrict fun _ l => Spares C idleOp l)
    ⟨⟨by simp [Label.tx], by simp [Label.tx], fun h => Label.noConfusion h⟩, hbegin⟩).snoc
    ⟨⟨by simp [Label.tx], by simp [Label.tx], fun h => Label.noConfusion h⟩, hcall⟩).snoc
    ⟨⟨by simp [Label.tx], by simp [Label.tx], fun h => hne (Label.finish.inj h).symm⟩, hfinish⟩).snoc
    ⟨⟨by simp [Label.tx], by simp [Label.tx], fun h => Label.noConfusion h⟩, Step.wait VETO_COOLDOWN rfl⟩
  refine not_escapes hdoc hstep (by rw [hdelay]; rfl) hrun (Or.inr (le_refl _)) ?_
  rw [hdelay]
  exact Nat.add_le_add_left hd _

end Race

/-- **Every operation scheduled during a veto escapes it exactly when the delay is below the veto's cooldown**, or so
large that nothing can be scheduled at all. -/
theorem veto_escape_window (hdoc : C.Documented) {delay : Nat} (hd : MIN_SAFE_DELAY ≤ delay) :
    (∀ t, Reachable (machine C d) t → executionPaused t = true → getMinDelay t = delay → Escapes C d t) ↔
      delay < VETO_COOLDOWN ∨ 2 ^ 256 - 1 ≤ delay := by
  constructor
  · intro hall
    by_contra hnot
    rw [not_or, not_lt, not_le] at hnot
    obtain ⟨hcool, hfits⟩ := hnot
    by_cases hlong : delay < VETO_DURATION + VETO_COOLDOWN
    · obtain ⟨t, ht, hactive, hdelay, hn⟩ := not_escapes_of_lifted (d := d) hdoc hcool hlong
      exact hn (hall t ht hactive hdelay)
    · obtain ⟨t, ht, hactive, hdelay, hn⟩ := not_escapes_of_long (d := d) hdoc (not_lt.1 hlong) (by omega)
      exact hn (hall t ht hactive hdelay)
  · rintro (hlt | hlarge) t ht hactive rfl
    · exact escapes_of_lt hdoc ht hactive hlt
    · intro l op t₁ hstep htx
      obtain ⟨-, -, hfits, -, -, -⟩ := step_schedule hdoc hstep htx
      have hpos := reachable_now_pos ht
      omega

theorem veto_escape_window_short : MIN_SAFE_DELAY < VETO_COOLDOWN ∧
    ∀ t, Reachable (machine Sample.controller Sample.dispatch) t → executionPaused t = true →
      getMinDelay t = MIN_SAFE_DELAY → Escapes Sample.controller Sample.dispatch t :=
  ⟨by decide, (veto_escape_window Sample.documented (le_refl MIN_SAFE_DELAY)).2 (Or.inl (by decide))⟩

/-- A delay of three days, which the constructor accepts, lets a race be lost. -/
theorem veto_no_escape_threeDays : ¬ ∀ t, Reachable (machine Sample.controller Sample.dispatch) t →
    executionPaused t = true → getMinDelay t = 3 * 86400 → Escapes Sample.controller Sample.dispatch t := by
  intro hall
  obtain ⟨t, ht, hactive, hdelay, hn⟩ := not_escapes_of_lifted (d := Sample.dispatch) Sample.documented
    (le_refl VETO_COOLDOWN) (by decide)
  exact hn (hall t ht hactive hdelay)

end Kryon.KryonTimelock
