import Kryon.Lib.Hysteresis
import Kryon.Lib.OrderedMap
/-!
# Alerting — when a failing check becomes an alert

The monitor's engine folds every tick's results into a state per alert key.  What it does for one key depends on what is
heard about that key alone (`observe_key`), so its states and what it delivers are those of a watch on each key.  A key
fires exactly while enough failing results in a row have not been followed by enough passing ones (`firing_exactly`), and
what is delivered about it is announced, repeated at its interval and resolved, in that order (`alerts_delivered`).
-/
namespace Kryon.Alerting

open Hysteresis

inductive Severity where
  | page
  | warn
deriving DecidableEq

inductive CheckStatus where
  | pass
  | fail
  /-- The check could not run: never a pass. -/
  | error
  /-- Deliberately not evaluated. -/
  | skip
deriving DecidableEq

inductive Value where
  | num (n : Int)
  | str (s : String)
  | bool (b : Bool)
  | null
deriving DecidableEq

structure CheckResult where
  /-- The alert key: the check, or the check and its subject. -/
  key : String
  check : String
  subject : Option String
  status : CheckStatus
  severity : Severity
  detail : String
  values : List (String × Value)
  runbook : String

def CheckResult.failing (r : CheckResult) : Bool := decide (r.status = .fail ∨ r.status = .error)

inductive AlertKind where
  | firing
  | reminder
  | resolved
deriving DecidableEq

structure AlertEvent where
  kind : AlertKind
  key : String
  check : String
  subject : Option String
  severity : Severity
  detail : String
  values : List (String × Value)
  runbook : String
  /-- When the failure started. -/
  since : Int
  forSecs : Int
deriving DecidableEq

structure AlertState where
  key : String
  check : String
  subject : Option String
  severity : Severity
  firing : Bool
  failStreak : Nat
  passStreak : Nat
  firstFailedAt : Int
  lastNotifiedAt : Option Int
  detail : String

structure AlertEngineOptions where
  failAfter : Nat
  resolveAfter : Nat
  renotifyMs : Int
  startupGraceMs : Int
  startedAt : Int
  /-- Per-check override of `failAfter`. -/
  failAfterFor : String → Option Nat

/-! ## The engine -/

abbrev States := OrderedMap String AlertState

namespace AlertEngineOptions

variable (o : AlertEngineOptions)

def inGrace (now : Int) : Bool := decide (now < o.startedAt + o.startupGraceMs)

def failAfterOf (check : String) : Nat := (o.failAfterFor check).getD o.failAfter

end AlertEngineOptions

/-- Milliseconds to the nearest second, halves up. -/
def toSecs (ms : Int) : Int := (ms + 500).fdiv 1000

def event (kind : AlertKind) (r : CheckResult) (s : AlertState) (now : Int) : AlertEvent where
  kind := kind
  key := r.key
  check := r.check
  subject := r.subject
  severity := r.severity
  detail := r.detail
  values := r.values
  runbook := r.runbook
  since := s.firstFailedAt
  forSecs := toSecs (now - s.firstFailedAt)

/-- The state of a key at its first failing result. -/
def firstFailure (r : CheckResult) (now : Int) : AlertState where
  key := r.key
  check := r.check
  subject := r.subject
  severity := r.severity
  firing := false
  failStreak := 0
  passStreak := 0
  firstFailedAt := now
  lastNotifiedAt := none
  detail := r.detail

def notify (kind : AlertKind) (r : CheckResult) (s : AlertState) (now : Int) : AlertState × List AlertEvent :=
  ({ s with lastNotifiedAt := some now }, [event kind r s now])

section Engine

variable (o : AlertEngineOptions)

/-- `onFail` at the state of the result's key. -/
def failed (prev : Option AlertState) (r : CheckResult) (now : Int) : AlertState × List AlertEvent :=
  let s := prev.getD (firstFailure r now)
  let escalated := s.firing = true ∧ r.severity = .page ∧ s.severity = .warn
  let s := { s with failStreak := s.failStreak + 1, passStreak := 0, severity := r.severity, detail := r.detail }
  if s.firing = false ∧ s.failStreak < o.failAfterOf r.check then (s, [])
  else if s.firing = false then
    -- In the grace window the state is kept but nothing is delivered.
    if o.inGrace now = true then ({ s with firing := true }, []) else notify .firing r { s with firing := true } now
  else if escalated then notify .firing r s now
  else if o.inGrace now = true then (s, [])
  else
    match s.lastNotifiedAt with
    | none => notify .firing r s now
    | some last => if now - last ≥ o.renotifyMs then notify .reminder r s now else (s, [])

/-- `onPass` at the state of the key; none is left of it once it has passed often enough. -/
def passed (s : AlertState) (key detail : String) (now : Int) : Option AlertState × List AlertEvent :=
  let s := { s with passStreak := s.passStreak + 1, failStreak := 0 }
  if s.passStreak < o.resolveAfter then (some s, [])
  -- Never announced, nothing to resolve.
  else if s.firing = false ∨ s.lastNotifiedAt = none then (none, [])
  else (none, [⟨.resolved, key, s.check, s.subject, s.severity, detail, [], "", s.firstFailedAt,
    toSecs (now - s.firstFailedAt)⟩])

def onFail (states : States) (r : CheckResult) (now : Int) : States × List AlertEvent :=
  (states.set r.key (failed o (states.get r.key) r now).1, (failed o (states.get r.key) r now).2)

def onPass (states : States) (key detail : String) (now : Int) : States × List AlertEvent :=
  match states.get key with
  | none => (states, [])
  | some s =>
    match passed o s key detail now with
    | (none, events) => (states.delete key, events)
    | (some s, events) => (states.set key s, events)

def fold (now : Int) (p : States × List AlertEvent) (r : CheckResult) : States × List AlertEvent :=
  let q := if r.failing = true then onFail o p.1 r now else onPass o p.1 r.key r.detail now
  (q.1, p.2 ++ q.2)

/-- A subject that disappeared from a check that ran is no longer failing. -/
def clear (seen ran : List String) (now : Int) (p : States × List AlertEvent) (key : String) : States × List AlertEvent :=
  match p.1.get key with
  | none => p
  | some s =>
    if key ∈ seen ∨ s.check ∉ ran then p
    else
      let q := onPass o p.1 key "no longer reported" now
      (q.1, p.2 ++ q.2)

structure Tick where
  results : List CheckResult
  /-- The checks that completed. -/
  ran : List String
  now : Int

def observe (states : States) (t : Tick) : States × List AlertEvent :=
  let p := t.results.foldl (fold o t.now) (states, [])
  p.1.keys.foldl (clear o (t.results.map (·.key)) t.ran t.now) p

/-- The states after some ticks, and what was delivered with the time of its tick. -/
def run (ticks : List Tick) : States × List (Int × AlertEvent) :=
  ticks.foldl (fun p t => ((observe o p.1 t).1, p.2 ++ (observe o p.1 t).2.map fun e => (t.now, e))) (.empty, [])

/-! ## A watch on one key -/

/-- What is heard about a key: a result, or that the checks that ran said nothing of it. -/
inductive Observation where
  | result (r : CheckResult)
  | absent (ran : List String)

def hear (key : String) (now : Int) (s : Option AlertState) : Observation → Option AlertState × List AlertEvent
  | .result r =>
    if r.failing = true then ((some (failed o s r now).1), (failed o s r now).2)
    else
      match s with
      | none => (none, [])
      | some s => passed o s key r.detail now
  | .absent ran =>
    match s with
    | none => (none, [])
    | some s => if s.check ∈ ran then passed o s key "no longer reported" now else (some s, [])

/-- A tick's observations of a key. -/
def observationsOf (key : String) (t : Tick) : List Observation :=
  let rs := t.results.filter fun r => decide (r.key = key)
  if rs = [] then [.absent t.ran] else rs.map .result

def timed (key : String) (ticks : List Tick) : List (Int × Observation) :=
  ticks.flatMap fun t => (observationsOf key t).map fun x => (t.now, x)

def hearAt (key : String) (p : Option AlertState × List (Int × AlertEvent)) (x : Int × Observation) :
    Option AlertState × List (Int × AlertEvent) :=
  ((hear o key x.1 p.1 x.2).1, p.2 ++ (hear o key x.1 p.1 x.2).2.map fun e => (x.1, e))

def watch (key : String) (xs : List (Int × Observation)) : Option AlertState × List (Int × AlertEvent) :=
  xs.foldl (hearAt o key) (none, [])

end Engine

variable {o : AlertEngineOptions} {key key' : String} {now : Int} {states : States} {r : CheckResult} {s : AlertState}
  {x : Observation}

/-! ## The engine is a watch on each key -/

theorem failed_key (o : AlertEngineOptions) (prev : Option AlertState) (r : CheckResult) (now : Int) :
    ∀ e ∈ (failed o prev r now).2, e.key = r.key := by
  have hevent : ∀ (kind : AlertKind) (s : AlertState), ∀ e ∈ [event kind r s now], e.key = r.key := fun kind s e he =>
    List.mem_singleton.1 he ▸ rfl
  intro e he
  unfold failed at he
  dsimp only at he
  split at he
  · exact absurd he List.not_mem_nil
  · split at he
    · split at he
      · exact absurd he List.not_mem_nil
      · exact hevent _ _ e he
    · split at he
      · exact hevent _ _ e he
      · split at he
        · exact absurd he List.not_mem_nil
        · split at he
          · exact hevent _ _ e he
          · split at he
            · exact hevent _ _ e he
            · exact absurd he List.not_mem_nil

theorem passed_key (o : AlertEngineOptions) (s : AlertState) (key detail : String) (now : Int) :
    ∀ e ∈ (passed o s key detail now).2, e.key = key := by
  intro e he
  unfold passed at he
  dsimp only at he
  split at he
  · exact absurd he List.not_mem_nil
  · split at he
    · exact absurd he List.not_mem_nil
    · rw [List.mem_singleton.1 he]

/-- The state of a key and what is delivered about it. -/
def about (key : String) (p : States × List AlertEvent) : Option AlertState × List AlertEvent :=
  (p.1.get key, p.2.filter fun e => decide (e.key = key))

def hearOne (o : AlertEngineOptions) (key : String) (now : Int) (p : Option AlertState × List AlertEvent) (x : Observation) :
    Option AlertState × List AlertEvent :=
  ((hear o key now p.1 x).1, p.2 ++ (hear o key now p.1 x).2)

theorem filter_key (key : String) {events : List AlertEvent} (h : ∀ e ∈ events, e.key = key') :
    events.filter (fun e => decide (e.key = key)) = if key' = key then events else [] := by
  split
  · rename_i heq
    exact List.filter_eq_self.2 fun e he => by rw [h e he]; simpa using heq
  · rename_i hne
    exact List.filter_eq_nil_iff.2 fun e he => by rw [h e he]; simpa using hne

theorem about_onPass (states : States) (key key' detail : String) (now : Int) : about key (onPass o states key' detail now) =
    if key' = key then
      (match states.get key with
        | none => (none, [])
        | some s => passed o s key detail now)
    else (states.get key, []) := by
  unfold onPass about
  by_cases heq : key' = key
  · subst heq
    rw [if_pos rfl]
    cases hs : states.get key' with
    | none => simp [hs]
    | some s =>
      have hkeys := filter_key key' (passed_key o s key' detail now)
      rcases hp : passed o s key' detail now with ⟨_ | s', events⟩
      · rw [hp, if_pos rfl] at hkeys
        simp [hp, hkeys]
      · rw [hp, if_pos rfl] at hkeys
        simp [hp, hkeys]
  · rw [if_neg heq]
    cases hs : states.get key' with
    | none => simp
    | some s =>
      have hkeys := filter_key key (passed_key o s key' detail now)
      rcases hp : passed o s key' detail now with ⟨_ | s', events⟩
      · rw [hp, if_neg heq] at hkeys
        simp [hp, hkeys, Ne.symm heq]
      · rw [hp, if_neg heq] at hkeys
        simp [hp, hkeys, Ne.symm heq]

theorem about_onFail (states : States) (r : CheckResult) (now : Int) : about key (onFail o states r now) =
    if r.key = key then (some (failed o (states.get key) r now).1, (failed o (states.get key) r now).2)
    else (states.get key, []) := by
  have hkeys := filter_key key (failed_key o (states.get r.key) r now)
  unfold onFail about
  by_cases heq : r.key = key
  · rw [if_pos heq] at hkeys ⊢
    subst heq
    simp [hkeys]
  · rw [if_neg heq] at hkeys ⊢
    simp [hkeys, Ne.symm heq]

/-- A result is heard on its own key only. -/
theorem about_fold (p : States × List AlertEvent) (r : CheckResult) : about key (fold o now p r) =
    if r.key = key then hearOne o key now (about key p) (.result r) else about key p := by
  have happend : ∀ q : States × List AlertEvent, about key (q.1, p.2 ++ q.2) =
      ((about key q).1, (about key p).2 ++ (about key q).2) := fun q => by simp [about]
  unfold fold
  dsimp only
  rw [happend]
  split
  · rename_i hfailing
    rw [about_onFail]
    split
    · simp [hearOne, hear, hfailing, about]
    · simp [about]
  · rename_i hpassing
    rw [about_onPass]
    split
    · simp [hearOne, hear, hpassing, about]
    · simp [about]

/-- Where the results said nothing of a key, what ran is. -/
theorem about_clear {seen ran : List String} (p : States × List AlertEvent) (key' : String) :
    about key (clear o seen ran now p key') =
      if key' = key ∧ key ∉ seen then hearOne o key now (about key p) (.absent ran) else about key p := by
  have happend : ∀ q : States × List AlertEvent, about key (q.1, p.2 ++ q.2) =
      ((about key q).1, (about key p).2 ++ (about key q).2) := fun q => by simp [about]
  unfold clear
  by_cases hkey : key' = key
  · subst hkey
    cases hs : p.1.get key' with
    | none =>
      dsimp only
      split
      · simp [hearOne, hear, about, hs]
      · rfl
    | some s =>
      dsimp only
      by_cases hseen : key' ∈ seen
      · rw [if_pos (.inl hseen), if_neg fun h => h.2 hseen]
      · have hunseen : key' = key' ∧ key' ∉ seen := ⟨rfl, hseen⟩
        by_cases hran : s.check ∈ ran
        · rw [if_neg (not_or.2 ⟨hseen, not_not.2 hran⟩), if_pos hunseen, happend, about_onPass, if_pos rfl, hs]
          simp [hearOne, hear, about, hs, hran]
        · have hleft : key' ∈ seen ∨ s.check ∉ ran := .inr hran
          rw [if_pos hleft, if_pos hunseen]
          simp [hearOne, hear, about, hs, hran]
  · rw [if_neg fun h => hkey h.1]
    cases hs : p.1.get key' with
    | none => rfl
    | some s =>
      dsimp only
      split
      · rfl
      · rw [happend, about_onPass, if_neg hkey]
        simp [about]

theorem about_folds (rs : List CheckResult) (p : States × List AlertEvent) : about key (rs.foldl (fold o now) p) =
    ((rs.filter fun r => decide (r.key = key)).map .result).foldl (hearOne o key now) (about key p) := by
  induction rs generalizing p with
  | nil => rfl
  | cons r rs ih =>
    rw [List.foldl_cons, ih, about_fold]
    by_cases hkey : r.key = key
    · rw [if_pos hkey, List.filter_cons_of_pos (by simpa using hkey)]
      rfl
    · rw [if_neg hkey, List.filter_cons_of_neg (by simpa using hkey)]

theorem about_clears {seen ran : List String} {ks : List String} (hks : ks.Nodup) (p : States × List AlertEvent) :
    about key (ks.foldl (clear o seen ran now) p) =
      if key ∈ ks ∧ key ∉ seen then hearOne o key now (about key p) (.absent ran) else about key p := by
  induction ks generalizing p with
  | nil => simp
  | cons k ks ih =>
    obtain ⟨hk, hks⟩ := List.nodup_cons.1 hks
    rw [List.foldl_cons, ih hks, about_clear]
    by_cases hkey : k = key
    · subst hkey
      simp [hk]
    · simp [hkey, Ne.symm hkey]

/-- **A tick does to a key what is heard about it does.** -/
theorem observe_key (states : States) (t : Tick) (key : String) : about key (observe o states t) =
    (observationsOf key t).foldl (hearOne o key t.now) (states.get key, []) := by
  have hfolds : about key (t.results.foldl (fold o t.now) (states, [])) = _ := about_folds t.results (states, [])
  have hstart : about key (states, []) = (states.get key, []) := rfl
  rw [hstart] at hfolds
  unfold observe observationsOf
  dsimp only
  rw [about_clears (OrderedMap.keys_nodup _), hfolds]
  by_cases hnone : t.results.filter (fun r => decide (r.key = key)) = []
  · have hseen : key ∉ t.results.map (·.key) := by
      intro hmem
      obtain ⟨r, hr, hkey⟩ := List.mem_map.1 hmem
      have hin : r ∈ t.results.filter fun r => decide (r.key = key) := List.mem_filter.2 ⟨hr, by simpa using hkey⟩
      exact absurd (hnone ▸ hin) List.not_mem_nil
    rw [hnone, List.map_nil, List.foldl_nil] at hfolds
    rw [if_pos hnone, hnone, List.map_nil, List.foldl_nil, List.foldl_cons, List.foldl_nil]
    by_cases hkeys : key ∈ (t.results.foldl (fold o t.now) (states, [])).1.keys
    · rw [if_pos ⟨hkeys, hseen⟩]
    · have hget : states.get key = none := (congrArg Prod.fst hfolds).symm.trans (OrderedMap.get_eq_none.2 hkeys)
      rw [if_neg fun h => hkeys h.1, hget]
      rfl
  · have hseen : key ∈ t.results.map (·.key) := by
      obtain ⟨r, hr⟩ := List.exists_mem_of_ne_nil _ hnone
      obtain ⟨hr, hkey⟩ := List.mem_filter.1 hr
      exact List.mem_map.2 ⟨r, hr, of_decide_eq_true hkey⟩
    rw [if_neg hnone, if_neg fun h => h.2 hseen]

/-- The key's part of what was delivered. -/
def aboutRun (key : String) (p : States × List (Int × AlertEvent)) : Option AlertState × List (Int × AlertEvent) :=
  (p.1.get key, p.2.filter fun e => decide (e.2.key = key))

theorem hearAt_foldl (key : String) (t : Int) (xs : List Observation) (p : Option AlertState × List (Int × AlertEvent))
    (q : List AlertEvent) : (xs.map fun x => (t, x)).foldl (hearAt o key) (p.1, p.2 ++ q.map fun e => (t, e)) =
      ((xs.foldl (hearOne o key t) (p.1, q)).1, p.2 ++ (xs.foldl (hearOne o key t) (p.1, q)).2.map fun e => (t, e)) := by
  induction xs generalizing p q with
  | nil => rfl
  | cons x xs ih =>
    have hstep : hearAt o key (p.1, p.2 ++ q.map fun e => (t, e)) (t, x) =
        ((hear o key t p.1 x).1, p.2 ++ (q ++ (hear o key t p.1 x).2).map fun e => (t, e)) := by
      simp [hearAt]
    rw [List.map_cons, List.foldl_cons, hstep, List.foldl_cons]
    exact ih ((hear o key t p.1 x).1, p.2) (q ++ (hear o key t p.1 x).2)

/-- **The engine is a watch on each key.**  After any ticks, a key's state and what was delivered about it are those of a
watch that heard only what the ticks said about it. -/
theorem run_key (o : AlertEngineOptions) (key : String) (ticks : List Tick) :
    aboutRun key (run o ticks) = watch o key (timed key ticks) := by
  suffices h : ∀ p : States × List (Int × AlertEvent),
      aboutRun key (ticks.foldl (fun p t => ((observe o p.1 t).1, p.2 ++ (observe o p.1 t).2.map fun e => (t.now, e))) p) =
        (timed key ticks).foldl (hearAt o key) (aboutRun key p) from h (.empty, [])
  induction ticks with
  | nil => exact fun _ => rfl
  | cons t ticks ih =>
    intro p
    have hsplit : timed key (t :: ticks) = (observationsOf key t).map (fun x => (t.now, x)) ++ timed key ticks :=
      List.flatMap_cons
    have hnew : aboutRun key ((observe o p.1 t).1, p.2 ++ (observe o p.1 t).2.map fun e => (t.now, e)) =
        ((about key (observe o p.1 t)).1, (aboutRun key p).2 ++ (about key (observe o p.1 t)).2.map fun e => (t.now, e)) := by
      simp only [aboutRun, about, List.filter_append, List.filter_map]
      rfl
    have hheard := hearAt_foldl (o := o) key t.now (observationsOf key t) (aboutRun key p) []
    rw [List.map_nil, List.append_nil] at hheard
    rw [List.foldl_cons, ih, hsplit, List.foldl_append, hnew, observe_key, hheard]
    rfl

/-! ## What is heard, and what fires -/

/-- What an observation says of a key whose check is `check`: failing or passing, or nothing. -/
def verdict (check : String) : Observation → Option Bool
  | .result r => some r.failing
  | .absent ran => if check ∈ ran then some false else none

def history (check : String) (xs : List (Int × Observation)) : List Bool := xs.filterMap fun x => verdict check x.2

/-- The key is its check's: every result under it is. -/
def Keyed (check : String) (xs : List (Int × Observation)) : Prop := ∀ t r, (t, .result r) ∈ xs → r.check = check

variable {check : String} {xs : List (Int × Observation)} {H : List Bool}

namespace AlertEngineOptions

def fails (o : AlertEngineOptions) (check : String) : Nat := max 1 (o.failAfterOf check)

def passes (o : AlertEngineOptions) : Nat := max 1 o.resolveAfter

end AlertEngineOptions

/-- What is kept of a key counts its history. -/
def Counts (o : AlertEngineOptions) (check : String) (H : List Bool) : Option AlertState → Prop
  | none => streak true H = 0 ∧ ¬ Held (o.fails check) o.passes H
  | some s => s.check = check ∧ s.failStreak = streak true H ∧ s.passStreak = streak false H ∧
      (s.firing = true ↔ Held (o.fails check) o.passes H)

/-- What a failing result makes of the counts of a state, whatever is delivered. -/
theorem failed_counts (o : AlertEngineOptions) (prev : Option AlertState) (r : CheckResult) (now : Int) :
    let s := prev.getD (firstFailure r now)
    (failed o prev r now).1.check = s.check ∧ (failed o prev r now).1.failStreak = s.failStreak + 1 ∧
      (failed o prev r now).1.passStreak = 0 ∧
      ((failed o prev r now).1.firing = true ↔ s.firing = true ∨ o.failAfterOf r.check ≤ s.failStreak + 1) := by
  intro s
  have hfires : ∀ f : Bool, (f = true ↔ s.firing = true ∨ o.failAfterOf r.check ≤ s.failStreak + 1) →
      ∀ last : Option Int, let s' := { s with
        firing := f, failStreak := s.failStreak + 1, passStreak := 0, severity := r.severity, detail := r.detail
        lastNotifiedAt := last }
      s'.check = s.check ∧ s'.failStreak = s.failStreak + 1 ∧ s'.passStreak = 0 ∧
        (s'.firing = true ↔ s.firing = true ∨ o.failAfterOf r.check ≤ s.failStreak + 1) :=
    fun f hf last => ⟨rfl, rfl, rfl, hf⟩
  unfold failed
  dsimp only
  split
  · rename_i hfew
    exact hfires s.firing (iff_of_false (by rw [hfew.1]; decide) (by
      rw [not_or, not_le]
      exact ⟨by rw [hfew.1]; decide, hfew.2⟩)) s.lastNotifiedAt
  · rename_i henough
    split
    · rename_i hsilent
      have hlong : o.failAfterOf r.check ≤ s.failStreak + 1 := not_lt.1 fun hlt => henough ⟨hsilent, hlt⟩
      split
      · exact hfires true (iff_of_true rfl (.inr hlong)) s.lastNotifiedAt
      · exact hfires true (iff_of_true rfl (.inr hlong)) (some now)
    · rename_i hfiring
      have hf : s.firing = true := by simpa using hfiring
      have hboth := iff_of_true hf (Or.inl hf : s.firing = true ∨ o.failAfterOf r.check ≤ s.failStreak + 1)
      split
      · exact hfires s.firing hboth (some now)
      · split
        · exact hfires s.firing hboth s.lastNotifiedAt
        · split
          · exact hfires s.firing hboth (some now)
          · split
            · exact hfires s.firing hboth (some now)
            · exact hfires s.firing hboth s.lastNotifiedAt

theorem counts_fail {prev : Option AlertState} (h : Counts o check H prev) (hr : r.check = check) (now : Int) :
    Counts o check (H ++ [true]) (some (failed o prev r now).1) := by
  obtain ⟨hcheck, hfails, hpasses, hfiring⟩ := failed_counts o prev r now
  have hpos : 0 < o.passes := by
    unfold AlertEngineOptions.passes
    omega
  have hraised : Held (o.fails check) o.passes (H ++ [true]) ↔ _ := held_fail hpos
  have hbefore : (prev.getD (firstFailure r now)).check = check ∧
      (prev.getD (firstFailure r now)).failStreak = streak true H ∧
      ((prev.getD (firstFailure r now)).firing = true ↔ Held (o.fails check) o.passes H) := by
    cases prev with
    | none => exact ⟨hr, h.1.symm, iff_of_false (by simp [firstFailure]) h.2⟩
    | some s => exact ⟨h.1, h.2.1, h.2.2.2⟩
  refine ⟨hcheck.trans hbefore.1, ?_, ?_, ?_⟩
  · rw [hfails, hbefore.2.1, streak_same]
  · rw [hpasses, streak_other (by decide)]
  · rw [hfiring, hbefore.2.2, hbefore.2.1, hraised, streak_same, hr]
    refine or_congr_right ?_
    unfold AlertEngineOptions.fails
    omega

theorem counts_pass {s : AlertState} (h : Counts o check H (some s)) (key detail : String) (now : Int) :
    Counts o check (H ++ [false]) (passed o s key detail now).1 := by
  obtain ⟨hcheck, hfails, hpasses, hfiring⟩ := h
  have hpos : 0 < o.fails check := by
    unfold AlertEngineOptions.fails
    omega
  have hcleared : Held (o.fails check) o.passes (H ++ [false]) ↔ _ := held_pass hpos
  have hcount : s.passStreak + 1 < o.resolveAfter ↔ streak false (H ++ [false]) < o.passes := by
    rw [streak_same, hpasses]
    unfold AlertEngineOptions.passes
    omega
  unfold passed
  dsimp only
  split
  · rename_i hfew
    refine ⟨hcheck, (streak_other (by decide) H).symm, ?_, ?_⟩
    · rw [streak_same, ← hpasses]
    · rw [hcleared, ← hfiring]
      exact (and_iff_left (hcount.1 hfew)).symm
  · rename_i henough
    have hgone : Counts o check (H ++ [false]) none :=
      ⟨streak_other (by decide) H, fun hheld => henough (hcount.2 (hcleared.1 hheld).2)⟩
    split <;> exact hgone

/-- A pass, or silence of a check that ran, of a key nothing is kept of. -/
theorem counts_none (h : Counts o check H none) : Counts o check (H ++ [false]) none :=
  ⟨streak_other (by decide) H, fun hheld => h.2 ((held_pass (by unfold AlertEngineOptions.fails; omega)).1 hheld).1⟩

theorem counts_hear {st : Option AlertState} (h : Counts o check H st) (hx : ∀ r, x = .result r → r.check = check)
    (key : String) (now : Int) : Counts o check (H ++ (verdict check x).toList) (hear o key now st x).1 := by
  cases x with
  | result r =>
    unfold hear verdict
    dsimp only
    by_cases hr : r.failing = true
    · rw [if_pos hr, hr]
      exact counts_fail h (hx r rfl) now
    · rw [if_neg hr, Bool.not_eq_true] at *
      rw [hr]
      cases st with
      | none => exact counts_none h
      | some s => exact counts_pass h key r.detail now
  | absent ran =>
    unfold hear verdict
    dsimp only
    cases st with
    | none =>
      split
      · exact counts_none h
      · rw [Option.toList_none, List.append_nil]
        exact h
    | some s =>
      dsimp only
      rw [h.1]
      split
      · exact counts_pass h key _ now
      · rw [Option.toList_none, List.append_nil]
        exact h

theorem watch_concat (xs : List (Int × Observation)) (x : Int × Observation) :
    watch o key (xs ++ [x]) = hearAt o key (watch o key xs) x := by
  rw [watch, List.foldl_append, List.foldl_cons, List.foldl_nil, watch]

theorem counts_watch (o : AlertEngineOptions) (key : String) (hx : Keyed check xs) :
    Counts o check (history check xs) (watch o key xs).1 := by
  induction xs using List.reverseRecOn with
  | nil =>
    refine ⟨streak_nil, ?_⟩
    rintro ⟨a, b, heq, hraised, -⟩
    obtain ⟨rfl, -⟩ := List.append_eq_nil_iff.1 heq.symm
    rw [streak_nil] at hraised
    unfold AlertEngineOptions.fails at hraised
    omega
  | append_singleton xs x ih =>
    have hstep : history check (xs ++ [x]) = history check xs ++ (verdict check x.2).toList := by
      unfold history
      rw [List.filterMap_append, List.filterMap_cons, List.filterMap_nil]
      cases verdict check x.2 <;> rfl
    rw [hstep, watch_concat]
    refine counts_hear (ih fun t r hr => hx t r (List.mem_append_left _ hr)) (fun r hr => ?_) key x.1
    exact hx x.1 r (List.mem_append_right _ (List.mem_singleton.2 (hr ▸ rfl)))

/-- Every result under the key is of its check. -/
def KeyedTicks (key check : String) (ticks : List Tick) : Prop :=
  ∀ t ∈ ticks, ∀ r ∈ t.results, r.key = key → r.check = check

theorem mem_timed {t : Int} {ticks : List Tick} (h : (t, Observation.result r) ∈ timed key ticks) :
    r.key = key ∧ ∃ tick ∈ ticks, r ∈ tick.results := by
  obtain ⟨tick, htick, hmem⟩ := List.mem_flatMap.1 h
  obtain ⟨x, hx, heq⟩ := List.mem_map.1 hmem
  have hres : x = .result r := congrArg Prod.snd heq
  subst hres
  unfold observationsOf at hx
  dsimp only at hx
  split at hx
  · exact absurd (List.mem_singleton.1 hx) (by simp)
  · obtain ⟨r', hr', hsame⟩ := List.mem_map.1 hx
    rw [Observation.result.injEq] at hsame
    obtain ⟨hin, hkey⟩ := List.mem_filter.1 (hsame ▸ hr')
    exact ⟨of_decide_eq_true hkey, tick, htick, hin⟩

theorem KeyedTicks.timed {ticks : List Tick} (h : KeyedTicks key check ticks) : Keyed check (timed key ticks) := by
  intro t r hr
  obtain ⟨hkey, tick, htick, hin⟩ := mem_timed hr
  exact h tick htick r hin hkey

theorem run_state (o : AlertEngineOptions) (key : String) (ticks : List Tick) :
    (run o ticks).1.get key = (watch o key (timed key ticks)).1 := congrArg Prod.fst (run_key o key ticks)

/-- **A key fires exactly when it should.**  Whatever the ticks report, a key is firing exactly if so many failing results
in a row were heard of it that its check fires, and since then there were not so many passing ones in a row that it
resolves; a key that a check which ran says nothing of passes. -/
theorem firing_exactly (o : AlertEngineOptions) {ticks : List Tick} (h : KeyedTicks key check ticks) :
    (∃ s, (run o ticks).1.get key = some s ∧ s.firing = true) ↔
      Held (o.fails check) o.passes (history check (timed key ticks)) := by
  have hcounts := counts_watch o key h.timed
  rw [run_state]
  cases hst : (watch o key (timed key ticks)).1 with
  | none =>
    rw [hst] at hcounts
    exact iff_of_false (by simp) hcounts.2
  | some s =>
    rw [hst] at hcounts
    rw [← hcounts.2.2.2]
    simp

/-! ## What is delivered -/

/-- When a key was last notified of and when its failure started, if it has been announced and not resolved. -/
def notice (st : Option AlertState) : Option (Int × Int) :=
  st.bind fun s => s.lastNotifiedAt.map fun last => (last, s.firstFailedAt)

/-- What is delivered about a key, oldest first: an announcement, then reminders at their interval and escalations, then that
it is resolved, all of the failure that started when the announcement says; and so on. -/
inductive Delivered (renotifyMs : Int) : List (Int × AlertEvent) → Option (Int × Int) → Prop where
  | nil : Delivered renotifyMs [] none
  | announced {log : List (Int × AlertEvent)} {t : Int} {e : AlertEvent} (h : Delivered renotifyMs log none)
      (hkind : e.kind = .firing) : Delivered renotifyMs (log ++ [(t, e)]) (some (t, e.since))
  | escalated {log : List (Int × AlertEvent)} {t last : Int} {e : AlertEvent}
      (h : Delivered renotifyMs log (some (last, e.since))) (hkind : e.kind = .firing) (hseverity : e.severity = .page) :
      Delivered renotifyMs (log ++ [(t, e)]) (some (t, e.since))
  | reminded {log : List (Int × AlertEvent)} {t last : Int} {e : AlertEvent}
      (h : Delivered renotifyMs log (some (last, e.since))) (hkind : e.kind = .reminder) (hpace : t - last ≥ renotifyMs) :
      Delivered renotifyMs (log ++ [(t, e)]) (some (t, e.since))
  | resolved {log : List (Int × AlertEvent)} {t last : Int} {e : AlertEvent}
      (h : Delivered renotifyMs log (some (last, e.since))) (hkind : e.kind = .resolved) :
      Delivered renotifyMs (log ++ [(t, e)]) none

/-- While nothing is to be delivered yet, only an escalation is, and that it is resolved. -/
def Hushed (o : AlertEngineOptions) (e : Int × AlertEvent) : Prop :=
  o.inGrace e.1 = true → (e.2.kind = .firing ∧ e.2.severity = .page) ∨ e.2.kind = .resolved

/-- What is announced is firing. -/
def Loud (st : Option AlertState) : Prop := ∀ s, st = some s → s.lastNotifiedAt ≠ none → s.firing = true

variable {log : List (Int × AlertEvent)}

/-- The log and the state after a result or a silence. -/
structure Told (o : AlertEngineOptions) (log : List (Int × AlertEvent)) (st : Option AlertState) : Prop where
  delivered : Delivered o.renotifyMs log (notice st)
  hushed : ∀ e ∈ log, Hushed o e
  loud : Loud st

theorem Told.quiet {st st' : Option AlertState} (h : Told o log st) (hnotice : notice st' = notice st) (hloud : Loud st') :
    Told o (log ++ ([] : List AlertEvent).map fun e => (now, e)) st' := by
  rw [List.map_nil, List.append_nil]
  exact ⟨hnotice ▸ h.delivered, h.hushed, hloud⟩

theorem Told.note {st : Option AlertState} (h : Told o log st) (s : AlertState) (e : AlertEvent) (hfiring : s.firing = true)
    (hdelivered : Delivered o.renotifyMs (log ++ [(now, e)]) (some (now, s.firstFailedAt))) (hhushed : Hushed o (now, e)) :
    Told o (log ++ [e].map fun e => (now, e)) (some { s with lastNotifiedAt := some now }) := by
  refine ⟨hdelivered, fun e' he' => ?_, fun s' hs' _ => ?_⟩
  · rcases List.mem_append.1 he' with he' | he'
    · exact h.hushed e' he'
    · rw [List.mem_singleton.1 he']
      exact hhushed
  · rw [← Option.some.inj hs']
    exact hfiring

theorem told_failed {prev : Option AlertState} (h : Told o log prev) (r : CheckResult) (now : Int) :
    Told o (log ++ (failed o prev r now).2.map fun e => (now, e)) (some (failed o prev r now).1) := by
  -- A first failure starts from a state that was never announced.
  have hstart : Told o log (some (prev.getD (firstFailure r now))) := by
    cases prev with
    | none => exact ⟨h.delivered, h.hushed, fun s hs hne => absurd (congrArg AlertState.lastNotifiedAt (Option.some.inj hs)) hne.symm⟩
    | some s => exact h
  unfold failed
  dsimp only
  generalize prev.getD (firstFailure r now) = s at hstart ⊢
  have hdelivered := hstart.delivered
  have hnever : s.lastNotifiedAt = none → notice (some s) = none := fun hnone => by simp [notice, hnone]
  have hsilent : s.firing ≠ true → s.lastNotifiedAt = none := fun hf => not_not.1 fun hne => hf (hstart.loud s rfl hne)
  split
  · rename_i hfew
    exact hstart.quiet rfl fun s' hs' hne => by
      rw [← Option.some.inj hs'] at hne
      exact absurd (hsilent (by rw [hfew.1]; decide)) hne
  · split
    · rename_i _ hf
      have hnone := hnever (hsilent (by rw [hf]; decide))
      split
      · exact hstart.quiet rfl fun s' hs' _ => by rw [← Option.some.inj hs']
      · rename_i hgrace
        refine hstart.note _ _ rfl ?_ fun hin => absurd hin hgrace
        rw [hnone] at hdelivered
        exact hdelivered.announced rfl
    · rename_i hf
      have hfiring : s.firing = true := by simpa using hf
      split
      · rename_i hescalated
        refine hstart.note _ _ hfiring ?_ fun _ => .inl ⟨rfl, hescalated.2.1⟩
        cases hlast : s.lastNotifiedAt with
        | none =>
          rw [hnever hlast] at hdelivered
          exact hdelivered.announced rfl
        | some last =>
          have hnotice : notice (some s) = some (last, s.firstFailedAt) := by simp [notice, hlast]
          rw [hnotice] at hdelivered
          exact hdelivered.escalated rfl hescalated.2.1
      · split
        · exact hstart.quiet rfl fun s' hs' _ => by rw [← Option.some.inj hs']; exact hfiring
        · rename_i hgrace
          split
          · rename_i hlast
            refine hstart.note _ _ hfiring ?_ fun hin => absurd hin hgrace
            rw [hnever hlast] at hdelivered
            exact hdelivered.announced rfl
          · rename_i last hlast
            split
            · rename_i hpace
              refine hstart.note _ _ hfiring ?_ fun hin => absurd hin hgrace
              have hnotice : notice (some s) = some (last, s.firstFailedAt) := by simp [notice, hlast]
              rw [hnotice] at hdelivered
              exact hdelivered.reminded rfl hpace
            · exact hstart.quiet rfl fun s' hs' _ => by rw [← Option.some.inj hs']; exact hfiring

theorem told_passed {s : AlertState} (h : Told o log (some s)) (key detail : String) (now : Int) :
    Told o (log ++ (passed o s key detail now).2.map fun e => (now, e)) (passed o s key detail now).1 := by
  unfold passed
  dsimp only
  split
  · exact h.quiet rfl fun s' hs' hne => by
      rw [← Option.some.inj hs'] at hne ⊢
      exact h.loud s rfl hne
  · split
    · rename_i hnever
      have hnone : s.lastNotifiedAt = none := by
        rcases hnever with hf | hnone
        · by_contra hne
          exact absurd (h.loud s rfl hne) (by rw [hf]; decide)
        · exact hnone
      exact h.quiet (by simp [notice, hnone]) fun s' hs' => absurd hs' (by simp)
    · rename_i hannounced
      rw [not_or] at hannounced
      obtain ⟨last, hlast⟩ := Option.ne_none_iff_exists'.1 hannounced.2
      have hnotice : notice (some s) = some (last, s.firstFailedAt) := by simp [notice, hlast]
      have hdelivered := h.delivered
      rw [hnotice] at hdelivered
      refine ⟨hdelivered.resolved rfl, fun e he => ?_, fun s' hs' => absurd hs' (by simp)⟩
      rcases List.mem_append.1 he with he | he
      · exact h.hushed e he
      · rw [List.mem_singleton.1 he]
        exact fun _ => .inr rfl

theorem told_hearAt {p : Option AlertState × List (Int × AlertEvent)} (h : Told o p.2 p.1) (key : String)
    (x : Int × Observation) : Told o (hearAt o key p x).2 (hearAt o key p x).1 := by
  obtain ⟨now, x⟩ := x
  unfold hearAt
  dsimp only
  have hnothing : Told o (p.2 ++ ([] : List AlertEvent).map fun e => (now, e)) p.1 := h.quiet rfl h.loud
  cases x with
  | result r =>
    unfold hear
    dsimp only
    split
    · exact told_failed h r now
    · obtain ⟨st, log⟩ := p
      cases st with
      | none => exact hnothing
      | some s => exact told_passed h key r.detail now
  | absent ran =>
    unfold hear
    dsimp only
    obtain ⟨st, log⟩ := p
    cases st with
    | none => exact hnothing
    | some s =>
      dsimp only
      split
      · exact told_passed h key _ now
      · exact hnothing

theorem told_watch (o : AlertEngineOptions) (key : String) (xs : List (Int × Observation)) :
    Told o (watch o key xs).2 (watch o key xs).1 := by
  induction xs using List.reverseRecOn with
  | nil => exact ⟨.nil, fun e he => absurd he List.not_mem_nil, fun s hs => absurd hs (by simp [watch])⟩
  | append_singleton xs x ih =>
    rw [watch_concat]
    exact told_hearAt ih key x

/-- **What is delivered about a key tells its story in order.**  Whatever the ticks report: nothing is repeated or resolved
that was not announced, nothing announced is announced again unless it became a page, a reminder comes at least its
interval after what was last delivered, all of an incident is dated from its first failing result, and in the grace
window nothing is delivered but that an alert became a page, or is over. -/
theorem alerts_delivered (o : AlertEngineOptions) (ticks : List Tick) (key : String) :
    Delivered o.renotifyMs ((run o ticks).2.filter fun e => decide (e.2.key = key)) (notice ((run o ticks).1.get key)) ∧
      ∀ e ∈ (run o ticks).2, e.2.key = key → Hushed o e := by
  have htold := told_watch o key (timed key ticks)
  have hlog : (run o ticks).2.filter (fun e => decide (e.2.key = key)) = (watch o key (timed key ticks)).2 :=
    congrArg Prod.snd (run_key o key ticks)
  rw [run_state, hlog]
  refine ⟨htold.delivered, fun e he hkey => htold.hushed e ?_⟩
  rw [← hlog]
  exact List.mem_filter.2 ⟨he, by simpa using hkey⟩

/-- A failing result outside the grace window leaves no firing key unannounced, or due for a reminder. -/
theorem failed_loud (prev : Option AlertState) (r : CheckResult) {now : Int} (hgrace : o.inGrace now = false)
    (hf : (failed o prev r now).1.firing = true) :
    ∃ last, (failed o prev r now).1.lastNotifiedAt = some last ∧ (last = now ∨ now - last < o.renotifyMs) := by
  unfold failed at hf ⊢
  dsimp only at hf ⊢
  split
  · rename_i hfew
    rw [if_pos hfew] at hf
    exact absurd (hfew.1.symm.trans hf) (by decide)
  · split
    · rw [if_neg (by rw [hgrace]; decide)]
      exact ⟨now, rfl, .inl rfl⟩
    · split
      · exact ⟨now, rfl, .inl rfl⟩
      · rw [if_neg (by rw [hgrace]; decide)]
        split
        · exact ⟨now, rfl, .inl rfl⟩
        · rename_i last hlast
          split
          · exact ⟨now, rfl, .inl rfl⟩
          · rename_i hpace
            exact ⟨last, hlast, .inr (by omega)⟩

/-- **No incident is silent.**  Once the grace window is over, a tick that reports a key failing which should fire leaves it
announced, and last notified of less than the interval ago. -/
theorem never_silent (o : AlertEngineOptions) {ticks : List Tick} {t : Tick} {os : List Observation}
    (h : KeyedTicks key check (ticks ++ [t])) (hgrace : o.inGrace t.now = false)
    (hlast : observationsOf key t = os ++ [.result r]) (hr : r.failing = true)
    (hheld : Held (o.fails check) o.passes (history check (timed key (ticks ++ [t])))) :
    ∃ s last, (run o (ticks ++ [t])).1.get key = some s ∧ s.lastNotifiedAt = some last ∧
      (last = t.now ∨ t.now - last < o.renotifyMs) := by
  have htimed : timed key (ticks ++ [t]) =
      (timed key ticks ++ os.map fun x => (t.now, x)) ++ [(t.now, .result r)] := by
    simp [timed, hlast]
  have hstate : (run o (ticks ++ [t])).1.get key =
      some (failed o (watch o key (timed key ticks ++ os.map fun x => (t.now, x))).1 r t.now).1 := by
    rw [run_state, htimed, watch_concat]
    simp only [hearAt, hear, hr, if_true]
  obtain ⟨s, hs, hfiring⟩ := (firing_exactly o h).2 hheld
  rw [hstate, Option.some.injEq] at hs
  obtain ⟨last, hnotified, hpace⟩ := failed_loud (watch o key (timed key ticks ++ os.map fun x => (t.now, x))).1 r hgrace
    (hs ▸ hfiring)
  exact ⟨_, last, hstate, hnotified, hpace⟩

/-! ## A flapping feed -/

def sampleOptions : AlertEngineOptions := ⟨2, 2, 60000, 30000, 0, fun _ => none⟩

def sampleTick (status : CheckStatus) (now : Int) : Tick :=
  ⟨[⟨"oracle.freshness:BTC", "oracle.freshness", some "BTC", status, .warn, "stale", [], "oracle.md"⟩], ["oracle.freshness"], now⟩

/-- Two failures fire in the grace window, unheard; one pass does not resolve them, and the next failure announces them. -/
def flapping : List Tick := [sampleTick .fail 0, sampleTick .error 10000, sampleTick .pass 20000, sampleTick .fail 40000]

theorem keyedTicks_sample {ticks : List Tick} (h : ∀ t ∈ ticks, ∃ status now, t = sampleTick status now) :
    KeyedTicks "oracle.freshness:BTC" "oracle.freshness" ticks := by
  intro t ht r hr _
  obtain ⟨status, now, rfl⟩ := h t ht
  rw [List.mem_singleton.1 hr]

theorem flapping_sample : ∀ t ∈ flapping, ∃ status now, t = sampleTick status now := by
  intro t ht
  simp only [flapping, List.mem_cons, List.not_mem_nil, or_false] at ht
  rcases ht with rfl | rfl | rfl | rfl <;> exact ⟨_, _, rfl⟩

theorem firing_exactly_flapping : ∃ s, (run sampleOptions flapping).1.get "oracle.freshness:BTC" = some s ∧ s.firing = true :=
  (firing_exactly sampleOptions (keyedTicks_sample flapping_sample)).2
    ⟨[true, true], [false, true], by decide +kernel, by decide +kernel, by decide +kernel⟩

theorem never_silent_flapping : ∃ s last, (run sampleOptions flapping).1.get "oracle.freshness:BTC" = some s ∧
    s.lastNotifiedAt = some last ∧ (last = 40000 ∨ 40000 - last < 60000) := by
  have hkeyed : KeyedTicks "oracle.freshness:BTC" "oracle.freshness"
      ([sampleTick .fail 0, sampleTick .error 10000, sampleTick .pass 20000] ++ [sampleTick .fail 40000]) :=
    keyedTicks_sample flapping_sample
  have hlast : observationsOf "oracle.freshness:BTC" (sampleTick .fail 40000) = [] ++ [.result
      ⟨"oracle.freshness:BTC", "oracle.freshness", some "BTC", .fail, .warn, "stale", [], "oracle.md"⟩] := rfl
  exact never_silent sampleOptions hkeyed (by decide +kernel) hlast (by decide +kernel)
    ⟨[true, true], [false, true], by decide +kernel, by decide +kernel, by decide +kernel⟩

end Kryon.Alerting
