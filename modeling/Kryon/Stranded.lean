import Kryon.Release
/-!
# Stranded — which reservations recovery leaves behind

Recovery ends with a scan for orphans.  A fill that is stranded all along the scan, so that its batch can no longer be mined
and the chain does not account for it, is released iff its job was neither superseded nor reverted when the scan began
(`recover_releases`): a fee bump leaves its fills linked to the job it replaced, and the scan looks for dropped and failed
jobs only.
-/
namespace Kryon.Matcher

open Transition (Run Machine)

variable {marketIds : List MarketId} {s t u : Shard} {a : Act} {r : FillRow} {cutoff : Int}

/-! ## Linked fills -/

/-- A PENDING fill that is linked is carried by its job. -/
structure Carried (marketIds : List MarketId) (s : Shard) : Prop where
  indexed : Indexed s.db
  filed : Filed marketIds s.db
  /-- The job that is sent, or was accepted, is of the batch. -/
  batch : ∀ fills id, ((∃ attempt, s.phase = .sending fills attempt id) ∨ s.phase = .submitted fills id) →
    ∃ j ∈ s.db.jobs, j.id = id ∧ j.data = fills
  linked : ∀ r ∈ s.db.fills, r.status = .pending → ∀ id, r.txJobId = some id → ∃ j ∈ s.db.jobs, j.id = id ∧ j.carries r.fillId

theorem step_job (h : Step marketIds s a t) {j : TxJob} (hj : j ∈ s.db.jobs) :
    ∃ k ∈ t.db.jobs, k.id = j.id ∧ k.data = j.data := by
  obtain ⟨k, hk, htx⟩ := step_tx h hj
  exact ⟨k, hk, congrArg SignedTx.id htx, congrArg SignedTx.data htx⟩

theorem step_batch (hs : Carried marketIds s) (h : Step marketIds s a t) : ∀ fills id,
    ((∃ attempt, t.phase = .sending fills attempt id) ∨ t.phase = .submitted fills id) →
      ∃ j ∈ t.db.jobs, j.id = id ∧ j.data = fills := by
  intro fills id hp
  have hold : ((∃ attempt, s.phase = .sending fills attempt id) ∨ s.phase = .submitted fills id) →
      ∃ j ∈ t.db.jobs, j.id = id ∧ j.data = fills := by
    intro hp
    obtain ⟨j, hj, hid, hdata⟩ := hs.batch fills id hp
    obtain ⟨k, hk, hkid, hkdata⟩ := step_job h hj
    exact ⟨k, hk, hkid.trans hid, hkdata.trans hdata⟩
  cases h with
  | sign hp' hid =>
    rcases hp with ⟨attempt, hp⟩ | hp
    · injection hp with hfills hattempt hid
      exact ⟨_, List.mem_append_right _ (List.mem_singleton_self _), hid, hfills⟩
    · cases hp
  | accepted hp' =>
    rcases hp with ⟨attempt, hp⟩ | hp
    · cases hp
    · injection hp with hfills hid
      exact hold (Or.inl ⟨_, hfills ▸ hid ▸ hp'⟩)
  | rebroadcast | resend | mine | foreign | close | upkeep => exact hold hp
  | nonceTooLow =>
    simp only [retried] at hp
    split_ifs at hp
    · rcases hp with ⟨attempt, hp⟩ | hp <;> cases hp
    · rcases hp with ⟨attempt, hp⟩ | hp <;> cases hp
  | @found w c k j ok =>
    cases w with
    | settle batch => cases ok <;> rcases hp with ⟨attempt, hp⟩ | hp <;> cases hp
    | recover todo => rcases hp with ⟨attempt, hp⟩ | hp <;> cases hp
  | @timeout w => cases w <;> rcases hp with ⟨attempt, hp⟩ | hp <;> cases hp
  | @taken w => cases w <;> rcases hp with ⟨attempt, hp⟩ | hp <;> cases hp
  | @throw w => cases w <;> rcases hp with ⟨attempt, hp⟩ | hp <;> cases hp
  | @bumpRefused w => cases w <;> rcases hp with ⟨attempt, hp⟩ | hp <;> cases hp
  | reserve | abort | refused | release | link | replace | supersede | bumped | bumpTooLow | underpriced | crash | restart
  | resume | query | read | finish => rcases hp with ⟨attempt, hp⟩ | hp <;> cases hp

theorem step_carried (hs : Carried marketIds s) (h : Step marketIds s a t) : Carried marketIds t where
  indexed := step_indexed hs.indexed h
  filed := step_filed hs.indexed hs.filed h
  batch := step_batch hs h
  linked := by
    intro r hr hp id hid
    have hold : ∀ r' ∈ s.db.fills, r'.status = .pending → r'.txJobId = some id → r'.fillId = r.fillId →
        ∃ j ∈ t.db.jobs, j.id = id ∧ j.carries r.fillId := by
      intro r' hr' hp' hid' hfid
      obtain ⟨j, hj, hjid, hc⟩ := hs.linked r' hr' hp' id hid'
      obtain ⟨k, hk, hkid, hdata⟩ := step_job h hj
      refine ⟨k, hk, hkid.trans hjid, ?_⟩
      rw [TxJob.carries, hdata]
      exact hfid ▸ hc
    rcases step_rows hs.indexed h with hkept | ⟨fills, createdAt, -, -, hrows⟩ | ⟨fills, j, hphase, -, hrows⟩ |
      ⟨ids, -, -, hrows⟩
    · obtain ⟨r', hr', hp', hfid, hjob, -⟩ := hkept.pending r hr hp
      exact hold r' hr' hp' (hjob.trans hid) hfid
    · rw [hrows] at hr
      rcases (persist_rows createdAt fills s.db.fills).2.2.1 r hr with hr | ⟨f, hf, rfl⟩
      · exact hold r hr hp hid rfl
      · cases hid
    · rw [hrows] at hr
      obtain ⟨r', hr', rfl⟩ := List.mem_map.1 hr
      split_ifs at hp hid hold ⊢ with hin
      · injection hid with hid
        obtain ⟨k, hk, hkid, hdata⟩ := hs.batch fills j (Or.inr hphase)
        obtain ⟨k', hk', hkid', hdata'⟩ := step_job h hk
        refine ⟨k', hk', (hkid'.trans hkid).trans hid, ?_⟩
        rw [TxJob.carries, hdata', hdata]
        exact hin.1
      · exact hold r' hr' hp hid rfl
    · rw [hrows] at hr
      exact hold r (List.mem_filter.1 hr).1 hp hid rfl

theorem initial_carried (h : s.Initial) : Carried marketIds s := by
  obtain ⟨hphase, hfills, hjobs, -, -⟩ := h
  have hnone : ∀ r, r ∉ s.db.fills := fun r => hfills ▸ List.not_mem_nil
  refine ⟨⟨hfills ▸ List.nodup_nil, hjobs ▸ List.nodup_nil⟩, fun r hr => absurd hr (hnone r), fun fills id hp => ?_,
    fun r hr => absurd hr (hnone r)⟩
  rw [hphase] at hp
  rcases hp with ⟨attempt, hp⟩ | hp <;> cases hp

theorem reachable_carried (h : Transition.Reachable (machine marketIds) s) : Carried marketIds s :=
  h.invariant (Carried marketIds) (fun _ h => initial_carried h) fun _ _ _ _ hs h => step_carried hs h

/-! ## Stranded fills -/

/-- Superseded, or ended without success. -/
def TxJobStatus.spent : TxJobStatus → Bool
  | .replaced | .reverted | .dropped | .failed => true
  | .pending | .submitted | .confirmed => false

/-- A fill that is reserved for nothing: its row is PENDING without a reason and older than the grace period, the jobs that
carry it and their replacements have ended without success, with their nonces gone, and what the chain has filled of the
maker order leaves no room for it. -/
structure Stranded (cutoff : Int) (r : FillRow) (s : Shard) : Prop where
  row : r ∈ s.db.fills
  pending : r.status = .pending
  unreasoned : r.rejectReason = none
  old : r.createdAt < cutoff
  finished : ∀ j ∈ s.db.jobs, j.carries r.fillId → j.status.spent = true ∧ j.nonce < s.mined
  unaccounted : ∀ o, loadSignedOrder s.db r.makerOrderHash = some o →
    s.filled o.order.owner o.order.nonce < settledSize s.db.fills r.makerOrderHash + r.size

/-- The jobs a stranded fill is released from: neither superseded nor reverted. -/
def Recoverable (db : Db) (r : FillRow) : Prop :=
  ∀ j ∈ db.jobs, r.txJobId = some j.id → j.status ≠ .replaced ∧ j.status ≠ .reverted

theorem Stranded.unattended_iff (hs : Carried marketIds s) (hr : Stranded cutoff r s) :
    unattended s.db r = true ↔ Recoverable s.db r := by
  unfold unattended Recoverable
  cases hjob : r.txJobId with
  | none => exact iff_of_true rfl fun _ _ h => by cases h
  | some id =>
    obtain ⟨j, hj, hid, hc⟩ := hs.linked r hr.row hr.pending id hjob
    have honly : ∀ k ∈ s.db.jobs, k.id = id → k = j := fun k hk hkid => hs.indexed.job_eq hk hj (hkid.trans hid.symm)
    have hspent := (hr.finished j hj hc).1
    rw [List.any_eq_true]
    constructor
    · rintro ⟨k, hk, hcond⟩ l hl hlid
      rw [decide_eq_true_eq] at hcond
      injection hlid with hlid
      rw [honly l hl hlid.symm, ← honly k hk hcond.1]
      rcases hcond.2 with h | h <;> rw [h] <;> exact ⟨by decide, by decide⟩
    · intro hrec
      obtain ⟨hrep, hrev⟩ := hrec j hj (by rw [hid])
      refine ⟨j, hj, decide_eq_true ⟨hid, ?_⟩⟩
      cases hst : j.status with
      | replaced => exact absurd hst hrep
      | reverted => exact absurd hst hrev
      | dropped => exact Or.inl rfl
      | failed => exact Or.inr rfl
      | pending | submitted | confirmed =>
        rw [hst] at hspent
        cases hspent

/-- **A stranded fill is an orphan iff its job was dropped or failed**, or it has none. -/
theorem Stranded.mem_orphans (hs : Carried marketIds s) (hr : Stranded cutoff r s) :
    r ∈ orphans s.db marketIds cutoff ↔ Recoverable s.db r := by
  unfold orphans
  rw [List.mem_filter, Bool.and_eq_true, decide_eq_true_eq, hr.unattended_iff hs]
  exact ⟨fun h => h.2.2, fun h => ⟨hr.row, ⟨hr.pending, (hs.filed r hr.row hr.pending).1, hr.old⟩, h⟩⟩

theorem Stranded.read (hs : Carried marketIds s) (hr : Stranded cutoff r s) :
    Matcher.unaccounted s.db s.filled r = true := by
  unfold Matcher.unaccounted
  cases ho : loadSignedOrder s.db r.makerOrderHash with
  | none => exact absurd ho (loadSignedOrder_ne_none.2 (hs.filed r hr.row hr.pending).2)
  | some o => exact decide_eq_true (hr.unaccounted o ho)

/-! ## The scan -/

def Phase.scans : Phase → Prop
  | .scanning _ _ => True
  | .down | .idle | .reserved .. | .sending .. | .failing _ | .submitted .. | .awaiting .. | .replacing .. | .resending ..
  | .reverted _ | .recovering _ => False

/-- A scan reads the next row; other steps leave it as it is. -/
theorem step_scan {rows rows' : List FillRow} {release release' : List Bytes32} (h : Step marketIds s a t)
    (hs : s.phase = .scanning rows release) (ht : t.phase = .scanning rows' release') :
    (rows' = rows ∧ release' = release) ∨ ∃ r, rows = r :: rows' ∧
      release' = if unaccounted s.db s.filled r = true then release ++ [r.fillId] else release := by
  have hsame : t.phase = s.phase → (rows' = rows ∧ release' = release) ∨ ∃ r, rows = r :: rows' ∧
      release' = if unaccounted s.db s.filled r = true then release ++ [r.fillId] else release := by
    intro hp
    rw [hs, ht] at hp
    injection hp with hrows hrelease
    exact Or.inl ⟨hrows, hrelease⟩
  cases h with
  | read hp =>
    rw [hp] at hs
    injection hs with hrows hrelease
    injection ht with hrows' hrelease'
    subst hrows hrelease hrows' hrelease'
    exact Or.inr ⟨_, rfl, rfl⟩
  | rebroadcast | resend | mine | foreign | close | upkeep => exact hsame rfl
  | crash | restart | reserve | abort | sign | accepted | refused | release | link | replace | supersede | bumped
  | bumpTooLow | underpriced | resume | finish => cases ht
  | nonceTooLow _ hp =>
    rw [hp] at hs
    cases hs
  | query hp | found hp | timeout hp | taken hp | throw hp | bumpRefused hp =>
    rw [hp] at hs
    cases hs

/-- The scans through which the fill stays stranded. -/
def scan (marketIds : List MarketId) (cutoff : Int) (r : FillRow) : Machine Shard Act :=
  (machine marketIds).restrict fun s _ => s.phase.scans ∧ Stranded cutoff r s

/-- What a scan of `rows₀` has left to read and has decided to release, of the fill and of the others. -/
def Scanned (rows₀ : List FillRow) (r : FillRow) (s : Shard) : Prop :=
  ∀ rows release, s.phase = .scanning rows release → (∀ r' ∈ rows, r' ∈ rows₀) ∧
    (∀ i ∈ release, ∃ r' ∈ rows₀, r'.fillId = i) ∧ (r ∈ rows₀ → r ∈ rows ∨ r.fillId ∈ release)

theorem step_scanned {rows₀ : List FillRow} (hs : Carried marketIds s) (hscan : Scanned rows₀ r s)
    (hr : Stranded cutoff r s) (hp : s.phase.scans) (h : Step marketIds s a t) : Scanned rows₀ r t := by
  intro rows' release' ht
  obtain ⟨rows, release, hphase⟩ : ∃ rows release, s.phase = .scanning rows release := by
    cases hp' : s.phase with
    | scanning rows release => exact ⟨rows, release, rfl⟩
    | _ =>
      rw [hp'] at hp
      exact hp.elim
  obtain ⟨hrows, hrelease, hin⟩ := hscan rows release hphase
  rcases step_scan h hphase ht with ⟨rfl, rfl⟩ | ⟨r₀, rfl, rfl⟩
  · exact ⟨hrows, hrelease, hin⟩
  · refine ⟨fun r' hr' => hrows r' (List.mem_cons_of_mem _ hr'), fun i hi => ?_, fun hmem => ?_⟩
    · split_ifs at hi
      · rcases List.mem_append.1 hi with hi | hi
        · exact hrelease i hi
        · exact ⟨r₀, hrows r₀ List.mem_cons_self, (List.mem_singleton.1 hi).symm⟩
      · exact hrelease i hi
    · rcases hin hmem with hin | hin
      · rcases List.mem_cons.1 hin with rfl | hin
        · rw [if_pos (hr.read hs)]
          exact Or.inr (List.mem_append_right _ (List.mem_singleton_self _))
        · exact Or.inl hin
      · refine Or.inr ?_
        split_ifs
        · exact List.mem_append_left _ hin
        · exact hin

/-- **A scan releases a stranded fill iff it selected it.** -/
theorem scan_releases {as : List Act} (hs : Transition.Reachable (machine marketIds) s)
    (hquery : Step marketIds s (.query cutoff) u) (hrun : Run (scan marketIds cutoff r) u as t)
    (hr : Stranded cutoff r s) {release : List Bytes32} (hend : t.phase = .scanning [] release) :
    r.fillId ∈ release ↔ r ∈ orphans s.db marketIds cutoff := by
  have hcarried := reachable_carried hs
  have hstart : Carried marketIds u ∧ Scanned (orphans s.db marketIds cutoff) r u := by
    refine ⟨step_carried hcarried hquery, ?_⟩
    cases hquery with
    | query hp =>
      intro rows release hphase
      injection hphase with hrows hrelease
      subst hrows hrelease
      exact ⟨fun r' hr' => hr', fun i hi => absurd hi List.not_mem_nil, fun hmem => Or.inl hmem⟩
  have hfinal := hrun.preserves (fun x => Carried marketIds x ∧ Scanned (orphans s.db marketIds cutoff) r x)
    (fun x l y hx (hl : (x.phase.scans ∧ Stranded cutoff r x) ∧ Step marketIds x l y) =>
      ⟨step_carried hx.1 hl.2, step_scanned hx.1 hx.2 hl.1.2 hl.1.1 hl.2⟩) hstart
  obtain ⟨-, hrelease, hin⟩ := hfinal.2 [] release hend
  constructor
  · intro hmem
    obtain ⟨r', hr', hid⟩ := hrelease r.fillId hmem
    have hsame : r' = r :=
      List.inj_on_of_nodup_map hcarried.indexed.fills (List.mem_filter.1 hr').1 hr.row hid
    exact hsame ▸ hr'
  · exact fun hmem => (hin hmem).resolve_left List.not_mem_nil

/-- **Which reservations recovery gives back.**  In every run, a fill that is stranded from the start of recovery's scan to
its end is released when recovery completes iff its job was neither superseded by a fee bump nor reverted. -/
theorem recover_releases (marketIds : List MarketId) (cutoff : Int) (s u t s' : Shard) (r : FillRow) (as : List Act)
    (hs : Transition.Reachable (machine marketIds) s) (hquery : Step marketIds s (.query cutoff) u)
    (hrun : Run (scan marketIds cutoff r) u as t) (ht : Stranded cutoff r t) (hfinish : Step marketIds t .finish s')
    (hr : Stranded cutoff r s) : r.fillId ∉ s'.db.fills.map (·.fillId) ↔ Recoverable s.db r := by
  cases hfinish with
  | @finish release hp =>
    have hindexed : Indexed t.db :=
      (reachable_carried ((hs.step hquery).of_run hrun.of_restrict)).indexed
    rw [← hr.mem_orphans (reachable_carried hs), ← scan_releases hs hquery hrun hr hp]
    constructor
    · intro hgone
      by_contra hout
      refine hgone (List.mem_map.2 ⟨r, List.mem_filter.2 ⟨ht.row, ?_⟩, rfl⟩)
      rw [Bool.not_eq_true', decide_eq_false_iff_not]
      exact fun h => hout h.1
    · intro hin hmem
      obtain ⟨r', hr', hid⟩ := List.mem_map.1 hmem
      obtain ⟨hrow, hkept⟩ := List.mem_filter.1 hr'
      have hsame : r' = r := List.inj_on_of_nodup_map hindexed.fills hrow ht.row hid
      rw [hsame, Bool.not_eq_true', decide_eq_false_iff_not] at hkept
      exact hkept ⟨hin, ht.pending⟩

namespace Sample

def accepted : Shard :=
  { sending.putJobs (setStatus 0 .submitted sending.db.jobs) with
    phase := .submitted [closed 0] 0
    sent := 0 :: sending.sent }

/-- The batch is broadcast and linked, and the process crashes. -/
def crashed : Shard :=
  { accepted with phase := .down, db := linkFillsToJob accepted.db ([closed 0].map (·.fillId)) 0 }

theorem crashed_reachable : Transition.Reachable (machine [1]) crashed := by
  obtain ⟨start, as, hstart, hrun⟩ := sending_reachable
  have haccepted : Step [1] sending .accepted accepted := .accepted rfl
  have hlink : Step [1] accepted .link
      { crashed with phase := .awaiting (.settle [closed 0]) 0 } := .link rfl
  have hcrash : Step [1] { crashed with phase := .awaiting (.settle [closed 0]) 0 } .crash crashed := .crash
  exact ⟨start, _, hstart, ((hrun.of_restrict.snoc haccepted).snoc hlink).snoc hcrash⟩

/-- The row of the fill, linked to the job. -/
def row : FillRow := { pendingRow (closed 0) 0 with txJobId := some 0 }

/-- The transaction is mined and reverts. -/
def reverted : Shard :=
  { crashed with mined := 1, receipts := [(0, false)], filled := settleFilled crashed.filled [] }

/-- Recovery has waited for the job, and found it reverted. -/
def waited : Shard :=
  { reverted.putJobs (recordMined 0 0 false reverted.db.jobs) with phase := .recovering [] }

theorem waited_reachable : Transition.Reachable (machine [1]) waited := by
  have hmine : Step [1] crashed (.mine 0 false []) reverted :=
    Step.mine (j := ⟨0, 0, [closed 0], .submitted⟩) (List.mem_singleton_self _) (List.mem_singleton_self _) rfl
      (List.Sublist.refl _)
  have hrestart : Step [1] reverted .restart { reverted with phase := .recovering [0] } := .restart rfl
  have hresume : Step [1] { reverted with phase := .recovering [0] } .resume
      { reverted with
        phase := .awaiting (.recover []) 0
        db := linkFillsToJob reverted.db ((fillsForJob reverted.db 0).map (·.fillId)) 0 } := .resume rfl
  -- The fill is linked to the job already.
  have hrelink : linkFillsToJob reverted.db ((fillsForJob reverted.db 0).map (·.fillId)) 0 = reverted.db :=
    congrArg (fun fills => { reverted.db with fills := fills }) (by decide +kernel)
  rw [hrelink] at hresume
  have hfound : Step [1] { reverted with phase := .awaiting (.recover []) 0 } (.found 0 false)
      { reverted.putJobs (recordMined 0 0 false reverted.db.jobs) with phase := Wait.mined false (.recover []) } :=
    Step.found (j := ⟨0, 0, [closed 0], .submitted⟩) rfl (List.mem_singleton_self _) rfl (List.mem_singleton_self _) rfl
      (List.mem_singleton_self _)
  exact (((crashed_reachable.step hmine).step hrestart).step hresume).step hfound

/-- The nonce goes to another transaction, and the reconciler drops the job. -/
def dropped : Shard :=
  { crashed.putJobs (setStatus 0 .dropped crashed.db.jobs) with phase := .recovering [], mined := 1 }

theorem dropped_reachable : Transition.Reachable (machine [1]) dropped := by
  have hforeign : Step [1] crashed .foreign { crashed with mined := 1 } := .foreign
  have hclose : Step [1] { crashed with mined := 1 } (.close 0 .dropped)
      { dropped with phase := .down } :=
    Step.close (j := ⟨0, 0, [closed 0], .submitted⟩) (List.mem_singleton_self _) rfl (Or.inr (Or.inr ⟨rfl, Nat.zero_lt_one⟩))
  have hrestart : Step [1] { dropped with phase := .down } .restart dropped := .restart rfl
  exact ((crashed_reachable.step hforeign).step hclose).step hrestart

theorem row_stranded {s : Shard} (hfills : s.db.fills = [row]) (horders : s.db.orders = listed.orders)
    (hjobs : ∀ j ∈ s.db.jobs, j.status.spent = true ∧ j.nonce < s.mined) (hfilled : s.filled 11 5 = 0) :
    Stranded 1 row s := by
  refine ⟨hfills ▸ List.mem_singleton_self _, rfl, rfl, by decide, fun j hj _ => hjobs j hj, fun o ho => ?_⟩
  have hmaker : loadSignedOrder s.db row.makerOrderHash = some ⟨1, sell, [], .open_, 0, 1⟩ := by
    unfold loadSignedOrder
    rw [horders]
    decide +kernel
  rw [hmaker] at ho
  injection ho with ho
  rw [← ho, hfills]
  have hzero : s.filled sell.owner sell.nonce = 0 := hfilled
  rw [hzero]
  decide +kernel

end Sample

/-- The job was dropped, and its fill is released. -/
theorem recover_releases_dropped : Sample.row.fillId ∉
    (releasePendingFills Sample.dropped.db [Sample.row.fillId]).fills.map (·.fillId) := by
  have hspent : ∀ j ∈ Sample.dropped.db.jobs, j.status.spent = true ∧ j.nonce < Sample.dropped.mined := by decide +kernel
  have hstranded : ∀ p, Stranded 1 Sample.row { Sample.dropped with phase := p } := fun p =>
    Sample.row_stranded rfl rfl hspent rfl
  have hquery : Step [1] Sample.dropped (.query 1)
      { Sample.dropped with phase := .scanning (orphans Sample.dropped.db [1] 1) [] } := .query rfl
  have horphans : orphans Sample.dropped.db [1] 1 = [Sample.row] := by decide +kernel
  rw [horphans] at hquery
  have hread : Step [1] { Sample.dropped with phase := .scanning [Sample.row] [] } .read
      { Sample.dropped with
        phase := .scanning [] (if unaccounted Sample.dropped.db Sample.dropped.filled Sample.row = true then
          [] ++ [Sample.row.fillId] else []) } := .read rfl
  have hshort : unaccounted Sample.dropped.db Sample.dropped.filled Sample.row = true := by decide +kernel
  rw [if_pos hshort] at hread
  have hfinish : Step [1] { Sample.dropped with phase := .scanning [] ([] ++ [Sample.row.fillId]) } .finish
      { Sample.dropped with phase := .idle, db := releasePendingFills Sample.dropped.db ([] ++ [Sample.row.fillId]) } :=
    .finish rfl
  have hrun : Run (scan [1] 1 Sample.row) { Sample.dropped with phase := .scanning [Sample.row] [] } [.read]
      { Sample.dropped with phase := .scanning [] ([] ++ [Sample.row.fillId]) } :=
    Run.single ⟨⟨trivial, hstranded _⟩, hread⟩
  have hrec : Recoverable Sample.dropped.db Sample.row := by
    intro j hj _
    rw [List.mem_singleton.1 hj]
    exact ⟨by decide +kernel, by decide +kernel⟩
  exact (recover_releases [1] 1 Sample.dropped _ _ _ Sample.row _ Sample.dropped_reachable hquery hrun (hstranded _) hfinish
    (hstranded _)).2 hrec

/-- Recovery finds the batch reverted and completes: the fill stays reserved. -/
theorem recover_strands : ¬ ∀ (marketIds : List MarketId) (cutoff : Int) (s u t s' : Shard) (r : FillRow) (as : List Act),
    Transition.Reachable (machine marketIds) s → Step marketIds s (.query cutoff) u → Run (scan marketIds cutoff r) u as t →
      Stranded cutoff r t → Step marketIds t .finish s' → Stranded cutoff r s → r.fillId ∉ s'.db.fills.map (·.fillId) := by
  intro hclaim
  have hspent : ∀ j ∈ Sample.waited.db.jobs, j.status.spent = true ∧ j.nonce < Sample.waited.mined := by decide +kernel
  have hstranded : ∀ p, Stranded 1 Sample.row { Sample.waited with phase := p } := fun p =>
    Sample.row_stranded rfl rfl hspent rfl
  have hquery : Step [1] Sample.waited (.query 1)
      { Sample.waited with phase := .scanning (orphans Sample.waited.db [1] 1) [] } := .query rfl
  have horphans : orphans Sample.waited.db [1] 1 = [] := by decide +kernel
  rw [horphans] at hquery
  have hfinish : Step [1] { Sample.waited with phase := .scanning [] [] } .finish
      { Sample.waited with phase := .idle, db := releasePendingFills Sample.waited.db [] } := .finish rfl
  have hgone := hclaim [1] 1 Sample.waited _ _ _ Sample.row [] Sample.waited_reachable hquery Run.nil (hstranded _) hfinish
    (hstranded _)
  exact hgone (by decide +kernel)

end Kryon.Matcher
