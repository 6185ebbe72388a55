import Kryon.TxSender
import Mathlib.Data.List.Dedup
/-!
# Reconciler — one pass over a key's open attempts

`reconcileKey` reads the open rows of a key and settles each nonce from their receipts; a nonce the chain has passed with
none of them mined counts as consumed by a transaction nobody recorded.  `TxSender.findMined` settles a nonce from the
receipts of every attempt, whatever its status.
-/
namespace Kryon.TxSender

open Matcher (TxJobStatus JobId)

/-- What a pass asks the node, and the clock. -/
structure Chain where
  /-- Mined transactions in order of their nonce, and whether they succeeded. -/
  mined : List (Tx × Bool)
  mempool : List Tx
  /-- The node takes the transaction when it is sent again. -/
  takes : Tx → Bool
  /-- The attempt is older than `stuckAfterMs`. -/
  overdue : TxJob → Bool

def receiptOf (mined : List (Tx × Bool)) (tx : Tx) : Option Bool := (mined.find? fun r => decide (r.1 = tx)).map (·.2)

inductive JobOutcome where
  | confirmed
  | reverted
  | dropped
  | rebroadcast
  | stuck
  | pending
deriving DecidableEq

/-- What a receipt makes of a row. -/
def minedStatus (ok : Bool) : TxJobStatus := if ok = true then .confirmed else .reverted

def minedOutcome (ok : Bool) : JobOutcome := if ok = true then .confirmed else .reverted

/-- Move a job to a terminal state only if it is still open. -/
def finalize (id : JobId) (status : TxJobStatus) (jobs : List TxJob) : List TxJob :=
  jobs.map fun j => if j.id = id ∧ j.status.open_ = true then { j with status := status } else j

/-- The first attempt with a receipt. -/
def minedAttempt (mined : List (Tx × Bool)) (attempts : List TxJob) : Option (TxJob × Bool) :=
  attempts.findSome? fun a => (receiptOf mined a.tx).map fun ok => (a, ok)

def resolveNonce (chain : Chain) (nonce : Nat) (attempts jobs : List TxJob) : JobOutcome × List TxJob :=
  match minedAttempt chain.mined attempts with
  | some (attempt, ok) =>
    -- Every other attempt at this nonce lost the race.
    (minedOutcome ok, attempts.foldl (fun jobs other =>
      if other.id ≠ attempt.id then finalize other.id .dropped jobs else jobs)
      (finalize attempt.id (minedStatus ok) jobs))
  | none =>
    -- A transaction that was not recorded consumed the nonce.
    if chain.mined.length > nonce then
      (.dropped, attempts.foldl (fun jobs attempt => finalize attempt.id .dropped jobs) jobs)
    else
      match attempts.getLast? with
      | none => (.pending, jobs)
      | some newest =>
        if newest.tx ∈ chain.mempool then (.pending, jobs)
        else if chain.takes newest.tx = true then (.rebroadcast, jobs)
        else if chain.overdue newest = true then (.stuck, jobs)
        else (.pending, jobs)

/-- The nonces with open attempts, lowest first. -/
def openNonces (jobs : List TxJob) : List Nat := ((openJobs jobs).map (·.tx.nonce)).dedup.insertionSort (· ≤ ·)

/-- The pass: what it reports of each nonce, and the rows after it. -/
def reconcileKey (chain : Chain) (jobs : List TxJob) : List (Nat × JobOutcome) × List TxJob :=
  (openNonces jobs).foldl (fun s nonce =>
    let r := resolveNonce chain nonce (byNonce nonce (openJobs jobs)) s.2
    (s.1 ++ [(nonce, r.1)], r.2)) ([], jobs)

/-- `TxSender.findMined`: the rows after it. -/
def findMined (mined : List (Tx × Bool)) (nonce : Nat) (jobs : List TxJob) : List TxJob :=
  match minedAttempt mined (byNonce nonce jobs) with
  | none => jobs
  | some (attempt, ok) =>
    (byNonce nonce jobs).foldl (fun jobs other =>
      if other.id ≠ attempt.id ∧ other.status.open_ = true then setStatus other.id .dropped jobs else jobs)
      (setStatus attempt.id (minedStatus ok) jobs)

/-- The keys of the table, and of the chain: rows have their own ids and transactions, mined transactions their own
nonces. -/
structure Keyed (chain : Chain) (jobs : List TxJob) : Prop where
  ids : (jobs.map (·.id)).Nodup
  txs : (jobs.map (·.tx)).Nodup
  mined : chain.mined.map (·.1.nonce) = List.range chain.mined.length

/-- A mined attempt ends up with its receipt's status, no other row of its nonce stays open, and the nonce is not reported
as consumed by an unrecorded transaction. -/
structure Agrees (chain : Chain) (jobs : List TxJob) (a : TxJob) (ok : Bool) : Prop where
  settled : ∀ k ∈ (reconcileKey chain jobs).2, k.id = a.id → k.status = minedStatus ok
  closed : ∀ k ∈ (reconcileKey chain jobs).2, k.tx.nonce = a.tx.nonce → k.status.open_ = false
  recorded : (a.tx.nonce, JobOutcome.dropped) ∉ (reconcileKey chain jobs).1

/-! ## What a pass writes -/

variable {chain : Chain} {jobs : List TxJob} {g : TxJob → TxJobStatus} {a k : TxJob} {ok : Bool} {id : JobId}
  {status : TxJobStatus} {n nonce : Nat}

/-- The rows with other statuses. -/
def restatus (g : TxJob → TxJobStatus) (jobs : List TxJob) : List TxJob := jobs.map fun j => { j with status := g j }

theorem restatus_congr {h : TxJob → TxJobStatus} (hgh : ∀ j ∈ jobs, g j = h j) : restatus g jobs = restatus h jobs :=
  List.map_congr_left fun j hj => by rw [hgh j hj]

theorem restatus_status : restatus (·.status) jobs = jobs := List.map_id' jobs

theorem finalize_restatus : finalize id status (restatus g jobs) =
    restatus (fun j => if j.id = id ∧ (g j).open_ = true then status else g j) jobs := by
  rw [finalize, restatus, restatus, List.map_map]
  refine List.map_congr_left fun j _ => ?_
  simp only [Function.comp_apply]
  split <;> rfl

theorem foldl_drop (jobs : List TxJob) (P : TxJob → Prop) [DecidablePred P] : ∀ (attempts : List TxJob)
    (g : TxJob → TxJobStatus),
    attempts.foldl (fun jobs other => if P other then finalize other.id .dropped jobs else jobs) (restatus g jobs) =
      restatus (fun j => if (∃ o ∈ attempts, P o ∧ o.id = j.id) ∧ (g j).open_ = true then .dropped else g j) jobs
  | [], g => by simp
  | o :: os, g => by
    rw [List.foldl_cons]
    by_cases hP : P o
    · rw [if_pos hP, finalize_restatus, foldl_drop jobs P os]
      refine restatus_congr fun j _ => ?_
      by_cases hid : o.id = j.id
      · have hdropped : TxJobStatus.dropped.open_ = false := rfl
        cases hopen : (g j).open_ <;> simp [hP, hid, hopen, hdropped]
      · simp [hP, hid, Ne.symm hid]
    · rw [if_neg hP, foldl_drop jobs P os]
      refine restatus_congr fun j _ => ?_
      simp [hP]

theorem minedStatus_closed (ok : Bool) : (minedStatus ok).open_ = false := by
  cases ok <;> rfl

theorem minedOutcome_ne (ok : Bool) : minedOutcome ok ≠ .dropped := by
  cases ok <;> exact fun h => by cases h

/-- The status a pass leaves a row with. -/
def verdict (chain : Chain) (jobs : List TxJob) (j : TxJob) : TxJobStatus :=
  if j.status.open_ = true then
    match minedAttempt chain.mined (byNonce j.tx.nonce (openJobs jobs)) with
    | some (attempt, ok) => if j.id = attempt.id then minedStatus ok else .dropped
    | none => if chain.mined.length > j.tx.nonce then .dropped else j.status
  else j.status

theorem mem_attempts : k ∈ byNonce nonce (openJobs jobs) ↔ k ∈ jobs ∧ k.status.open_ = true ∧ k.tx.nonce = nonce := by
  rw [mem_byNonce, mem_openJobs, and_assoc]

theorem minedAttempt_mem {attempts : List TxJob} {mined : List (Tx × Bool)}
    (h : minedAttempt mined attempts = some (a, ok)) : a ∈ attempts ∧ receiptOf mined a.tx = some ok := by
  obtain ⟨b, hb, heq⟩ := List.exists_of_findSome?_eq_some h
  obtain ⟨ok', hok, heq⟩ := Option.map_eq_some_iff.1 heq
  cases heq
  exact ⟨hb, hok⟩

/-- **One nonce**: the rows of the nonce get their verdicts, and the others stay. -/
theorem resolveNonce_rows (chain : Chain) (hids : (jobs.map (·.id)).Nodup)
    (hg : ∀ j ∈ jobs, j.tx.nonce = n → g j = j.status) :
    (resolveNonce chain n (byNonce n (openJobs jobs)) (restatus g jobs)).2 =
      restatus (fun j => if j.tx.nonce = n then verdict chain jobs j else g j) jobs := by
  have hmem : ∀ j ∈ jobs, (∃ o ∈ byNonce n (openJobs jobs), o.id = j.id) ↔ j.tx.nonce = n ∧ j.status.open_ = true := by
    intro j hj
    constructor
    · rintro ⟨o, ho, hid⟩
      obtain ⟨ho, hopen, hnonce⟩ := mem_attempts.1 ho
      obtain rfl := List.inj_on_of_nodup_map hids ho hj hid
      exact ⟨hnonce, hopen⟩
    · exact fun ⟨hnonce, hopen⟩ => ⟨j, mem_attempts.2 ⟨hj, hopen, hnonce⟩, rfl⟩
  unfold resolveNonce
  cases hmined : minedAttempt chain.mined (byNonce n (openJobs jobs)) with
  | some found =>
    obtain ⟨attempt, ok⟩ := found
    have hattempt := (minedAttempt_mem hmined).1
    simp only [finalize_restatus]
    rw [foldl_drop jobs (fun o => o.id ≠ attempt.id)]
    refine restatus_congr fun j hj => ?_
    by_cases hnonce : j.tx.nonce = n
    · rw [if_pos hnonce, hg j hj hnonce, verdict, hnonce, hmined]
      cases hopen : j.status.open_ with
      | true =>
        by_cases hid : j.id = attempt.id
        · simp [hid, minedStatus_closed]
        · have hother : ∃ o ∈ byNonce n (openJobs jobs), o.id ≠ attempt.id ∧ o.id = j.id :=
            ⟨j, mem_attempts.2 ⟨hj, hopen, hnonce⟩, hid, rfl⟩
          simp only [hid, if_false, hopen, and_true, if_pos hother, if_true]
      | false => simp [hopen]
    · have hid : j.id ≠ attempt.id := fun hid => hnonce ((hmem j hj).1 ⟨attempt, hattempt, hid.symm⟩).1
      have hnone : ¬ ∃ o ∈ byNonce n (openJobs jobs), o.id ≠ attempt.id ∧ o.id = j.id :=
        fun ⟨o, ho, _, hid⟩ => hnonce ((hmem j hj).1 ⟨o, ho, hid⟩).1
      simp only [hid, false_and, if_false, hnone, if_neg hnonce]
  | none =>
    by_cases hpassed : chain.mined.length > n
    · simp only [if_pos hpassed]
      have hdrop := foldl_drop jobs (fun _ => True) (byNonce n (openJobs jobs)) g
      simp only [if_true, true_and] at hdrop
      rw [hdrop]
      refine restatus_congr fun j hj => ?_
      simp only [hmem j hj]
      by_cases hnonce : j.tx.nonce = n
      · rw [if_pos hnonce, hg j hj hnonce, verdict, hnonce, hmined]
        cases hopen : j.status.open_ <;> simp [hpassed]
      · simp [hnonce]
    · have hsame : restatus g jobs =
          restatus (fun j => if j.tx.nonce = n then verdict chain jobs j else g j) jobs := by
        refine restatus_congr fun j hj => ?_
        by_cases hnonce : j.tx.nonce = n
        · rw [if_pos hnonce, hg j hj hnonce, verdict, hnonce, hmined]
          simp [hpassed]
        · rw [if_neg hnonce]
      simp only [if_neg hpassed]
      split
      · exact hsame
      · split_ifs <;> exact hsame

theorem resolveNonce_report (attempts rows rows' : List TxJob) :
    (resolveNonce chain n attempts rows).1 = (resolveNonce chain n attempts rows').1 := by
  unfold resolveNonce
  split
  · rfl
  · split
    · rfl
    · split
      · rfl
      · split_ifs <;> rfl

/-- **All the nonces, one after another.** -/
theorem foldl_resolve (chain : Chain) (hids : (jobs.map (·.id)).Nodup) : ∀ (ns : List Nat)
    (report : List (Nat × JobOutcome)) (g : TxJob → TxJobStatus), ns.Nodup → (∀ j ∈ jobs, j.tx.nonce ∈ ns → g j = j.status) →
    ns.foldl (fun s nonce =>
      let r := resolveNonce chain nonce (byNonce nonce (openJobs jobs)) s.2
      (s.1 ++ [(nonce, r.1)], r.2)) (report, restatus g jobs) =
    (report ++ ns.map fun n => (n, (resolveNonce chain n (byNonce n (openJobs jobs)) jobs).1),
      restatus (fun j => if j.tx.nonce ∈ ns then verdict chain jobs j else g j) jobs)
  | [], report, g, _, _ => by simp
  | n :: ns, report, g, hnodup, hg => by
    obtain ⟨hn, hns⟩ := List.nodup_cons.1 hnodup
    have hrows := resolveNonce_rows chain hids fun j hj hnonce => hg j hj (hnonce ▸ List.mem_cons_self)
    have hnext : ∀ j ∈ jobs, j.tx.nonce ∈ ns →
        (if j.tx.nonce = n then verdict chain jobs j else g j) = j.status := by
      intro j hj hmem
      rw [if_neg fun (h : j.tx.nonce = n) => hn (h ▸ hmem)]
      exact hg j hj (List.mem_cons_of_mem n hmem)
    simp only [List.foldl_cons, hrows]
    rw [foldl_resolve chain hids ns _ _ hns hnext]
    refine Prod.ext ?_ (restatus_congr fun j _ => ?_)
    · simp [resolveNonce_report _ _ jobs]
    · by_cases hnonce : j.tx.nonce = n
      · simp [hnonce]
      · simp [hnonce]

theorem mem_openNonces : n ∈ openNonces jobs ↔ ∃ j ∈ jobs, j.status.open_ = true ∧ j.tx.nonce = n := by
  simp [openNonces, mem_openJobs, and_assoc]

/-- **A pass, row by row and nonce by nonce.** -/
theorem reconcileKey_eq (chain : Chain) (hids : (jobs.map (·.id)).Nodup) : reconcileKey chain jobs =
    ((openNonces jobs).map fun n => (n, (resolveNonce chain n (byNonce n (openJobs jobs)) jobs).1),
      restatus (verdict chain jobs) jobs) := by
  have hnodup : (openNonces jobs).Nodup := (List.perm_insertionSort _ _).nodup_iff.2 (List.nodup_dedup _)
  have hfold := foldl_resolve chain hids (openNonces jobs) [] (·.status) hnodup fun _ _ _ => rfl
  rw [restatus_status] at hfold
  rw [reconcileKey, hfold]
  refine Prod.ext (List.nil_append _) (restatus_congr fun j hj => ?_)
  by_cases hnonce : j.tx.nonce ∈ openNonces jobs
  · rw [if_pos hnonce]
  · have hclosed : j.status.open_ ≠ true := fun hopen => hnonce (mem_openNonces.2 ⟨j, hj, hopen, rfl⟩)
    rw [if_neg hnonce, verdict, if_neg hclosed]

/-! ## A mined attempt -/

theorem receiptOf_mem {mined : List (Tx × Bool)} {tx : Tx} (h : receiptOf mined tx = some ok) : (tx, ok) ∈ mined := by
  obtain ⟨⟨t, o⟩, hfind, heq⟩ := Option.map_eq_some_iff.1 h
  have htx : t = tx := by simpa using List.find?_some hfind
  cases heq
  subst htx
  exact List.mem_of_find?_eq_some hfind

theorem Keyed.only (h : Keyed chain jobs) (ha : a ∈ jobs) (hr : receiptOf chain.mined a.tx = some ok)
    (hk : k ∈ jobs) (hnonce : k.tx.nonce = a.tx.nonce) {ok' : Bool} (hr' : receiptOf chain.mined k.tx = some ok') :
    k = a := by
  have hnodup : (chain.mined.map (·.1.nonce)).Nodup := by
    rw [h.mined]
    exact List.nodup_range
  have hsame := List.inj_on_of_nodup_map hnodup (receiptOf_mem hr') (receiptOf_mem hr) hnonce
  exact List.inj_on_of_nodup_map h.txs hk ha (congrArg Prod.fst hsame)

theorem Keyed.passed (h : Keyed chain jobs) (hr : receiptOf chain.mined a.tx = some ok) :
    chain.mined.length > a.tx.nonce := by
  have hmem := List.mem_map_of_mem (f := fun r : Tx × Bool => r.1.nonce) (receiptOf_mem hr)
  rw [h.mined] at hmem
  exact List.mem_range.1 hmem

/-- **The lookup**: among any rows at its nonce, the mined attempt is found if it is there, and nothing otherwise. -/
theorem Keyed.minedAttempt_eq (h : Keyed chain jobs) (ha : a ∈ jobs) (hr : receiptOf chain.mined a.tx = some ok)
    {attempts : List TxJob} (hsub : ∀ k ∈ attempts, k ∈ jobs ∧ k.tx.nonce = a.tx.nonce) :
    minedAttempt chain.mined attempts = if a ∈ attempts then some (a, ok) else none := by
  cases hfound : minedAttempt chain.mined attempts with
  | some found =>
    obtain ⟨k, ok'⟩ := found
    obtain ⟨hk, hr'⟩ := minedAttempt_mem hfound
    obtain rfl := h.only ha hr (hsub k hk).1 (hsub k hk).2 hr'
    rw [if_pos hk, Option.some.inj (hr.symm.trans hr')]
  | none =>
    have hmissing : a ∉ attempts := by
      intro hmem
      have hnone := List.findSome?_eq_none_iff.1 hfound a hmem
      rw [hr] at hnone
      cases hnone
    rw [if_neg hmissing]

theorem Keyed.open_attempt (h : Keyed chain jobs) (ha : a ∈ jobs) (hr : receiptOf chain.mined a.tx = some ok) :
    minedAttempt chain.mined (byNonce a.tx.nonce (openJobs jobs)) =
      if a.status.open_ = true then some (a, ok) else none := by
  rw [h.minedAttempt_eq ha hr fun k hk => ⟨(mem_attempts.1 hk).1, (mem_attempts.1 hk).2.2⟩]
  simp only [mem_attempts, ha, true_and, and_true]

theorem mem_restatus : k ∈ restatus g jobs ↔ ∃ j ∈ jobs, { j with status := g j } = k :=
  List.mem_map

theorem Keyed.verdict_eq (h : Keyed chain jobs) (ha : a ∈ jobs) (hr : receiptOf chain.mined a.tx = some ok)
    (hk : k ∈ jobs) (hnonce : k.tx.nonce = a.tx.nonce) : verdict chain jobs k =
      if k.status.open_ = true then if k = a then minedStatus ok else .dropped else k.status := by
  unfold verdict
  cases hopen : k.status.open_ with
  | false => rfl
  | true =>
    have hids : k.id = a.id ↔ k = a := ⟨List.inj_on_of_nodup_map h.ids hk ha, fun heq => by rw [heq]⟩
    simp only [hnonce, h.open_attempt ha hr, if_true]
    cases hopen' : a.status.open_ with
    | true => simp only [if_true, hids]
    | false =>
      have hother : k ≠ a := fun heq => by rw [heq, hopen'] at hopen; cases hopen
      simp [h.passed hr, hother]

/-- **What is reported** of a nonce with open attempts, one of whose attempts is mined. -/
theorem Keyed.report_eq (h : Keyed chain jobs) (ha : a ∈ jobs) (hr : receiptOf chain.mined a.tx = some ok) :
    (resolveNonce chain a.tx.nonce (byNonce a.tx.nonce (openJobs jobs)) jobs).1 =
      if a.status.open_ = true then minedOutcome ok else .dropped := by
  unfold resolveNonce
  rw [h.open_attempt ha hr]
  cases hopen : a.status.open_ with
  | true => rfl
  | false => simp [h.passed hr]

/-- **The reconciler agrees with the receipt exactly where it has nothing to find beyond the open rows**: the mined attempt
is open, or it has its receipt's status already and its nonce has no open row. -/
theorem reconciler_agrees (hkeyed : Keyed chain jobs) (ha : a ∈ jobs) (hr : receiptOf chain.mined a.tx = some ok) :
    Agrees chain jobs a ok ↔ a.status.open_ = true ∨
      a.status = minedStatus ok ∧ ∀ k ∈ jobs, k.tx.nonce = a.tx.nonce → k.status.open_ = false := by
  have hrows := congrArg Prod.snd (reconcileKey_eq chain hkeyed.ids)
  have hreport := congrArg Prod.fst (reconcileKey_eq chain hkeyed.ids)
  have hown := hkeyed.verdict_eq ha hr ha rfl
  constructor
  · intro hagrees
    cases hopen : a.status.open_ with
    | true => exact .inl rfl
    | false =>
      rw [hopen, if_neg (by decide)] at hown
      have hrow : { a with status := verdict chain jobs a } ∈ (reconcileKey chain jobs).2 := by
        rw [hrows]
        exact mem_restatus.2 ⟨a, ha, rfl⟩
      refine .inr ⟨hown.symm.trans (hagrees.settled _ hrow rfl), fun k hk hnonce => ?_⟩
      by_contra hk'
      refine hagrees.recorded ?_
      rw [hreport]
      refine List.mem_map.2 ⟨a.tx.nonce, mem_openNonces.2 ⟨k, hk, by simpa using hk', hnonce⟩, ?_⟩
      rw [hkeyed.report_eq ha hr, hopen]
      rfl
  · intro hcond
    have hkrow : ∀ k ∈ (reconcileKey chain jobs).2, ∃ j ∈ jobs, { j with status := verdict chain jobs j } = k := by
      rw [hrows]
      exact fun k hk => mem_restatus.1 hk
    refine ⟨?_, ?_, ?_⟩
    · intro k hk hid
      obtain ⟨j, hj, rfl⟩ := hkrow k hk
      obtain rfl := List.inj_on_of_nodup_map hkeyed.ids hj ha hid
      change verdict chain jobs j = minedStatus ok
      rw [hown, if_pos rfl]
      obtain hopen | ⟨hstatus, -⟩ := hcond
      · rw [if_pos hopen]
      · rw [hstatus, ite_self]
    · intro k hk hnonce
      obtain ⟨j, hj, rfl⟩ := hkrow k hk
      change (verdict chain jobs j).open_ = false
      rw [hkeyed.verdict_eq ha hr hj hnonce]
      cases hopen : j.status.open_ with
      | true =>
        rw [if_pos rfl]
        split_ifs
        · exact minedStatus_closed ok
        · rfl
      | false => exact hopen
    · rw [hreport]
      intro hmem
      simp only [List.mem_map, Prod.mk.injEq] at hmem
      obtain ⟨n, hn, rfl, hdropped⟩ := hmem
      obtain ⟨k, hk, hopen, hnonce⟩ := mem_openNonces.1 hn
      obtain hopen' | ⟨-, hclosed⟩ := hcond
      · rw [hkeyed.report_eq ha hr, if_pos hopen'] at hdropped
        exact minedOutcome_ne ok hdropped
      · rw [hclosed k hk hnonce] at hopen
        cases hopen

namespace Sample

/-- An attempt that was replaced, and its replacement. -/
def original : TxJob := ⟨0, 0, ⟨0, ⟨7, [], 0⟩, 21000, 40 * 10 ^ 9, 10 ^ 9⟩, .replaced⟩

def replacement : TxJob := ⟨1, 0, ⟨0, ⟨7, [], 0⟩, 21000, 46 * 10 ^ 9, 115 * 10 ^ 7⟩, .submitted⟩

/-- The node mined `job` and holds nothing else. -/
def mining (job : TxJob) : Chain where
  mined := [(job.tx, true)]
  mempool := []
  takes := fun _ => false
  overdue := fun _ => false

theorem mining_keyed (job : TxJob) (h : job = original ∨ job = replacement) :
    Keyed (mining job) [original, replacement] where
  ids := by decide
  txs := by decide
  mined := by
    obtain rfl | rfl := h <;> rfl

end Sample

theorem reconciler_agrees_replacement :
    Agrees (Sample.mining Sample.replacement) [Sample.original, Sample.replacement] Sample.replacement true :=
  (reconciler_agrees (Sample.mining_keyed _ (.inr rfl)) (by decide) rfl).2 (.inl rfl)

/-- **The original is mined after its replacement was recorded**: the nonce is reported as consumed by an unrecorded
transaction, and the original keeps its status. -/
theorem reconciler_misses_original : ∃ chain jobs a ok, Keyed chain jobs ∧ a ∈ jobs ∧
    receiptOf chain.mined a.tx = some ok ∧ ¬ Agrees chain jobs a ok ∧ (a.tx.nonce, JobOutcome.dropped) ∈ (reconcileKey chain jobs).1 ∧
    a ∈ (reconcileKey chain jobs).2 ∧ a.status = .replaced := by
  have hreport : (0, JobOutcome.dropped) ∈
      (reconcileKey (Sample.mining Sample.original) [Sample.original, Sample.replacement]).1 := by decide
  exact ⟨Sample.mining Sample.original, [Sample.original, Sample.replacement], Sample.original, true,
    Sample.mining_keyed _ (.inl rfl), by decide, rfl, fun h => h.recorded hreport, hreport, by decide, rfl⟩

/-! ## The sender, for comparison -/

theorem setStatus_restatus (g : TxJob → TxJobStatus) (id : JobId) (status : TxJobStatus) (jobs : List TxJob) :
    setStatus id status (restatus g jobs) =
    restatus (fun j => if j.id = id then status else g j) jobs := by
  rw [setStatus, restatus, restatus, List.map_map]
  refine List.map_congr_left fun j _ => ?_
  simp only [Function.comp_apply]
  split <;> rfl

theorem foldl_setStatus (jobs : List TxJob) (P : TxJob → Prop) [DecidablePred P] : ∀ (attempts : List TxJob)
    (g : TxJob → TxJobStatus),
    attempts.foldl (fun jobs other => if P other then setStatus other.id .dropped jobs else jobs) (restatus g jobs) =
      restatus (fun j => if ∃ o ∈ attempts, P o ∧ o.id = j.id then .dropped else g j) jobs
  | [], g => by simp
  | o :: os, g => by
    rw [List.foldl_cons]
    by_cases hP : P o
    · rw [if_pos hP, setStatus_restatus, foldl_setStatus jobs P os]
      refine restatus_congr fun j _ => ?_
      by_cases hid : o.id = j.id
      · simp [hP, hid]
      · simp [hP, hid, Ne.symm hid]
    · rw [if_neg hP, foldl_setStatus jobs P os]
      refine restatus_congr fun j _ => ?_
      simp [hP]

/-- **`findMined` settles the nonce of any mined attempt**, whatever the attempt's status. -/
theorem findMined_settles (hkeyed : Keyed chain jobs) (ha : a ∈ jobs) (hr : receiptOf chain.mined a.tx = some ok)
    (hk : k ∈ findMined chain.mined a.tx.nonce jobs) (hnonce : k.tx.nonce = a.tx.nonce) :
    (k.id = a.id → k.status = minedStatus ok) ∧ k.status.open_ = false := by
  have hlookup : minedAttempt chain.mined (byNonce a.tx.nonce jobs) = some (a, ok) := by
    rw [hkeyed.minedAttempt_eq ha hr fun k hk => mem_byNonce.1 hk, if_pos (mem_byNonce.2 ⟨ha, rfl⟩)]
  have hrows := setStatus_restatus (·.status) a.id (minedStatus ok) jobs
  rw [restatus_status] at hrows
  simp only [findMined, hlookup, hrows] at hk
  rw [foldl_setStatus jobs fun o => o.id ≠ a.id ∧ o.status.open_ = true] at hk
  obtain ⟨j, hj, rfl⟩ := mem_restatus.1 hk
  have hothers : (∃ o ∈ byNonce a.tx.nonce jobs, (o.id ≠ a.id ∧ o.status.open_ = true) ∧ o.id = j.id) ↔
      j.id ≠ a.id ∧ j.status.open_ = true := by
    constructor
    · rintro ⟨o, ho, hopen, hid⟩
      obtain rfl := List.inj_on_of_nodup_map hkeyed.ids (mem_byNonce.1 ho).1 hj hid
      exact hopen
    · exact fun h => ⟨j, mem_byNonce.2 ⟨hj, hnonce⟩, h, rfl⟩
  simp only [hothers]
  by_cases hid : j.id = a.id
  · simp [hid, minedStatus_closed]
  · cases hopen : j.status.open_ with
    | true => simp [hid]; rfl
    | false => simp [hid, hopen]

end Kryon.TxSender
