import Kryon.TxJobs
import Mathlib.Data.List.Infix
/-!
# LiveTxs — the transactions of a shard that the chain may still mine

A signed transaction is live while its nonce is free and the node has it, its job is open or a wait holds it.  No step
brings a transaction back to life (`step_live`): live transactions come from `sign`, from a fee bump of a live one, or
were live before.
-/
namespace Kryon.Matcher

variable {marketIds : List MarketId} {s t : Shard} {a : Act} {g : TxJob → TxJobStatus} {jobs : List TxJob} {j : TxJob}

/-! ## Jobs keep what was signed -/

/-- What of a job never changes. -/
structure SignedTx where
  id : JobId
  nonce : Nat
  data : List PlannedFill

def TxJob.tx (j : TxJob) : SignedTx := ⟨j.id, j.nonce, j.data⟩

def SignedTx.carries (x : SignedTx) (fillId : Bytes32) : Prop := fillId ∈ x.data.map (·.fillId)

theorem mem_restatus : j ∈ restatus g jobs ↔ ∃ k ∈ jobs, { k with status := g k } = j := List.mem_map

theorem restatus_self : restatus (fun j => j.status) jobs = jobs := List.map_id jobs

@[simp] theorem map_id_restatus : (restatus g jobs).map (·.id) = jobs.map (·.id) := by
  unfold restatus
  rw [List.map_map]
  rfl

theorem upkeep_jobs {db db' : Db} (h : Upkeep db db') : db'.jobs = db.jobs := by
  cases h with
  | insertOrder o =>
    unfold insertOrder
    split_ifs <;> rfl
  | _ => rfl

/-- Jobs that the process broadcasts or waits for. -/
def Phase.watched : Phase → List JobId
  | .sending _ _ id | .submitted _ id => [id]
  | .awaiting w c => c :: w.todo
  | .replacing w c n | .resending w c n => n :: c :: w.todo
  | .recovering todo => todo
  | .down | .idle | .reserved .. | .failing _ | .reverted _ | .scanning .. => []

/-- **The jobs of a step**: the same ones under other statuses, or one more, that is of the reserved batch or a fee bump of
a job that is watched. -/
theorem step_jobs (h : Step marketIds s a t) : (∃ g, t.db.jobs = restatus g s.db.jobs) ∨
    ∃ j, t.db.jobs = s.db.jobs ++ [j] ∧ j.id ∉ s.db.jobs.map (·.id) ∧ ((∃ attempt, s.phase = .reserved j.data attempt) ∨
      ∃ k ∈ s.db.jobs, k.id ∈ s.phase.watched ∧ k.nonce = j.nonce ∧ k.data = j.data) := by
  have hsame : ∀ {t : Shard}, t.db.jobs = s.db.jobs → ∃ g, t.db.jobs = restatus g s.db.jobs := fun ht =>
    ⟨_, ht.trans restatus_self.symm⟩
  cases h with
  | reserve | abort | release | link | timeout | throw | rebroadcast | crash | restart | resume | query | read | finish
  | resend | mine | foreign => exact Or.inl (hsame rfl)
  | sign hp hid => exact Or.inr ⟨_, rfl, hid, Or.inl ⟨_, hp⟩⟩
  | replace hp hk hc hid => exact Or.inr ⟨_, rfl, hid, Or.inr ⟨_, hk, hp ▸ hc ▸ List.mem_cons_self, rfl, rfl⟩⟩
  | accepted | nonceTooLow | refused | found | taken | supersede | bumped | bumpTooLow | underpriced | bumpRefused
  | close => exact Or.inl ⟨_, rfl⟩
  | upkeep h => exact Or.inl (hsame (upkeep_jobs h))

theorem step_tx (h : Step marketIds s a t) (hj : j ∈ s.db.jobs) : ∃ k ∈ t.db.jobs, k.tx = j.tx := by
  rcases step_jobs h with ⟨g, hjobs⟩ | ⟨l, hjobs, -, -⟩
  · exact ⟨{ j with status := g j }, hjobs ▸ mem_restatus.2 ⟨j, hj, rfl⟩, rfl⟩
  · exact ⟨j, hjobs ▸ List.mem_append_left _ hj, rfl⟩

/-! ## Live transactions -/

theorem step_mined (h : Step marketIds s a t) : s.mined ≤ t.mined := by
  cases h with
  | mine | foreign => exact Nat.le_succ _
  | _ => exact le_rfl

/-- The node has the transaction, or somebody may still send it. -/
def Shard.standing (s : Shard) (j : TxJob) : Prop :=
  j.id ∈ s.sent ∨ j.status.open_ = true ∨ j.id ∈ s.phase.watched

/-- The transactions that may still be mined. -/
def Shard.live (s : Shard) : Set SignedTx := {x | s.mined ≤ x.nonce ∧ ∃ j ∈ s.db.jobs, j.tx = x ∧ s.standing j}

/-- An open job of the table has the id. -/
def openIn (jobs : List TxJob) (id : JobId) : Prop := ∃ k ∈ jobs, k.id = id ∧ k.status.open_ = true

theorem watched_timedOut {w : Wait} : ∀ id ∈ w.timedOut.watched, id ∈ w.todo := by
  cases w with
  | settle fills => exact fun _ h => absurd h List.not_mem_nil
  | recover todo => exact fun _ h => h

theorem watched_threw {w : Wait} : ∀ id ∈ w.threw.watched, id ∈ w.todo := by
  cases w with
  | settle fills => exact fun _ h => absurd h List.not_mem_nil
  | recover todo => exact fun _ h => absurd h List.not_mem_nil

theorem watched_mined {w : Wait} {ok : Bool} : ∀ id ∈ (w.mined ok).watched, id ∈ w.todo := by
  cases w with
  | settle fills => cases ok <;> exact fun _ h => absurd h List.not_mem_nil
  | recover todo => exact fun _ h => h

theorem watched_retried {fills : List PlannedFill} {attempt : Nat} : (retried fills attempt).watched = [] := by
  unfold retried
  split_ifs <;> rfl

/-- **What a step watches** was watched or open before, or is new. -/
theorem step_watched (h : Step marketIds s a t) : ∀ id ∈ t.phase.watched,
    id ∈ s.phase.watched ∨ openIn s.db.jobs id ∨ id ∈ t.db.jobs.map (·.id) ∧ id ∉ s.db.jobs.map (·.id) := by
  intro i hi
  -- The attempt that was signed is the last job.
  have hlast : ∀ {jobs : List TxJob} {j : TxJob}, j.id ∈ (jobs ++ [j]).map (·.id) := fun {jobs j} =>
    List.mem_map.2 ⟨j, List.mem_append_right _ (List.mem_singleton_self j), rfl⟩
  cases h with
  | reserve | abort | refused | release | crash | query | read | finish => exact absurd hi List.not_mem_nil
  | nonceTooLow => exact absurd (watched_retried ▸ hi) List.not_mem_nil
  | rebroadcast | resend | mine | foreign | close | upkeep => exact Or.inl hi
  | accepted hp => exact Or.inl (hp ▸ hi)
  | link hp => exact Or.inl (hp ▸ hi)
  | resume hp => exact Or.inl (hp ▸ hi)
  | supersede hp => exact Or.inl (hp ▸ hi)
  | timeout hp => exact Or.inl (hp ▸ List.mem_cons_of_mem _ (watched_timedOut i hi))
  | throw hp => exact Or.inl (hp ▸ List.mem_cons_of_mem _ (watched_threw i hi))
  | found hp => exact Or.inl (hp ▸ List.mem_cons_of_mem _ (watched_mined i hi))
  | taken hp => exact Or.inl (hp ▸ List.mem_cons_of_mem _ (watched_threw i hi))
  | bumpRefused hp => exact Or.inl (hp ▸ List.mem_cons_of_mem _ (List.mem_cons_of_mem _ (watched_threw i hi)))
  | bumped hp =>
    rw [hp]
    exact Or.inl (List.mem_cons.2 ((List.mem_cons.1 hi).imp_right fun hi => List.mem_cons_of_mem _ hi))
  | bumpTooLow hj hp =>
    rw [hp]
    exact Or.inl (List.mem_cons.2 ((List.mem_cons.1 hi).imp_right fun hi => List.mem_cons_of_mem _ hi))
  | underpriced hp =>
    rw [hp]
    exact Or.inl (List.mem_cons.2 ((List.mem_cons.1 hi).imp_right fun hi => List.mem_cons_of_mem _ hi))
  | sign hp hid =>
    rw [List.mem_singleton.1 hi]
    exact Or.inr (Or.inr ⟨hlast, hid⟩)
  | replace hp hk hc hid =>
    rcases List.mem_cons.1 hi with rfl | hi
    · exact Or.inr (Or.inr ⟨hlast, hid⟩)
    · exact Or.inl (hp ▸ hi)
  | restart hp =>
    obtain ⟨k, hk, hid⟩ := List.mem_map.1 hi
    obtain ⟨hmem, hopen⟩ := List.mem_filter.1 ((List.perm_insertionSort _ _).mem_iff.1 hk)
    exact Or.inr (Or.inl ⟨k, hmem, hid, hopen⟩)

/-- **What a step sends** was sent, watched or open before. -/
theorem step_sent (h : Step marketIds s a t) :
    ∀ id ∈ t.sent, id ∈ s.sent ∨ id ∈ s.phase.watched ∨ openIn s.db.jobs id := by
  intro i hi
  have hkept : ∀ {kept : Bool} {n : JobId}, n ∈ s.phase.watched → i ∈ (if kept = true then n :: s.sent else s.sent) →
      i ∈ s.sent ∨ i ∈ s.phase.watched ∨ openIn s.db.jobs i := by
    intro kept n hn hi
    split_ifs at hi
    · rcases List.mem_cons.1 hi with rfl | hi
      · exact Or.inr (Or.inl hn)
      · exact Or.inl hi
    · exact Or.inl hi
  cases h with
  | accepted hp => exact @hkept true _ (hp ▸ List.mem_cons_self) hi
  | refused hp => exact hkept (hp ▸ List.mem_cons_self) hi
  | rebroadcast hp => exact @hkept true _ (hp ▸ List.mem_cons_self) hi
  | bumped hp => exact @hkept true _ (hp ▸ List.mem_cons_self) hi
  | underpriced hp => exact hkept (hp ▸ List.mem_cons_self) hi
  | bumpRefused hp => exact hkept (hp ▸ List.mem_cons_self) hi
  | resend hj hopen =>
    rcases List.mem_cons.1 hi with rfl | hi
    · exact Or.inr (Or.inr ⟨_, hj, rfl, hopen⟩)
    · exact Or.inl hi
  | reserve | abort | sign | nonceTooLow | release | link | found | timeout | taken | throw | replace | supersede
  | bumpTooLow | crash | restart | resume | query | read | finish | mine | foreign | close | upkeep => exact Or.inl hi

/-- **A job that is open after a step** was open or watched before, or is new. -/
theorem step_open (h : Step marketIds s a t) (hj : j ∈ t.db.jobs) (hopen : j.status.open_ = true)
    (hold : j.id ∈ s.db.jobs.map (·.id)) : j.id ∈ s.phase.watched ∨ openIn s.db.jobs j.id := by
  have hsame : j ∈ s.db.jobs → j.id ∈ s.phase.watched ∨ openIn s.db.jobs j.id := fun hj => Or.inr ⟨j, hj, rfl, hopen⟩
  -- An update opens the job it is of, or none.
  have hset : ∀ {id : JobId} {status : TxJobStatus}, (status.open_ = true → id ∈ s.phase.watched) →
      j ∈ setStatus id status s.db.jobs → j.id ∈ s.phase.watched ∨ openIn s.db.jobs j.id := by
    intro id status hw hj
    obtain ⟨k, hk, rfl⟩ := mem_restatus.1 hj
    simp only at hopen ⊢
    split_ifs at hopen with hid
    · exact Or.inl (hid ▸ hw hopen)
    · exact Or.inr ⟨k, hk, rfl, hopen⟩
  have hnew : ∀ {k : TxJob}, k.id ∉ s.db.jobs.map (·.id) → j ∈ s.db.jobs ++ [k] →
      j.id ∈ s.phase.watched ∨ openIn s.db.jobs j.id := by
    intro k hk hj
    rcases List.mem_append.1 hj with hj | hj
    · exact hsame hj
    · exact absurd (List.mem_singleton.1 hj ▸ hold) hk
  cases h with
  | reserve | abort | release | link | timeout | throw | rebroadcast | crash | restart | resume | query | read | finish
  | resend | mine | foreign => exact hsame hj
  | upkeep h => exact hsame (upkeep_jobs h ▸ hj)
  | sign hp hid => exact hnew hid hj
  | replace hp hk hc hid => exact hnew hid hj
  | accepted hp => exact hset (fun _ => hp ▸ List.mem_cons_self) hj
  | bumped hp => exact hset (fun _ => hp ▸ List.mem_cons_self) hj
  | nonceTooLow | refused | supersede | bumpTooLow | underpriced | bumpRefused =>
    exact hset (fun h => absurd h (by decide)) hj
  | close hk hk' hstatus =>
    refine hset (fun h => absurd h ?_) hj
    rcases hstatus with ⟨rfl, -⟩ | ⟨rfl, -⟩ | ⟨rfl, -⟩ <;> decide
  | found =>
    obtain ⟨k, hk, rfl⟩ := mem_restatus.1 hj
    simp only at hopen ⊢
    split_ifs at hopen
    · cases hopen
    · cases hopen
    · cases hopen
    · exact Or.inr ⟨k, hk, rfl, hopen⟩
  | taken =>
    obtain ⟨k, hk, rfl⟩ := mem_restatus.1 hj
    simp only at hopen ⊢
    split_ifs at hopen
    · cases hopen
    · exact Or.inr ⟨k, hk, rfl, hopen⟩

/-- **No step revives a transaction.**  What is live after it was live before, or was just signed: a reserved batch, or a
fee bump of a live transaction, with its batch and its nonce. -/
theorem step_live (hids : (s.db.jobs.map (·.id)).Nodup) (h : Step marketIds s a t) {x : SignedTx} (hx : x ∈ t.live) :
    x ∈ s.live ∨ x.id ∉ s.db.jobs.map (·.id) ∧ ((∃ attempt, s.phase = .reserved x.data attempt) ∨
      ∃ y ∈ s.live, y.nonce = x.nonce ∧ y.data = x.data) := by
  obtain ⟨hfree, j, hj, rfl, hstanding⟩ := hx
  have hfree' : s.mined ≤ j.nonce := (step_mined h).trans hfree
  -- A job that was there stood before.
  have hold : ∀ k ∈ s.db.jobs, k.tx = j.tx → k.tx ∈ s.live := by
    intro k hk htx
    injection htx with hid hnonce _
    have hin : j.id ∈ s.db.jobs.map (·.id) := List.mem_map.2 ⟨k, hk, hid⟩
    refine ⟨hfree'.trans hnonce.ge, k, hk, rfl, ?_⟩
    have hopen : openIn s.db.jobs j.id → s.standing k := by
      rintro ⟨l, hl, hlid, hopen⟩
      exact Or.inr (Or.inl (List.inj_on_of_nodup_map hids hl hk (hlid.trans hid.symm) ▸ hopen))
    have hwatched : j.id ∈ s.phase.watched → s.standing k := fun hw => Or.inr (Or.inr (hid ▸ hw))
    rcases hstanding with hs | hs | hs
    · rcases step_sent h j.id hs with hs | hs | hs
      · exact Or.inl (hid ▸ hs)
      · exact hwatched hs
      · exact hopen hs
    · rcases step_open h hj hs hin with hs | hs
      · exact hwatched hs
      · exact hopen hs
    · rcases step_watched h j.id hs with hs | hs | ⟨-, hnew⟩
      · exact hwatched hs
      · exact hopen hs
      · exact absurd hin hnew
  rcases step_jobs h with ⟨g, hjobs⟩ | ⟨l, hjobs, hnew, horigin⟩
  · rw [hjobs] at hj
    obtain ⟨k, hk, rfl⟩ := mem_restatus.1 hj
    exact Or.inl (hold k hk rfl)
  · rw [hjobs] at hj
    rcases List.mem_append.1 hj with hj | hj
    · exact Or.inl (hold j hj rfl)
    · rw [List.mem_singleton.1 hj] at hfree' ⊢
      refine Or.inr ⟨hnew, horigin.imp_right ?_⟩
      rintro ⟨k, hk, hw, hnonce, hdata⟩
      exact ⟨k.tx, ⟨hfree'.trans hnonce.ge, k, hk, rfl, Or.inr (Or.inr hw)⟩, hnonce, hdata⟩

theorem step_live_subset (hids : (s.db.jobs.map (·.id)).Nodup) (h : Step marketIds s a t)
    (hjobs : t.db.jobs.map (·.id) = s.db.jobs.map (·.id)) : t.live ⊆ s.live := by
  intro x hx
  rcases step_live hids h hx with hx | ⟨hnew, -⟩
  · exact hx
  · obtain ⟨-, j, hj, rfl, -⟩ := hx
    exact absurd (hjobs ▸ List.mem_map.2 ⟨j, hj, rfl⟩) hnew

end Kryon.Matcher
