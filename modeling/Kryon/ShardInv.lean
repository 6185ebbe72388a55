import Kryon.FillTable
/-!
# ShardInv — what holds of a shard in every careful run

Each step of a shard changes the status of a job only as far as the node, the chain or the reconciler let it
(`step_status`).  In the runs whose steps meet their condition (`Act.Meets`), what is about to be released is carried by no
live transaction, and every live transaction carries fills that have their row (`step_inv`).
-/
namespace Kryon.Matcher

open Transition (Run Machine)

variable {marketIds : List MarketId} {s t : Shard} {a : Act} {j : TxJob} {x : SignedTx} {i : Bytes32} {n : Nat}

/-! ## Fills without a live transaction -/

namespace Shard

/-- No live transaction carries the fill. -/
def Clear (s : Shard) (i : Bytes32) : Prop := ∀ x ∈ s.live, ¬ x.carries i

/-- Only transactions at the nonce carry it. -/
def HeldAt (s : Shard) (i : Bytes32) (n : Nat) : Prop := ∀ x ∈ s.live, x.carries i → x.nonce = n

/-- Only the transaction of the job carries it. -/
def HeldBy (s : Shard) (i : Bytes32) (id : JobId) : Prop := ∀ x ∈ s.live, x.carries i → x.id = id

end Shard

/-- The batch that is about to be signed does not carry the fill. -/
def Phase.spares (p : Phase) (i : Bytes32) : Prop :=
  ∀ fills attempt, p = .reserved fills attempt → i ∉ fills.map (·.fillId)

theorem step_heldAt (hindexed : Indexed s.db) (h : Step marketIds s a t) (hp : s.phase.spares i) (hs : s.HeldAt i n) :
    t.HeldAt i n := by
  intro x hx hi
  rcases step_live hindexed.jobs h hx with hx | ⟨-, ⟨attempt, hsign⟩ | ⟨y, hy, hnonce, hdata⟩⟩
  · exact hs x hx hi
  · exact absurd hi (hp _ _ hsign)
  · exact hnonce ▸ hs y hy (by rw [SignedTx.carries, hdata]; exact hi)

/-- **A fill stays clear** until a batch with it is signed. -/
theorem step_clear (hindexed : Indexed s.db) (h : Step marketIds s a t) (hp : s.phase.spares i) (hs : s.Clear i) :
    t.Clear i := by
  intro x hx hi
  rcases step_live hindexed.jobs h hx with hx | ⟨-, ⟨attempt, hsign⟩ | ⟨y, hy, -, hdata⟩⟩
  · exact hs x hx hi
  · exact hp _ _ hsign hi
  · exact hs y hy (by rw [SignedTx.carries, hdata]; exact hi)

theorem Shard.Clear.mono (hlive : t.live ⊆ s.live) (hs : s.Clear i) : t.Clear i := fun x hx => hs x (hlive hx)

theorem Shard.HeldAt.mono (hlive : t.live ⊆ s.live) (hs : s.HeldAt i n) : t.HeldAt i n := fun x hx => hs x (hlive hx)

theorem Shard.HeldBy.mono {id : JobId} (hlive : t.live ⊆ s.live) (hs : s.HeldBy i id) : t.HeldBy i id :=
  fun x hx => hs x (hlive hx)

theorem Shard.HeldAt.clear (hs : s.HeldAt i n) (hn : n < s.mined) : s.Clear i := fun x hx hi =>
  absurd (hs x hx hi ▸ hn) (not_lt.2 hx.1)

theorem Indexed.tx_eq (h : Indexed s.db) (hx : x ∈ s.live) (hj : j ∈ s.db.jobs) (hid : x.id = j.id) : x = j.tx := by
  obtain ⟨-, k, hk, rfl, -⟩ := hx
  rw [h.job_eq hk hj hid]

theorem Shard.HeldBy.heldAt (hindexed : Indexed s.db) (hj : j ∈ s.db.jobs) (hs : s.HeldBy i j.id) : s.HeldAt i j.nonce := by
  intro x hx hi
  rw [hindexed.tx_eq hx hj (hs x hx hi)]
  rfl

/-! ## What holds of a shard -/

/-- The job that is signed and not acknowledged yet. -/
def Phase.unsent : Phase → List JobId
  | .sending _ _ id => [id]
  | .replacing _ _ n | .resending _ _ n => [n]
  | .down | .idle | .reserved .. | .failing _ | .submitted .. | .awaiting .. | .reverted _ | .recovering _
  | .scanning .. => []

def Wait.fills : Wait → List PlannedFill
  | .settle fills => fills
  | .recover _ => []

/-- The job is open, or its nonce is gone. -/
def Shard.Pending (s : Shard) (j : TxJob) : Prop := j.status.open_ = true ∨ j.nonce < s.mined

/-- The fill has its row, which no job is linked to while it is PENDING. -/
def Db.Unlinked (db : Db) (i : Bytes32) : Prop :=
  i ∈ db.fills.map (·.fillId) ∧ ∀ r ∈ db.fills, r.status = .pending → r.fillId = i → r.txJobId = none

/-- The attempt `n` is a fee bump of the attempt `c`. -/
def Shard.Bump (s : Shard) (c n : JobId) (k m : TxJob) : Prop :=
  k ∈ s.db.jobs ∧ m ∈ s.db.jobs ∧ k.id = c ∧ m.id = n ∧ m.nonce = k.nonce ∧ m.data = k.data ∧ c ≠ n ∧ s.Pending m

/-- What holds in each phase of the process. -/
def Shard.Sound (s : Shard) : Phase → Prop
  | .reserved fills _ => ∀ f ∈ fills, s.Clear f.fillId ∧ s.db.Unlinked f.fillId
  | .sending fills _ id => (∃ k ∈ s.db.jobs, k.id = id ∧ k.data = fills ∧ s.Pending k) ∧
      ∀ f ∈ fills, s.HeldBy f.fillId id ∧ s.db.Unlinked f.fillId
  | .failing fills | .reverted fills => ∀ f ∈ fills, s.Clear f.fillId
  | .submitted fills id => (∃ k ∈ s.db.jobs, k.id = id ∧ k.data = fills ∧ k.status ≠ .failed) ∧
      ∀ f ∈ fills, s.HeldBy f.fillId id
  | .awaiting w c => ∃ k ∈ s.db.jobs, k.id = c ∧ ∀ f ∈ w.fills, s.HeldAt f.fillId k.nonce
  | .replacing w c n => ∃ k m, s.Bump c n k m ∧ ∀ f ∈ w.fills, s.HeldAt f.fillId k.nonce
  | .resending w c n => ∃ k m, s.Bump c n k m ∧ (k.status = .replaced ∨ k.nonce < s.mined) ∧
      ∀ f ∈ w.fills, s.HeldAt f.fillId k.nonce
  | .scanning rows release => (∀ r ∈ rows, r.txJobId ≠ none → s.Clear r.fillId) ∧ ∀ i ∈ release, s.Clear i
  | .down | .idle | .recovering _ => True

/-- The statuses that say the nonce is gone. -/
def TxJobStatus.closed : TxJobStatus → Bool
  | .confirmed | .reverted | .dropped => true
  | .pending | .submitted | .replaced | .failed => false

structure Inv (s : Shard) : Prop where
  indexed : Indexed s.db
  watched : ∀ id ∈ s.phase.watched, id ∈ s.db.jobs.map (·.id)
  receipts : ∀ id ok, (id, ok) ∈ s.receipts → ∃ j ∈ s.db.jobs, j.id = id ∧ j.nonce < s.mined
  closed : ∀ j ∈ s.db.jobs, j.status.closed = true → j.nonce < s.mined
  /-- A refused transaction that is still live is a fee bump. -/
  failed : ∀ j ∈ s.db.jobs, j.status = .failed → j.tx ∈ s.live →
    ∃ k ∈ s.db.jobs, k.status = .replaced ∧ k.nonce = j.nonce ∧ k.data = j.data
  /-- Live transactions carry fills that have their row. -/
  backed : ∀ x ∈ s.live, ∀ i, x.carries i → i ∈ s.db.fills.map (·.fillId)
  /-- A PENDING fill that is linked is carried by its job, and by nothing live at another nonce. -/
  linked : ∀ r ∈ s.db.fills, r.status = .pending → ∀ id, r.txJobId = some id → id ∉ s.phase.unsent ∧
    ∃ k ∈ s.db.jobs, k.id = id ∧ k.tx.carries r.fillId ∧ k.status ≠ .failed ∧ s.HeldAt r.fillId k.nonce
  sound : s.Sound s.phase

/-! ## What a step does to the jobs -/

/-- The condition on a step: a submission that failed has not left the node with its transaction, an unlinked orphan is
released when the nonces of its open and superseded jobs are gone, and a reservation is of new rows. -/
def Act.Meets (s : Shard) : Act → Prop
  | .refused kept => kept = false ∧ ∀ fills attempt id, s.phase = .sending fills attempt id → id ∉ s.sent
  | .read => ∀ r rows release, s.phase = .scanning (r :: rows) release → r.txJobId = none →
      unaccounted s.db s.filled r = true → ∀ j ∈ s.db.jobs, j.carries r.fillId →
        (j.status.open_ = true ∨ j.status = .replaced) → j.nonce < s.mined
  | .reserve fills _ => ∀ f ∈ fills, f.fillId ∉ s.db.fills.map (·.fillId)
  | _ => True

theorem step_receipts (hs : Inv s) (h : Step marketIds s a t) :
    ∀ id ok, (id, ok) ∈ t.receipts → ∃ j ∈ t.db.jobs, j.id = id ∧ j.nonce < t.mined := by
  intro id ok hr
  have hold : (id, ok) ∈ s.receipts → ∃ j ∈ t.db.jobs, j.id = id ∧ j.nonce < t.mined := by
    intro hr
    obtain ⟨j, hj, hid, hn⟩ := hs.receipts id ok hr
    obtain ⟨k, hk, htx⟩ := step_tx h hj
    injection htx with hkid hkn
    exact ⟨k, hk, hkid.trans hid, hkn ▸ hn.trans_le (step_mined h)⟩
  cases h with
  | mine hj _ hn _ =>
    rcases List.mem_cons.1 hr with hr | hr
    · injection hr with hid
      exact ⟨_, hj, hid.symm, hn ▸ Nat.lt_succ_self _⟩
    · exact hold hr
  | _ => exact hold hr

theorem Inv.sound_of (hs : Inv s) {p : Phase} (hp : s.phase = p) : s.Sound p := hp ▸ hs.sound

theorem Inv.gone (hs : Inv s) (hj : j ∈ s.db.jobs) {ok : Bool} (hr : (j.id, ok) ∈ s.receipts) : j.nonce < s.mined := by
  obtain ⟨k, hk, hid, hgone⟩ := hs.receipts j.id ok hr
  exact hs.indexed.job_eq hk hj hid ▸ hgone

/-- A transaction that was refused, and that nobody sends any more. -/
def Shard.Refuses (s : Shard) (a : Act) (t : Shard) (id : JobId) : Prop :=
  ∃ fills attempt kept, a = .refused kept ∧ s.phase = .sending fills attempt id ∧ t.phase = .failing fills ∧
    t.sent = if kept = true then id :: s.sent else s.sent

/-- What a step makes of the status of a job: what it was, closed with its nonce, the reply to the attempt that is being
sent, or superseded. -/
def Moves (s : Shard) (a : Act) (t : Shard) (k : TxJob) (status : TxJobStatus) : Prop :=
  status = k.status ∨ (status.closed = true ∧ k.nonce < t.mined) ∨
    (k.id ∈ s.phase.unsent ∧ status = .submitted) ∨
    (k.id ∈ s.phase.unsent ∧ status = .failed ∧ (s.Refuses a t k.id ∨ ∃ w c, s.phase = .resending w c k.id)) ∨
    (status = .replaced ∧ ∃ w n, s.phase = .replacing w k.id n)

theorem Moves.setStatus {k : TxJob} {id : JobId} {status : TxJobStatus} (h : k.id = id → Moves s a t k status) :
    Moves s a t k (if k.id = id then status else k.status) := by
  split_ifs with hid
  · exact h hid
  · exact Or.inl rfl

/-- **The statuses of a step.** -/
theorem step_status (hs : Inv s) (h : Step marketIds s a t) (hj : j ∈ t.db.jobs) :
    (j.id ∉ s.db.jobs.map (·.id) ∧ j.status = .pending) ∨ ∃ k ∈ s.db.jobs, k.tx = j.tx ∧ Moves s a t k j.status := by
  have hsame : j ∈ s.db.jobs → ∃ k ∈ s.db.jobs, k.tx = j.tx ∧ Moves s a t k j.status := fun hj => ⟨j, hj, rfl, Or.inl rfl⟩
  have hmap : ∀ g : TxJob → TxJobStatus, j ∈ restatus g s.db.jobs → (∀ k ∈ s.db.jobs, Moves s a t k (g k)) →
      ∃ k ∈ s.db.jobs, k.tx = j.tx ∧ Moves s a t k j.status := by
    intro g hj hg
    obtain ⟨k, hk, rfl⟩ := mem_restatus.1 hj
    exact ⟨k, hk, rfl, hg k hk⟩
  cases h with
  | reserve | abort | release | link | timeout | throw | rebroadcast | crash | restart | resume | query | read | finish
  | resend | mine | foreign => exact Or.inr (hsame hj)
  | upkeep h => exact Or.inr (hsame (upkeep_jobs h ▸ hj))
  | sign hp hid =>
    rcases List.mem_append.1 hj with hj | hj
    · exact Or.inr (hsame hj)
    · rw [List.mem_singleton.1 hj]
      exact Or.inl ⟨hid, rfl⟩
  | replace hp hk hc hid =>
    rcases List.mem_append.1 hj with hj | hj
    · exact Or.inr (hsame hj)
    · rw [List.mem_singleton.1 hj]
      exact Or.inl ⟨hid, rfl⟩
  | accepted hp =>
    refine Or.inr (hmap _ hj fun k hk => Moves.setStatus fun hid => ?_)
    exact Or.inr (Or.inr (Or.inl ⟨hp ▸ List.mem_singleton.2 hid, rfl⟩))
  | nonceTooLow hl hp hlow =>
    refine Or.inr (hmap _ hj fun k hk => Moves.setStatus fun hid => ?_)
    exact Or.inr (Or.inl ⟨rfl, hs.indexed.job_eq hk hl hid ▸ hlow⟩)
  | refused hp =>
    refine Or.inr (hmap _ hj fun k hk => Moves.setStatus fun hid => ?_)
    subst hid
    exact Or.inr (Or.inr (Or.inr (Or.inl ⟨hp ▸ List.mem_singleton_self _, rfl, Or.inl ⟨_, _, _, rfl, hp, rfl, rfl⟩⟩)))
  | found hp hl hc hm hn hr =>
    refine Or.inr (hmap _ hj fun k hk => ?_)
    have hgone := hs.gone hm hr
    split_ifs with hid hok hopen
    · exact Or.inr (Or.inl ⟨rfl, hs.indexed.job_eq hk hm hid ▸ hgone⟩)
    · exact Or.inr (Or.inl ⟨rfl, hs.indexed.job_eq hk hm hid ▸ hgone⟩)
    · exact Or.inr (Or.inl ⟨rfl, hopen.1 ▸ hgone⟩)
    · exact Or.inl rfl
  | taken hp hl hc hn =>
    refine Or.inr (hmap _ hj fun k hk => ?_)
    split_ifs with hopen
    · exact Or.inr (Or.inl ⟨rfl, hopen.1 ▸ hn⟩)
    · exact Or.inl rfl
  | supersede hp =>
    refine Or.inr (hmap _ hj fun k hk => Moves.setStatus fun hid => ?_)
    exact Or.inr (Or.inr (Or.inr (Or.inr ⟨rfl, _, _, hid ▸ hp⟩)))
  | bumped hp =>
    refine Or.inr (hmap _ hj fun k hk => Moves.setStatus fun hid => ?_)
    exact Or.inr (Or.inr (Or.inl ⟨hp ▸ List.mem_singleton.2 hid, rfl⟩))
  | bumpTooLow hl hp hlow =>
    refine Or.inr (hmap _ hj fun k hk => Moves.setStatus fun hid => ?_)
    exact Or.inr (Or.inl ⟨rfl, hs.indexed.job_eq hk hl hid ▸ hlow⟩)
  | underpriced hp =>
    refine Or.inr (hmap _ hj fun k hk => Moves.setStatus fun hid => ?_)
    subst hid
    exact Or.inr (Or.inr (Or.inr (Or.inl ⟨hp ▸ List.mem_singleton_self _, rfl, Or.inr ⟨_, _, hp⟩⟩)))
  | bumpRefused hp =>
    refine Or.inr (hmap _ hj fun k hk => Moves.setStatus fun hid => ?_)
    subst hid
    exact Or.inr (Or.inr (Or.inr (Or.inl ⟨hp ▸ List.mem_singleton_self _, rfl, Or.inr ⟨_, _, hp⟩⟩)))
  | close hl hopen hstatus =>
    refine Or.inr (hmap _ hj fun k hk => Moves.setStatus fun hid => Or.inr (Or.inl ?_))
    rw [hs.indexed.job_eq hk hl hid]
    rcases hstatus with ⟨rfl, hr⟩ | ⟨rfl, hr⟩ | ⟨rfl, hgone⟩
    · exact ⟨rfl, hs.gone hl hr⟩
    · exact ⟨rfl, hs.gone hl hr⟩
    · exact ⟨rfl, hgone⟩

theorem step_closed (hs : Inv s) (h : Step marketIds s a t) :
    ∀ j ∈ t.db.jobs, j.status.closed = true → j.nonce < t.mined := by
  intro j hj hclosed
  rcases step_status hs h hj with ⟨-, hnew⟩ | ⟨k, hk, htx, hmoves⟩
  · rw [hnew] at hclosed
    cases hclosed
  · injection htx with hid hn
    rcases hmoves with hsame | ⟨-, hgone⟩ | ⟨-, hsub⟩ | ⟨-, hfail, -⟩ | ⟨hrep, -⟩
    · exact hn ▸ (hs.closed k hk (hsame ▸ hclosed)).trans_le (step_mined h)
    · exact hn ▸ hgone
    · rw [hsub] at hclosed
      cases hclosed
    · rw [hfail] at hclosed
      cases hclosed
    · rw [hrep] at hclosed
      cases hclosed

/-! ## Refused and linked jobs -/

theorem step_live_old (hs : Inv s) (h : Step marketIds s a t) (hj : j ∈ s.db.jobs) (hx : j.tx ∈ t.live) : j.tx ∈ s.live := by
  rcases step_live hs.indexed.jobs h hx with hx | ⟨hnew, -⟩
  · exact hx
  · exact absurd (List.mem_map.2 ⟨j, hj, rfl⟩) hnew

theorem Inv.pending (hs : Inv s) (hj : j ∈ s.db.jobs) (hin : j.id ∈ s.phase.unsent) : s.Pending j := by
  cases hp : s.phase with
  | sending fills attempt id =>
    rw [hp] at hin
    obtain ⟨⟨k, hk, hid, -, hpending⟩, -⟩ := hs.sound_of hp
    exact hs.indexed.job_eq hk hj (hid.trans (List.mem_singleton.1 hin).symm) ▸ hpending
  | replacing w c n =>
    rw [hp] at hin
    obtain ⟨k, m, ⟨-, hm, -, hid, -, -, -, hpending⟩, -⟩ := hs.sound_of hp
    exact hs.indexed.job_eq hm hj (hid.trans (List.mem_singleton.1 hin).symm) ▸ hpending
  | resending w c n =>
    rw [hp] at hin
    obtain ⟨k, m, ⟨-, hm, -, hid, -, -, -, hpending⟩, -⟩ := hs.sound_of hp
    exact hs.indexed.job_eq hm hj (hid.trans (List.mem_singleton.1 hin).symm) ▸ hpending
  | down | idle | reserved | failing | submitted | awaiting | reverted | recovering | scanning =>
    rw [hp] at hin
    exact absurd hin List.not_mem_nil

theorem step_replaced (hs : Inv s) (h : Step marketIds s a t) (hj : j ∈ s.db.jobs) (hrep : j.status = .replaced)
    (hfree : t.mined ≤ j.nonce) : ∃ k ∈ t.db.jobs, k.tx = j.tx ∧ k.status = .replaced := by
  obtain ⟨k, hk, htx⟩ := step_tx h hj
  refine ⟨k, hk, htx, ?_⟩
  have hid : k.id = j.id := congrArg SignedTx.id htx
  rcases step_status hs h hk with ⟨hnew, -⟩ | ⟨l, hl, htx', hmoves⟩
  · exact absurd (List.mem_map.2 ⟨j, hj, hid.symm⟩) hnew
  · have hlj : l = j := hs.indexed.job_eq hl hj ((congrArg SignedTx.id htx').trans hid)
    subst hlj
    -- A superseded job is not being sent, unless its nonce is gone.
    have hunsent : l.id ∉ s.phase.unsent := by
      intro hin
      rcases hs.pending hl hin with hopen | hgone
      · rw [hrep] at hopen
        cases hopen
      · exact absurd (hgone.trans_le (step_mined h)) (not_lt.2 hfree)
    rcases hmoves with hsame | ⟨-, hgone⟩ | ⟨hin, -⟩ | ⟨hin, -⟩ | ⟨hrep', -⟩
    · exact hsame.trans hrep
    · exact absurd hgone (not_lt.2 hfree)
    · exact absurd hin hunsent
    · exact absurd hin hunsent
    · exact hrep'

/-- What was refused when it was submitted does not reach the node any more. -/
theorem refused_gone {kept : Bool} {fills : List PlannedFill} {attempt : Nat} {id : JobId}
    (hmeets : (Act.refused kept).Meets s) (hp : s.phase = .sending fills attempt id)
    (hp' : t.phase = .failing fills) (hsent : t.sent = if kept = true then id :: s.sent else s.sent) (hid : j.id = id)
    (hfailed : j.status = .failed) : ¬ t.standing j := by
  obtain ⟨hkept, hnot⟩ := hmeets
  rw [hkept] at hsent
  rintro (hin | hopen | hin)
  · rw [hsent, hid] at hin
    exact hnot _ _ _ hp hin
  · rw [hfailed] at hopen
    cases hopen
  · rw [hp'] at hin
    exact List.not_mem_nil hin

/-- **A refused transaction that is live is a fee bump**: the node keeps none that was refused when it was submitted. -/
theorem step_failed (hs : Inv s) (hmeets : a.Meets s) (h : Step marketIds s a t) :
    ∀ j ∈ t.db.jobs, j.status = .failed → j.tx ∈ t.live →
      ∃ k ∈ t.db.jobs, k.status = .replaced ∧ k.nonce = j.nonce ∧ k.data = j.data := by
  intro j hj hfailed hlive
  have hindexed := step_indexed hs.indexed h
  -- A superseded job with the nonce and the batch is enough.
  have hsuffices : ∀ k ∈ s.db.jobs, k.status = .replaced → k.nonce = j.nonce → k.data = j.data →
      ∃ k ∈ t.db.jobs, k.status = .replaced ∧ k.nonce = j.nonce ∧ k.data = j.data := by
    intro k hk hrep hnonce hdata
    obtain ⟨k', hk', htx, hrep'⟩ := step_replaced hs h hk hrep (hnonce ▸ hlive.1)
    injection htx with _ hnonce' hdata'
    exact ⟨k', hk', hrep', hnonce'.trans hnonce, hdata'.trans hdata⟩
  rcases step_status hs h hj with ⟨-, hnew⟩ | ⟨k, hk, htx, hmoves⟩
  · rw [hnew] at hfailed
    cases hfailed
  · rw [hfailed] at hmoves
    have hlive' := step_live_old hs h hk (htx ▸ hlive)
    injection htx with hid hnonce hdata
    rcases hmoves with hsame | ⟨hclosed, -⟩ | ⟨-, hsub⟩ | ⟨-, -, hrefused | ⟨w, c, hp⟩⟩ | ⟨hrep, -⟩
    · obtain ⟨m, hm, hrep, hmn, hmd⟩ := hs.failed k hk hsame.symm hlive'
      exact hsuffices m hm hrep (hmn.trans hnonce) (hmd.trans hdata)
    · cases hclosed
    · cases hsub
    · obtain ⟨fills, attempt, kept, rfl, hp, hp', hsent⟩ := hrefused
      obtain ⟨-, l, hl, hltx, hstanding⟩ := hlive
      rw [hindexed.job_eq hl hj (congrArg SignedTx.id hltx)] at hstanding
      exact absurd hstanding (refused_gone hmeets hp hp' hsent hid.symm hfailed)
    · have hsound := hs.sound_of hp
      obtain ⟨l, m, ⟨hl, hm, -, hmid, hmn, hmd, -, -⟩, hrep | hgone, -⟩ := hsound
      · have hmk := hs.indexed.job_eq hm hk hmid
        exact hsuffices l hl hrep (hmn.symm.trans (hmk ▸ hnonce)) (hmd.symm.trans (hmk ▸ hdata))
      · have hmk := hs.indexed.job_eq hm hk hmid
        rw [← hmn, hmk] at hgone
        exact absurd hgone (not_lt.2 hlive'.1)
    · cases hrep

theorem live_origin (hs : Inv s) (h : Step marketIds s a t) (hx : x ∈ t.live) (hi : x.carries i) :
    (∃ y ∈ s.live, y.carries i) ∨ ∃ fills attempt, s.phase = .reserved fills attempt ∧ i ∈ fills.map (·.fillId) := by
  by_contra hnone
  rw [not_or] at hnone
  exact step_clear hs.indexed h (fun fills attempt hp hin => hnone.2 ⟨fills, attempt, hp, hin⟩)
    (fun y hy hc => hnone.1 ⟨y, hy, hc⟩) x hx hi

theorem Inv.released (hs : Inv s) {fillIds : List Bytes32} (hp : Releases s.phase fillIds) : ∀ i ∈ fillIds, s.Clear i := by
  intro i hi
  rcases hp with ⟨fills, rfl, hp | hp⟩ | hp
  · obtain ⟨f, hf, rfl⟩ := List.mem_map.1 hi
    exact hs.sound_of hp f hf
  · obtain ⟨f, hf, rfl⟩ := List.mem_map.1 hi
    exact hs.sound_of hp f hf
  · exact (hs.sound_of hp).2 i hi

theorem Releases.not_reserved {fillIds : List Bytes32} (h : Releases s.phase fillIds) (fills : List PlannedFill)
    (attempt : Nat) : s.phase ≠ .reserved fills attempt := by
  rcases h with ⟨fills', -, h | h⟩ | h <;> rw [h] <;> exact fun h => by cases h

theorem step_backed (hs : Inv s) (h : Step marketIds s a t) :
    ∀ x ∈ t.live, ∀ i, x.carries i → i ∈ t.db.fills.map (·.fillId) := by
  intro x hx i hi
  have horigin := live_origin hs h hx hi
  have hold : i ∈ s.db.fills.map (·.fillId) := by
    rcases horigin with ⟨y, hy, hc⟩ | ⟨fills, attempt, hp, hin⟩
    · exact hs.backed y hy i hc
    · have hsound := hs.sound_of hp
      obtain ⟨f, hf, rfl⟩ := List.mem_map.1 hin
      exact (hsound f hf).2.1
  rcases step_rows hs.indexed h with hkept | ⟨fills, createdAt, -, -, hrows⟩ | ⟨fills, id, -, -, hrows⟩ | ⟨ids, hp, -, hrows⟩
  · exact hkept.ids i hold
  · obtain ⟨r, hr, rfl⟩ := List.mem_map.1 hold
    exact List.mem_map.2 ⟨r, hrows ▸ (persist_rows createdAt fills s.db.fills).1 r hr, rfl⟩
  · rw [hrows]
    obtain ⟨r, hr, rfl⟩ := List.mem_map.1 hold
    refine List.mem_map.2 ⟨_, List.mem_map.2 ⟨r, hr, rfl⟩, ?_⟩
    split_ifs <;> rfl
  · obtain ⟨r, hr, rfl⟩ := List.mem_map.1 hold
    refine List.mem_map.2 ⟨r, hrows ▸ List.mem_filter.2 ⟨hr, ?_⟩, rfl⟩
    rw [Bool.not_eq_true', decide_eq_false_iff_not]
    rintro ⟨hin, -⟩
    rcases horigin with ⟨y, hy, hc⟩ | ⟨fills, attempt, hreserved, -⟩
    · exact hs.released hp _ hin y hy hc
    · exact hp.not_reserved fills attempt hreserved

theorem step_unsent (h : Step marketIds s a t) :
    ∀ id ∈ t.phase.unsent, id ∈ s.phase.unsent ∨ id ∉ s.db.jobs.map (·.id) := by
  intro id hin
  cases h with
  | sign hp hid => exact Or.inr (List.mem_singleton.1 hin ▸ hid)
  | replace hp hk hc hid => exact Or.inr (List.mem_singleton.1 hin ▸ hid)
  | supersede hp => exact Or.inl (hp ▸ hin)
  | rebroadcast | resend | mine | foreign | close | upkeep => exact Or.inl hin
  | reserve | abort | accepted | refused | release | link | bumped | bumpTooLow | underpriced | crash | restart | resume
  | query | read | finish => exact absurd hin List.not_mem_nil
  | nonceTooLow =>
    simp only [retried] at hin
    split_ifs at hin <;> exact absurd hin List.not_mem_nil
  | @found w c k j ok =>
    cases w with
    | settle fills => cases ok <;> exact absurd hin List.not_mem_nil
    | recover todo => exact absurd hin List.not_mem_nil
  | @timeout w => cases w <;> exact absurd hin List.not_mem_nil
  | @taken w => cases w <;> exact absurd hin List.not_mem_nil
  | @throw w => cases w <;> exact absurd hin List.not_mem_nil
  | @bumpRefused w => cases w <;> exact absurd hin List.not_mem_nil

/-- A batch with a linked PENDING fill is not about to be signed. -/
theorem Inv.spares (hs : Inv s) {r : FillRow} (hr : r ∈ s.db.fills) (hp : r.status = .pending) {id : JobId}
    (hid : r.txJobId = some id) : s.phase.spares r.fillId := by
  intro fills attempt hphase hin
  have hsound := hs.sound_of hphase
  obtain ⟨f, hf, hfid⟩ := List.mem_map.1 hin
  have hnone := (hsound f hf).2.2 r hr hp hfid.symm
  rw [hid] at hnone
  cases hnone

theorem step_not_failed (hs : Inv s) (h : Step marketIds s a t) (hj : j ∈ s.db.jobs) (hfailed : j.status ≠ .failed)
    (hunsent : j.id ∉ s.phase.unsent) : ∃ k ∈ t.db.jobs, k.tx = j.tx ∧ k.status ≠ .failed := by
  obtain ⟨k, hk, htx⟩ := step_tx h hj
  refine ⟨k, hk, htx, fun hfailed' => ?_⟩
  rcases step_status hs h hk with ⟨hnew, -⟩ | ⟨l, hl, htx', hmoves⟩
  · exact hnew (List.mem_map.2 ⟨j, hj, (congrArg SignedTx.id htx).symm⟩)
  · have hlj : l = j := hs.indexed.job_eq hl hj (congrArg SignedTx.id (htx'.trans htx))
    subst hlj
    rw [hfailed'] at hmoves
    rcases hmoves with hsame | ⟨hclosed, -⟩ | ⟨-, hsub⟩ | ⟨hin, -⟩ | ⟨hrep, -⟩
    · exact hfailed hsame.symm
    · cases hclosed
    · cases hsub
    · exact hunsent hin
    · cases hrep

theorem step_linked_old (hs : Inv s) (h : Step marketIds s a t) {r : FillRow} (hr : r ∈ s.db.fills)
    (hp : r.status = .pending) {id : JobId} (hid : r.txJobId = some id) : id ∉ t.phase.unsent ∧
      ∃ k ∈ t.db.jobs, k.id = id ∧ k.tx.carries r.fillId ∧ k.status ≠ .failed ∧ t.HeldAt r.fillId k.nonce := by
  obtain ⟨hunsent, k, hk, hkid, hcarries, hfailed, hheld⟩ := hs.linked r hr hp id hid
  refine ⟨fun hin => ?_, ?_⟩
  · rcases step_unsent h id hin with hin | hnew
    · exact hunsent hin
    · exact hnew (List.mem_map.2 ⟨k, hk, hkid⟩)
  · obtain ⟨k', hk', htx, hfailed'⟩ := step_not_failed hs h hk hfailed (hkid ▸ hunsent)
    have hnonce : k'.nonce = k.nonce := congrArg SignedTx.nonce htx
    refine ⟨k', hk', (congrArg SignedTx.id htx).trans hkid, htx ▸ hcarries, hfailed', ?_⟩
    rw [hnonce]
    exact step_heldAt hs.indexed h (hs.spares hr hp hid) hheld

theorem step_linked (hs : Inv s) (h : Step marketIds s a t) : ∀ r ∈ t.db.fills, r.status = .pending → ∀ id,
    r.txJobId = some id → id ∉ t.phase.unsent ∧
      ∃ k ∈ t.db.jobs, k.id = id ∧ k.tx.carries r.fillId ∧ k.status ≠ .failed ∧ t.HeldAt r.fillId k.nonce := by
  intro r hr hp id hid
  rcases step_rows hs.indexed h with hkept | ⟨fills, createdAt, -, -, hrows⟩ | ⟨fills, j, hphase, hphase', hrows⟩ |
    ⟨ids, -, -, hrows⟩
  · obtain ⟨r', hr', hp', hfid, hjob, -⟩ := hkept.pending r hr hp
    exact hfid ▸ step_linked_old hs h hr' hp' (hjob.trans hid)
  · rw [hrows] at hr
    rcases (persist_rows createdAt fills s.db.fills).2.2.1 r hr with hr | ⟨f, hf, rfl⟩
    · exact step_linked_old hs h hr hp hid
    · cases hid
  · rw [hrows] at hr
    obtain ⟨r', hr', rfl⟩ := List.mem_map.1 hr
    split_ifs at hp hid ⊢ with hin
    · injection hid with hid
      subst hid
      have hsound := hs.sound_of hphase
      obtain ⟨⟨k, hk, hkid, hdata, hfailed⟩, hheld⟩ := hsound
      obtain ⟨f, hf, hfid⟩ := List.mem_map.1 hin.1
      obtain ⟨k', hk', htx, hfailed'⟩ := step_not_failed hs h hk hfailed (by rw [hphase]; exact List.not_mem_nil)
      injection htx with hid' hnonce' hdata'
      refine ⟨by rw [hphase']; exact List.not_mem_nil, k', hk', hid'.trans hkid, ?_, hfailed', ?_⟩
      · rw [TxJob.tx, SignedTx.carries, hdata', hdata]
        exact hin.1
      · rw [hnonce']
        refine step_heldAt hs.indexed h (fun fills attempt hres => ?_) ?_
        · rw [hphase] at hres
          cases hres
        · rw [← hfid]
          exact Shard.HeldBy.heldAt hs.indexed hk (hkid ▸ hheld f hf)
    · exact step_linked_old hs h hr' hp hid
  · rw [hrows] at hr
    exact step_linked_old hs h (List.mem_filter.1 hr).1 hp hid

/-! ## The phases -/

theorem step_known (hs : Inv s) (h : Step marketIds s a t) :
    ∀ id ∈ t.phase.watched, id ∈ t.db.jobs.map (·.id) := by
  have hold : ∀ id ∈ s.db.jobs.map (·.id), id ∈ t.db.jobs.map (·.id) := by
    intro id hid
    obtain ⟨j, hj, rfl⟩ := List.mem_map.1 hid
    obtain ⟨k, hk, htx⟩ := step_tx h hj
    exact List.mem_map.2 ⟨k, hk, congrArg SignedTx.id htx⟩
  intro id hid
  rcases step_watched h id hid with hw | ⟨k, hk, rfl, -⟩ | ⟨hin, -⟩
  · exact hold id (hs.watched id hw)
  · exact hold _ (List.mem_map.2 ⟨k, hk, rfl⟩)
  · exact hin

/-- A step that changes neither the phase nor the batch of a job, closes open jobs only and gives nothing back to the
node. -/
structure Drift (s t : Shard) : Prop where
  phase : t.phase = s.phase
  mined : s.mined ≤ t.mined
  live : t.live ⊆ s.live
  jobs : ∀ j ∈ s.db.jobs, ∃ k ∈ t.db.jobs, k.tx = j.tx ∧
    (k.status = j.status ∨ j.status.open_ = true ∧ k.status.closed = true ∧ j.nonce < t.mined)
  rows : Kept s.db.fills t.db.fills

theorem Drift.pending (h : Drift s t) (hj : j ∈ s.db.jobs) (hp : s.Pending j) : ∃ k ∈ t.db.jobs, k.tx = j.tx ∧ t.Pending k := by
  obtain ⟨k, hk, htx, hstatus⟩ := h.jobs j hj
  have hnonce : k.nonce = j.nonce := congrArg SignedTx.nonce htx
  refine ⟨k, hk, htx, ?_⟩
  rcases hstatus with hsame | ⟨-, -, hgone⟩
  · exact hp.imp (fun hopen => hsame ▸ hopen) fun hgone => hnonce ▸ hgone.trans_le h.mined
  · exact Or.inr (hnonce ▸ hgone)

theorem Drift.unlinked (h : Drift s t) (hs : s.db.Unlinked i) : t.db.Unlinked i := by
  refine ⟨h.rows.ids i hs.1, fun r hr hp hid => ?_⟩
  obtain ⟨r', hr', hp', hid', hjob, -⟩ := h.rows.pending r hr hp
  exact hjob ▸ hs.2 r' hr' hp' (hid'.trans hid)

theorem Drift.bump (h : Drift s t) {c n : JobId} {k m : TxJob} (hs : s.Bump c n k m) :
    ∃ k' m', t.Bump c n k' m' ∧ k'.nonce = k.nonce ∧
      (k.status = .replaced ∨ k.nonce < s.mined → k'.status = .replaced ∨ k'.nonce < t.mined) := by
  obtain ⟨hk, hm, hkid, hmid, hnonce, hdata, hne, hpending⟩ := hs
  obtain ⟨m', hm', hmtx, hpending'⟩ := h.pending hm hpending
  obtain ⟨k', hk', hktx, hstatus⟩ := h.jobs k hk
  injection hmtx with hmid' hmn hmd
  injection hktx with hkid' hkn hkd
  refine ⟨k', m', ⟨hk', hm', hkid'.trans hkid, hmid'.trans hmid, ?_, ?_, hne, hpending'⟩, hkn, fun hrep => ?_⟩
  · rw [hmn, hkn, hnonce]
  · rw [hmd, hkd, hdata]
  · rcases hstatus with hsame | ⟨-, -, hgone⟩
    · exact hrep.imp (fun hrep => hsame.trans hrep) fun hgone => hkn ▸ hgone.trans_le h.mined
    · exact Or.inr (hkn ▸ hgone)

theorem Drift.sound (h : Drift s t) {p : Phase} (hs : s.Sound p) : t.Sound p := by
  cases p with
  | down | idle | recovering => trivial
  | reserved fills attempt =>
    exact fun f hf => ⟨(hs f hf).1.mono h.live, h.unlinked (hs f hf).2⟩
  | sending fills attempt id =>
    obtain ⟨⟨k, hk, hid, hdata, hpending⟩, hfills⟩ := hs
    obtain ⟨k', hk', htx, hpending'⟩ := h.pending hk hpending
    injection htx with hid' _ hdata'
    exact ⟨⟨k', hk', hid'.trans hid, hdata'.trans hdata, hpending'⟩,
      fun f hf => ⟨(hfills f hf).1.mono h.live, h.unlinked (hfills f hf).2⟩⟩
  | failing fills =>
    exact fun f hf => (hs f hf).mono h.live
  | reverted fills =>
    exact fun f hf => (hs f hf).mono h.live
  | submitted fills id =>
    obtain ⟨⟨k, hk, hid, hdata, hfailed⟩, hfills⟩ := hs
    obtain ⟨k', hk', htx, hstatus⟩ := h.jobs k hk
    injection htx with hid' _ hdata'
    refine ⟨⟨k', hk', hid'.trans hid, hdata'.trans hdata, fun hfailed' => ?_⟩, fun f hf => (hfills f hf).mono h.live⟩
    rcases hstatus with hsame | ⟨-, hclosed, -⟩
    · exact hfailed (hsame.symm.trans hfailed')
    · rw [hfailed'] at hclosed
      cases hclosed
  | awaiting w c =>
    obtain ⟨k, hk, hid, hfills⟩ := hs
    obtain ⟨k', hk', htx, -⟩ := h.jobs k hk
    injection htx with hid' hnonce' _
    exact ⟨k', hk', hid'.trans hid, fun f hf => hnonce' ▸ (hfills f hf).mono h.live⟩
  | replacing w c n =>
    obtain ⟨k, m, hbump, hfills⟩ := hs
    obtain ⟨k', m', hbump', hnonce, -⟩ := h.bump hbump
    exact ⟨k', m', hbump', fun f hf => hnonce ▸ (hfills f hf).mono h.live⟩
  | resending w c n =>
    obtain ⟨k, m, hbump, hrep, hfills⟩ := hs
    obtain ⟨k', m', hbump', hnonce, hrep'⟩ := h.bump hbump
    exact ⟨k', m', hbump', hrep' hrep, fun f hf => hnonce ▸ (hfills f hf).mono h.live⟩
  | scanning rows release =>
    exact ⟨fun r hr hjob => (hs.1 r hr hjob).mono h.live, fun i hi => (hs.2 i hi).mono h.live⟩

theorem drift_same (hs : Inv s) (h : Step marketIds s a t) (hphase : t.phase = s.phase) (hjobs : t.db.jobs = s.db.jobs)
    (hrows : Kept s.db.fills t.db.fills) : Drift s t where
  phase := hphase
  mined := step_mined h
  live := step_live_subset hs.indexed.jobs h (congrArg _ hjobs)
  jobs j hj := ⟨j, hjobs ▸ hj, rfl, Or.inl rfl⟩
  rows := hrows

theorem drift_close (hs : Inv s) {status : TxJobStatus} (h : Step marketIds s (.close j.id status)
    (s.putJobs (setStatus j.id status s.db.jobs))) (hj : j ∈ s.db.jobs) (hopen : j.status.open_ = true)
    (hclosed : status.closed = true) (hgone : j.nonce < s.mined) :
    Drift s (s.putJobs (setStatus j.id status s.db.jobs)) where
  phase := rfl
  mined := le_rfl
  live := step_live_subset hs.indexed.jobs h map_id_restatus
  jobs k hk := by
    refine ⟨_, mem_restatus.2 ⟨k, hk, rfl⟩, rfl, ?_⟩
    simp only
    split_ifs with hid
    · obtain rfl := hs.indexed.job_eq hk hj hid
      exact Or.inr ⟨hopen, hclosed, hgone⟩
    · exact Or.inl rfl
  rows := Kept.refl _

/-- A linked orphan is clear: its job is dropped. -/
theorem linked_orphan_clear (hs : Inv s) {cutoff : Int} {r : FillRow} (hr : r ∈ orphans s.db marketIds cutoff)
    (hjob : r.txJobId ≠ none) : s.Clear r.fillId := by
  obtain ⟨hmem, hcond⟩ := List.mem_filter.1 hr
  rw [Bool.and_eq_true, decide_eq_true_eq] at hcond
  obtain ⟨⟨hpending, -, -⟩, hun⟩ := hcond
  obtain ⟨id, hid⟩ := Option.ne_none_iff_exists'.1 hjob
  obtain ⟨-, k, hk, hkid, -, hfailed, hheld⟩ := hs.linked r hmem hpending id hid
  rw [unattended, hid, List.any_eq_true] at hun
  obtain ⟨l, hl, hcond⟩ := hun
  rw [decide_eq_true_eq] at hcond
  obtain rfl := hs.indexed.job_eq hl hk (hcond.1.trans hkid.symm)
  rcases hcond.2 with hdropped | hfail
  · exact hheld.clear (hs.closed l hl (by rw [hdropped]; rfl))
  · exact absurd hfail hfailed

/-- An unlinked orphan is clear when the nonces of its open and superseded jobs are gone. -/
theorem unlinked_orphan_clear (hs : Inv s) (hgone : ∀ j ∈ s.db.jobs, j.carries i →
    (j.status.open_ = true ∨ j.status = .replaced) → j.nonce < s.mined) : s.Clear i := by
  intro x hx hi
  obtain ⟨hfree, j, hj, rfl, hstanding⟩ := hx
  have hstatus : ∀ k ∈ s.db.jobs, k.nonce = j.nonce → k.data = j.data →
      ¬ (k.status.open_ = true ∨ k.status = .replaced) := by
    intro k hk hnonce hdata hopen
    have hcarries : k.carries i := by
      rw [TxJob.carries, hdata]
      exact hi
    exact absurd (hgone k hk hcarries hopen) (not_lt.2 (hfree.trans hnonce.ge))
  cases hst : j.status with
  | pending => exact hstatus j hj rfl rfl (Or.inl (by rw [hst]; rfl))
  | submitted => exact hstatus j hj rfl rfl (Or.inl (by rw [hst]; rfl))
  | replaced => exact hstatus j hj rfl rfl (Or.inr hst)
  | confirmed => exact absurd (hs.closed j hj (by rw [hst]; rfl)) (not_lt.2 hfree)
  | reverted => exact absurd (hs.closed j hj (by rw [hst]; rfl)) (not_lt.2 hfree)
  | dropped => exact absurd (hs.closed j hj (by rw [hst]; rfl)) (not_lt.2 hfree)
  | failed =>
    obtain ⟨k, hk, hrep, hnonce, hdata⟩ := hs.failed j hj hst ⟨hfree, j, hj, rfl, hstanding⟩
    exact hstatus k hk hnonce hdata (Or.inr hrep)

theorem persist_unlinked {fills : List PlannedFill} {createdAt : Int} (hmeets : (Act.reserve fills createdAt).Meets s)
    {f : PlannedFill} (hf : f ∈ fills) : (persistPendingFills s.db createdAt fills).Unlinked f.fillId := by
  obtain ⟨-, hin, hfrom, -⟩ := persist_rows createdAt fills s.db.fills
  refine ⟨hin f hf, fun r hr hp hid => ?_⟩
  rcases hfrom r hr with hr | ⟨g, -, rfl⟩
  · exact absurd (hid ▸ List.mem_map.2 ⟨r, hr, rfl⟩) (hmeets f hf)
  · rfl

theorem sound_retried {fills : List PlannedFill} {attempt : Nat}
    (h : ∀ f ∈ fills, s.Clear f.fillId ∧ s.db.Unlinked f.fillId) : s.Sound (retried fills attempt) := by
  unfold retried
  split_ifs
  · exact h
  · exact fun f hf => (h f hf).1

/-- A fee bump goes on at the nonce of what it replaces. -/
theorem sound_resent {w : Wait} {c n : JobId} (h : s.Sound (.resending w c n)) :
    ∃ m ∈ s.db.jobs, m.id = n ∧ ∀ f ∈ w.fills, s.HeldAt f.fillId m.nonce := by
  obtain ⟨k, m, ⟨-, hm, -, hmid, hnonce, -⟩, -, hfills⟩ := h
  exact ⟨m, hm, hmid, fun f hf => hnonce ▸ hfills f hf⟩

/-- **A step that meets its condition leads to a sound phase.** -/
theorem step_sound (hs : Inv s) (hmeets : a.Meets s) (h : Step marketIds s a t) : t.Sound t.phase := by
  have hlive := step_live_subset hs.indexed.jobs h
  have hstep := h
  cases h with
  | reserve hp hknown =>
    refine fun f hf => ⟨fun x hx hi => ?_, persist_unlinked hmeets hf⟩
    exact absurd (hs.backed x (hlive rfl hx) _ hi) (hmeets f hf)
  | abort hp => exact fun f hf => (hs.sound_of hp f hf).1.mono (hlive rfl)
  | sign hp hid =>
    refine ⟨⟨_, List.mem_append_right _ (List.mem_singleton_self _), rfl, rfl, Or.inl rfl⟩, fun f hf => ⟨?_, ?_⟩⟩
    · intro x hx hi
      rcases step_live hs.indexed.jobs hstep hx with hold | ⟨hnew, -⟩
      · exact absurd hi ((hs.sound_of hp f hf).1 x hold)
      · obtain ⟨-, j, hj, rfl, -⟩ := hx
        rcases List.mem_append.1 hj with hj | hj
        · exact absurd (List.mem_map.2 ⟨j, hj, rfl⟩) hnew
        · rw [List.mem_singleton.1 hj]
          rfl
    · exact (hs.sound_of hp f hf).2
  | accepted hp =>
    obtain ⟨⟨k, hk, hid, hdata, -⟩, hfills⟩ := hs.sound_of hp
    refine ⟨⟨_, mem_restatus.2 ⟨k, hk, rfl⟩, hid, hdata, ?_⟩, fun f hf => (hfills f hf).1.mono (hlive map_id_restatus)⟩
    simp only [if_pos hid]
    decide
  | nonceTooLow hj hp hlow =>
    have hfills := (hs.sound_of hp).2
    have hclear : ∀ f ∈ _, _ := fun f hf => ((hfills f hf).1.heldAt hs.indexed hj).clear hlow
    exact sound_retried fun f hf => ⟨(hclear f hf).mono (hlive map_id_restatus), (hfills f hf).2⟩
  | refused hp =>
    intro f hf x hx hi
    have hid := ((hs.sound_of hp).2 f hf).1 x (hlive map_id_restatus hx) hi
    obtain ⟨-, k, hk, rfl, hstanding⟩ := hx
    have hfailed : k.status = .failed := by
      obtain ⟨l, -, rfl⟩ := mem_restatus.1 hk
      exact if_pos hid
    exact refused_gone hmeets hp rfl rfl hid hfailed hstanding
  | release hp => trivial
  | link hp =>
    obtain ⟨⟨k, hk, hid, -, -⟩, hfills⟩ := hs.sound_of hp
    exact ⟨k, hk, hid, fun f hf => (Shard.HeldBy.heldAt hs.indexed hk (hid ▸ hfills f hf)).mono (hlive rfl)⟩
  | @found w c k j ok hp hk hc hj hn hr =>
    obtain ⟨k', hk', hid, hfills⟩ := hs.sound_of hp
    have hkk : k' = k := hs.indexed.job_eq hk' hk (hid.trans hc.symm)
    cases w with
    | recover todo => trivial
    | settle fills =>
      cases ok with
      | true => trivial
      | false =>
        have hgone : k'.nonce < s.mined := hkk ▸ hn ▸ hs.gone hj hr
        exact fun f hf => ((hfills f hf).clear hgone).mono (hlive map_id_restatus)
  | @timeout w => cases w <;> trivial
  | @taken w => cases w <;> trivial
  | @throw w => cases w <;> trivial
  | @bumpRefused w => cases w <;> trivial
  | replace hp hk hc hid =>
    obtain ⟨k', hk', hid', hfills⟩ := hs.sound_of hp
    have hkk := hs.indexed.job_eq hk' hk (hid'.trans hc.symm)
    refine ⟨_, _, ⟨List.mem_append_left _ hk, List.mem_append_right _ (List.mem_singleton_self _), hc, rfl, rfl, rfl, ?_,
      Or.inl rfl⟩, fun f hf => step_heldAt hs.indexed hstep ?_ (hkk ▸ hfills f hf)⟩
    · exact fun heq => hid (heq ▸ List.mem_map.2 ⟨_, hk, hc⟩)
    · intro fills attempt hres
      rw [hp] at hres
      cases hres
  | supersede hp =>
    obtain ⟨k, m, ⟨hk, hm, hkid, hmid, hnonce, hdata, hne, hpending⟩, hfills⟩ := hs.sound_of hp
    refine ⟨_, _, ⟨mem_restatus.2 ⟨k, hk, rfl⟩, mem_restatus.2 ⟨m, hm, rfl⟩, hkid, hmid, hnonce, hdata, hne, ?_⟩,
      Or.inl (if_pos hkid), fun f hf => (hfills f hf).mono (hlive map_id_restatus)⟩
    refine hpending.imp_left fun hopen => ?_
    simp only [if_neg (fun heq : m.id = _ => hne (heq.symm.trans hmid))]
    exact hopen
  | bumped hp =>
    obtain ⟨m, hm, hid, hfills⟩ := sound_resent (hs.sound_of hp)
    exact ⟨_, mem_restatus.2 ⟨m, hm, rfl⟩, hid, fun f hf => (hfills f hf).mono (hlive map_id_restatus)⟩
  | bumpTooLow hj hp hlow =>
    obtain ⟨m, hm, hid, hfills⟩ := sound_resent (hs.sound_of hp)
    exact ⟨_, mem_restatus.2 ⟨m, hm, rfl⟩, hid, fun f hf => (hfills f hf).mono (hlive map_id_restatus)⟩
  | underpriced hp =>
    obtain ⟨m, hm, hid, hfills⟩ := sound_resent (hs.sound_of hp)
    exact ⟨_, mem_restatus.2 ⟨m, hm, rfl⟩, hid, fun f hf => (hfills f hf).mono (hlive map_id_restatus)⟩
  | crash => trivial
  | restart hp => trivial
  | resume hp =>
    obtain ⟨k, hk, hid⟩ := List.mem_map.1 (hs.watched _ (by rw [hp]; exact List.mem_cons_self))
    exact ⟨k, hk, hid, fun f hf => absurd hf List.not_mem_nil⟩
  | query hp =>
    exact ⟨fun r hr hjob => (linked_orphan_clear hs hr hjob).mono (hlive rfl), fun _ hi => absurd hi List.not_mem_nil⟩
  | @read r rows release hp =>
    obtain ⟨hrows, hrelease⟩ := hs.sound_of hp
    refine ⟨fun r' hr' hjob => (hrows r' (List.mem_cons_of_mem _ hr') hjob).mono (hlive rfl), fun i hi => ?_⟩
    refine Shard.Clear.mono (hlive rfl) ?_
    split_ifs at hi with hun
    · rcases List.mem_append.1 hi with hi | hi
      · exact hrelease i hi
      · rw [List.mem_singleton.1 hi]
        by_cases hjob : r.txJobId = none
        · exact unlinked_orphan_clear hs (hmeets r rows release hp hjob hun)
        · exact hrows r List.mem_cons_self hjob
    · exact hrelease i hi
  | finish hp => trivial
  | rebroadcast | resend | mine | foreign => exact (drift_same hs hstep rfl rfl (Kept.refl _)).sound hs.sound
  | upkeep hup => exact (drift_same hs hstep rfl (upkeep_jobs hup) (upkeep_kept hup)).sound hs.sound
  | close hj hopen hstatus =>
    rcases hstatus with ⟨rfl, hr⟩ | ⟨rfl, hr⟩ | ⟨rfl, hgone⟩
    · exact (drift_close hs hstep hj hopen rfl (hs.gone hj hr)).sound hs.sound
    · exact (drift_close hs hstep hj hopen rfl (hs.gone hj hr)).sound hs.sound
    · exact (drift_close hs hstep hj hopen rfl hgone).sound hs.sound

/-! ## Runs -/

/-- **A step that meets its condition keeps the invariant.** -/
theorem step_inv (hs : Inv s) (hmeets : a.Meets s) (h : Step marketIds s a t) : Inv t where
  indexed := step_indexed hs.indexed h
  watched := step_known hs h
  receipts := step_receipts hs h
  closed := step_closed hs h
  failed := step_failed hs hmeets h
  backed := step_backed hs h
  linked := step_linked hs h
  sound := step_sound hs hmeets h

theorem initial_inv (h : s.Initial) : Inv s := by
  obtain ⟨hphase, hfills, hjobs, -, hreceipts⟩ := h
  have hlive : ∀ x, x ∉ s.live := by
    rintro x ⟨-, j, hj, -⟩
    rw [hjobs] at hj
    exact List.not_mem_nil hj
  refine ⟨⟨?_, ?_⟩, ?_, ?_, ?_, ?_, fun x hx => absurd hx (hlive x), ?_, ?_⟩
  · rw [hfills]
    exact List.nodup_nil
  · rw [hjobs]
    exact List.nodup_nil
  · rw [hphase]
    exact fun _ hid => absurd hid List.not_mem_nil
  · rw [hreceipts]
    exact fun _ _ hr => absurd hr List.not_mem_nil
  · rw [hjobs]
    exact fun _ hj => absurd hj List.not_mem_nil
  · rw [hjobs]
    exact fun _ hj => absurd hj List.not_mem_nil
  · rw [hfills]
    exact fun _ hr => absurd hr List.not_mem_nil
  · rw [hphase]
    trivial

/-- The runs whose steps meet their condition. -/
def careful (marketIds : List MarketId) : Machine Shard Act := (machine marketIds).restrict fun s a => a.Meets s

theorem reachable_inv (h : Transition.Reachable (careful marketIds) s) : Inv s :=
  h.invariant Inv (fun _ h => initial_inv h) fun s l t _ hs (h : l.Meets s ∧ Step marketIds s l t) =>
    step_inv hs h.1 h.2

end Kryon.Matcher
