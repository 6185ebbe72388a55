import Kryon.FillIds
import Kryon.ShardInv
/-!
# Release — when a released fill can no longer be settled by its old batch

Rows are released when `submit` throws, when a batch reverted and when a scan finds orphans.  The release is safe as long as
the node does not keep a transaction it answered with an error, the nonces of an unlinked orphan's jobs are gone, and
reservations are of new rows (`release_safe`).
-/
namespace Kryon.Matcher

open Transition (Run Machine)

variable {marketIds : List MarketId} {s t : Shard} {a : Act} {j : TxJob} {x : SignedTx} {i : Bytes32}

/-- The rows of the fill are gone after the step. -/
def Deleted (s t : Shard) (i : Bytes32) : Prop := i ∈ s.db.fills.map (·.fillId) ∧ i ∉ t.db.fills.map (·.fillId)

instance : Decidable (Deleted s t i) := inferInstanceAs (Decidable (_ ∧ _))

/-- **What is deleted is clear**, and no batch is about to be signed. -/
theorem deleted_clear (hs : Inv s) (h : Step marketIds s a t) (hi : Deleted s t i) : t.Clear i ∧ t.phase = .idle := by
  obtain ⟨hold, hnew⟩ := hi
  rcases step_rows hs.indexed h with hkept | ⟨fills, createdAt, -, -, hrows⟩ | ⟨fills, id, -, -, hrows⟩ |
    ⟨ids, hp, hphase, hrows⟩
  · exact absurd (hkept.ids i hold) hnew
  · obtain ⟨r, hr, rfl⟩ := List.mem_map.1 hold
    exact absurd (List.mem_map.2 ⟨r, hrows ▸ (persist_rows createdAt fills s.db.fills).1 r hr, rfl⟩) hnew
  · obtain ⟨r, hr, rfl⟩ := List.mem_map.1 hold
    refine absurd ?_ hnew
    rw [hrows]
    refine List.mem_map.2 ⟨_, List.mem_map.2 ⟨r, hr, rfl⟩, ?_⟩
    split_ifs <;> rfl
  · refine ⟨step_clear hs.indexed h (fun fills attempt hres => absurd hres (hp.not_reserved fills attempt)) ?_, hphase⟩
    refine hs.released hp i ?_
    by_contra hout
    obtain ⟨r, hr, rfl⟩ := List.mem_map.1 hold
    refine hnew (List.mem_map.2 ⟨r, hrows ▸ List.mem_filter.2 ⟨hr, ?_⟩, rfl⟩)
    rw [Bool.not_eq_true', decide_eq_false_iff_not]
    exact fun hcond => hout hcond.1

theorem mine_live {id : JobId} {ok : Bool} {settled : List PlannedFill} (hindexed : Indexed s.db)
    (h : Step marketIds s (.mine id ok settled) t) (hj : j ∈ s.db.jobs) (hid : j.id = id) : j.tx ∈ s.live := by
  cases h with
  | mine hk hsent hn hok =>
    obtain rfl := hindexed.job_eq hj hk hid
    exact ⟨hn.ge, j, hj, rfl, Or.inl hsent⟩

theorem run_dead {as : List Act} (h : Run (machine marketIds) s as t) (hindexed : Indexed s.db) (hj : j ∈ s.db.jobs) :
    Indexed t.db ∧ (∃ k ∈ t.db.jobs, k.tx = j.tx) ∧ (j.tx ∉ s.live → j.tx ∉ t.live) := by
  refine h.preserves (fun u => Indexed u.db ∧ (∃ k ∈ u.db.jobs, k.tx = j.tx) ∧ (j.tx ∉ s.live → j.tx ∉ u.live)) ?_
    ⟨hindexed, ⟨j, hj, rfl⟩, fun hdead => hdead⟩
  rintro u l v ⟨hindexed, ⟨k, hk, htx⟩, hdead⟩ (hstep : Step marketIds u l v)
  obtain ⟨k', hk', htx'⟩ := step_tx hstep hk
  refine ⟨step_indexed hindexed hstep, ⟨k', hk', htx'.trans htx⟩, fun hold hx => ?_⟩
  rcases step_live hindexed.jobs hstep hx with hx | ⟨hnew, -⟩
  · exact hdead hold hx
  · exact hnew (List.mem_map.2 ⟨k, hk, congrArg SignedTx.id htx⟩)

/-- The batch that is not signed yet, or may be signed again. -/
def Phase.unsigned : Phase → List PlannedFill
  | .reserved fills _ | .sending fills _ _ => fills
  | .down | .idle | .failing _ | .submitted .. | .awaiting .. | .replacing .. | .resending .. | .reverted _
  | .recovering _ | .scanning .. => []

theorem step_unsigned (h : Step marketIds s a t) (ha : ∀ fills createdAt, a = .reserve fills createdAt →
    i ∉ fills.map (·.fillId)) (hs : i ∉ s.phase.unsigned.map (·.fillId)) : i ∉ t.phase.unsigned.map (·.fillId) := by
  cases h with
  | reserve => exact ha _ _ rfl
  | sign hp =>
    rw [hp] at hs
    exact hs
  | nonceTooLow hj hp =>
    rw [hp] at hs
    simp only [retried]
    split_ifs
    · exact hs
    · exact List.not_mem_nil
  | rebroadcast | resend | mine | foreign | close | upkeep => exact hs
  | abort | accepted | refused | release | link | replace | supersede | bumped | bumpTooLow | underpriced | crash | restart
  | resume | query | read | finish => exact List.not_mem_nil
  | @found w c k j ok =>
    cases w with
    | settle fills => cases ok <;> exact List.not_mem_nil
    | recover todo => exact List.not_mem_nil
  | @timeout w => cases w <;> exact List.not_mem_nil
  | @taken w => cases w <;> exact List.not_mem_nil
  | @throw w => cases w <;> exact List.not_mem_nil
  | @bumpRefused w => cases w <;> exact List.not_mem_nil

theorem run_clear {as : List Act} (h : Run (machine marketIds) s as t) (hindexed : Indexed s.db) (hs : s.Clear i)
    (hunsigned : i ∉ s.phase.unsigned.map (·.fillId))
    (has : ∀ fills createdAt, .reserve fills createdAt ∈ as → i ∉ fills.map (·.fillId)) : t.Clear i := by
  refine (h.preserves_on (fun u => Indexed u.db ∧ u.Clear i ∧ i ∉ u.phase.unsigned.map (·.fillId))
    (fun l => ∀ fills createdAt, l = .reserve fills createdAt → i ∉ fills.map (·.fillId)) ?_ ?_
    ⟨hindexed, hs, hunsigned⟩).2.1
  · rintro u l v hl ⟨hindexed, hs, hunsigned⟩ (hstep : Step marketIds u l v)
    refine ⟨step_indexed hindexed hstep, step_clear hindexed hstep (fun fills attempt hp => ?_) hs,
      step_unsigned hstep hl hunsigned⟩
    rw [hp] at hunsigned
    exact hunsigned
  · exact fun l hl fills createdAt heq => has fills createdAt (heq ▸ hl)

/-- **A released fill is not settled by its old batch.**  In every run whose steps meet their condition, once the row of a
fill is deleted no transaction that carries it is mined in any continuation, with whatever the node and the process do
then: none that was signed before, and none at all before the fill is reserved again. -/
theorem release_safe (marketIds : List MarketId) (s t : Shard) (a : Act) (i : Bytes32)
    (hs : Transition.Reachable (careful marketIds) s) (h : (careful marketIds).step s a t) (hi : Deleted s t i) :
    ∀ as u, Run (machine marketIds) t as u → ∀ j ∈ u.db.jobs, j.carries i →
      (j.id ∈ t.db.jobs.map (·.id) ∨ ∀ fills createdAt, .reserve fills createdAt ∈ as → i ∉ fills.map (·.fillId)) →
        ∀ ok settled v, ¬ Step marketIds u (.mine j.id ok settled) v := by
  intro as u hrun j hj hcarries hcase ok settled v hmine
  have hinv := reachable_inv hs
  have hindexed := step_indexed hinv.indexed h.2
  obtain ⟨hclear, hphase⟩ := deleted_clear hinv h.2 hi
  rcases hcase with hold | hnew
  · obtain ⟨k, hk, hid⟩ := List.mem_map.1 hold
    obtain ⟨hindexed', ⟨k', hk', htx⟩, hdead⟩ := run_dead hrun hindexed hk
    have hjk : k' = j := hindexed'.job_eq hk' hj ((congrArg SignedTx.id htx).trans hid)
    rw [hjk] at htx
    have hgone : k.tx ∉ t.live := fun hx => hclear k.tx hx (htx ▸ hcarries)
    exact hdead hgone (htx ▸ mine_live hindexed' hmine hj rfl)
  · have hunsigned : i ∉ t.phase.unsigned.map (·.fillId) := by
      rw [hphase]
      exact List.not_mem_nil
    have hindexed' : Indexed u.db := hrun.preserves (fun u => Indexed u.db) (fun _ _ _ hx hl => step_indexed hx hl) hindexed
    exact run_clear hrun hindexed hclear hunsigned hnew j.tx (mine_live hindexed' hmine hj rfl) hcarries

namespace Sample

/-- A shard before its first start, with the two orders on file. -/
def stopped : Shard := ⟨listed, .down, [], 0, [], fun _ _ => 0⟩

/-- Its fill is reserved, and its first transaction is on its way to the node. -/
def sending : Shard where
  db := { listed with fills := [pendingRow (closed 0) 0], jobs := [⟨0, 0, [closed 0], .pending⟩] }
  phase := .sending [closed 0] 0 0
  sent := []
  mined := 0
  receipts := []
  filled := fun _ _ => 0

/-- The node answered with an error. -/
def refused (kept : Bool) : Shard :=
  { sending.putJobs (setStatus 0 .failed sending.db.jobs) with
    phase := .failing [closed 0]
    sent := if kept = true then 0 :: sending.sent else sending.sent }

/-- The fill is released. -/
def released (kept : Bool) : Shard :=
  { refused kept with
    phase := .idle
    db := releasePendingFills (refused kept).db ([closed 0].map (·.fillId)) }

/-- The first transaction is mined, and settles the fill. -/
def resettled (kept : Bool) : Shard :=
  { released kept with mined := 1, receipts := [(0, true)], filled := settleFilled (fun _ _ => 0) [closed 0] }

theorem sending_reachable : Transition.Reachable (careful [1]) sending := by
  have hrestart : (careful [1]).step stopped .restart { stopped with phase := .recovering [] } := ⟨trivial, .restart rfl⟩
  have hquery : (careful [1]).step { stopped with phase := .recovering [] } (.query 0)
      { stopped with phase := .scanning [] [] } := ⟨trivial, .query rfl⟩
  have hfinish : (careful [1]).step { stopped with phase := .scanning [] [] } .finish { stopped with phase := .idle } :=
    ⟨trivial, .finish rfl⟩
  have hreserve : (careful [1]).step { stopped with phase := .idle } (.reserve [closed 0] 0)
      { stopped with phase := .reserved [closed 0] 0, db := { listed with fills := [pendingRow (closed 0) 0] } } :=
    ⟨fun _ _ => List.not_mem_nil, .reserve rfl (by decide +kernel)⟩
  have hsign : (careful [1]).step
      { stopped with phase := .reserved [closed 0] 0, db := { listed with fills := [pendingRow (closed 0) 0] } }
      (.sign 0 0) sending := ⟨trivial, .sign rfl List.not_mem_nil⟩
  exact ⟨stopped, _, ⟨rfl, rfl, rfl, rfl, rfl⟩,
    ((((Run.nil.snoc hrestart).snoc hquery).snoc hfinish).snoc hreserve).snoc hsign⟩

theorem refused_step (kept : Bool) : Step [1] sending (.refused kept) (refused kept) := .refused rfl

theorem release_step (kept : Bool) : Step [1] (refused kept) .release (released kept) := .release (Or.inl rfl)

theorem released_deleted (kept : Bool) : Deleted (refused kept) (released kept) (closed 0).fillId :=
  by
  cases kept <;> decide +kernel

end Sample

/-- The node refused the transaction for good: it is not mined after the release. -/
theorem release_safe_refused : ¬ Step [1] (Sample.released false) (.mine 0 true [Sample.closed 0]) (Sample.resettled false) := by
  have hrefused : (careful [1]).step Sample.sending (.refused false) (Sample.refused false) :=
    ⟨⟨rfl, fun _ _ _ _ => List.not_mem_nil⟩, Sample.refused_step false⟩
  exact release_safe [1] (Sample.refused false) (Sample.released false) .release (Sample.closed 0).fillId
    (Sample.sending_reachable.step hrefused) ⟨trivial, Sample.release_step false⟩ (Sample.released_deleted false)
    [] (Sample.released false) Run.nil ⟨0, 0, [Sample.closed 0], .failed⟩ (List.mem_singleton_self _)
    (List.mem_singleton_self _) (Or.inl (List.mem_singleton_self _)) true [Sample.closed 0] (Sample.resettled false)

/-- The node keeps a transaction whose reply was lost: the fill is released, and settled by it afterwards. -/
theorem release_resettles : ¬ ∀ (marketIds : List MarketId) (s t : Shard) (a : Act) (i : Bytes32),
    Transition.Reachable (machine marketIds) s → Step marketIds s a t → Deleted s t i →
      ∀ as u, Run (machine marketIds) t as u → ∀ j ∈ u.db.jobs, j.carries i → j.id ∈ t.db.jobs.map (·.id) →
        ∀ settled v, ¬ Step marketIds u (.mine j.id true settled) v := by
  intro hclaim
  obtain ⟨start, as, hstart, hrun⟩ := Sample.sending_reachable
  have hrefused : (machine [1]).step Sample.sending (.refused true) (Sample.refused true) := Sample.refused_step true
  refine hclaim [1] (Sample.refused true) (Sample.released true) .release (Sample.closed 0).fillId
    ⟨start, _, hstart, hrun.of_restrict.snoc hrefused⟩ (Sample.release_step true) (Sample.released_deleted true)
    [] (Sample.released true) Run.nil ⟨0, 0, [Sample.closed 0], .failed⟩ (List.mem_singleton_self _)
    (List.mem_singleton_self _) (List.mem_singleton_self _) [Sample.closed 0] (Sample.resettled true) ?_
  exact Step.mine (j := ⟨0, 0, [Sample.closed 0], .failed⟩) (List.mem_singleton_self _) (List.mem_singleton_self _) rfl
    (List.Sublist.refl _)

end Kryon.Matcher
