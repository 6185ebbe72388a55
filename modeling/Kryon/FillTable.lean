import Kryon.LiveTxs
/-!
# FillTable — what the steps of a shard do to its fill rows

A step reserves a batch, links one to its job or releases rows; every other step keeps the rows, and what a PENDING one is
of (`step_rows`).  Fill ids and job ids stay distinct, and PENDING fills are of the shard's markets, with their maker on file
(`step_filed`).
-/
namespace Kryon.Matcher

variable {marketIds : List MarketId} {s t : Shard} {a : Act} {db db' : Db} {rows rows' : List FillRow}

/-! ## Rows that stay -/

/-- Every row stays, and a PENDING one was PENDING before, of the same fill and the same job. -/
structure Kept (rows rows' : List FillRow) : Prop where
  ids : ∀ i ∈ rows.map (·.fillId), i ∈ rows'.map (·.fillId)
  pending : ∀ r' ∈ rows', r'.status = .pending → ∃ r ∈ rows, r.status = .pending ∧ r.fillId = r'.fillId ∧
    r.txJobId = r'.txJobId ∧ r.marketId = r'.marketId ∧ r.makerOrderHash = r'.makerOrderHash

theorem Kept.refl (rows : List FillRow) : Kept rows rows :=
  ⟨fun _ hi => hi, fun r' hr' hp => ⟨r', hr', hp, rfl, rfl, rfl, rfl⟩⟩

theorem Kept.of_eq (h : rows' = rows) : Kept rows rows' := h ▸ Kept.refl rows

theorem Kept.map {g : FillRow → FillRow} (hid : ∀ r ∈ rows, (g r).fillId = r.fillId)
    (hp : ∀ r ∈ rows, (g r).status = .pending → r.status = .pending ∧ r.txJobId = (g r).txJobId ∧
      r.marketId = (g r).marketId ∧ r.makerOrderHash = (g r).makerOrderHash) : Kept rows (rows.map g) where
  ids := by
    rw [List.map_map]
    exact fun i hi => (List.map_congr_left fun r hr => hid r hr : rows.map _ = rows.map (·.fillId)) ▸ hi
  pending := by
    intro r' hr' hpending
    obtain ⟨r, hr, rfl⟩ := List.mem_map.1 hr'
    obtain ⟨hstatus, hjob, hmarket, hmaker⟩ := hp r hr hpending
    exact ⟨r, hr, hstatus, (hid r hr).symm, hjob, hmarket, hmaker⟩

theorem Kept.append {r : FillRow} (hr : r.status ≠ .pending) : Kept rows (rows ++ [r]) where
  ids i hi := by
    rw [List.map_append]
    exact List.mem_append_left _ hi
  pending := by
    intro r' hr' hp
    rcases List.mem_append.1 hr' with hr' | hr'
    · exact (Kept.refl rows).pending r' hr' hp
    · exact absurd (List.mem_singleton.1 hr' ▸ hp) hr

theorem upsert_kept (createdAt : Int) (e : SettledFill) : Kept rows (upsertSettled createdAt e rows) := by
  unfold upsertSettled
  split_ifs with h
  · refine Kept.map (fun r _ => ?_) fun r _ hp => ?_
    · split_ifs with hid
      · exact hid.symm
      · rfl
    · split_ifs at hp ⊢
      · cases hp
      · exact ⟨hp, rfl, rfl, rfl⟩
  · exact Kept.append fun h => absurd h (by decide : FillStatus.settled ≠ .pending)

theorem insertOrder_fills (o : OrderRow) : (insertOrder db o).fills = db.fills := by
  unfold insertOrder
  split_ifs <;> rfl

theorem upkeep_kept (h : Upkeep db db') : Kept db.fills db'.fills := by
  cases h with
  | recordRejection fillId reason =>
    refine Kept.map (fun r _ => ?_) fun r _ hp => ?_
    · split_ifs <;> rfl
    · split_ifs at hp ⊢
      · exact ⟨hp, rfl, rfl, rfl⟩
      · exact ⟨hp, rfl, rfl, rfl⟩
  | fillSettled createdAt e => exact upsert_kept createdAt e
  | fillRejected fillId reason =>
    refine Kept.map (fun r _ => ?_) fun r _ hp => ?_
    · split_ifs <;> rfl
    · split_ifs at hp ⊢
      exact ⟨hp, rfl, rfl, rfl⟩
  | insertOrder o => exact Kept.of_eq (insertOrder_fills o)
  | retireOrder | orderCancelled | noncesCancelledUpTo | positions => exact Kept.refl _

/-! ## Distinct ids -/

/-- The primary keys: fills by their id, jobs by theirs. -/
structure Indexed (db : Db) : Prop where
  fills : (db.fills.map (·.fillId)).Nodup
  jobs : (db.jobs.map (·.id)).Nodup

theorem Indexed.job_eq (h : Indexed db) {j k : TxJob} (hj : j ∈ db.jobs) (hk : k ∈ db.jobs)
    (hid : j.id = k.id) : j = k :=
  List.inj_on_of_nodup_map h.jobs hj hk hid

theorem nodup_append_new {i : Bytes32} (h : (rows.map (·.fillId)).Nodup) {r : FillRow} (hr : r.fillId = i)
    (hnew : i ∉ rows.map (·.fillId)) : ((rows ++ [r]).map (·.fillId)).Nodup := by
  rw [List.map_append, List.nodup_append]
  refine ⟨h, List.nodup_singleton _, fun x hx y hy hxy => hnew ?_⟩
  rw [List.map_singleton, List.mem_singleton, hr] at hy
  exact hy ▸ hxy ▸ hx

theorem nodup_map {g : FillRow → FillRow} (h : (rows.map (·.fillId)).Nodup) (hg : ∀ r ∈ rows, (g r).fillId = r.fillId) :
    ((rows.map g).map (·.fillId)).Nodup := by
  have hsame : (rows.map g).map (·.fillId) = rows.map (·.fillId) := by
    rw [List.map_map]
    exact List.map_congr_left hg
  exact hsame ▸ h

theorem upsert_nodup (createdAt : Int) (e : SettledFill) (h : (rows.map (·.fillId)).Nodup) :
    ((upsertSettled createdAt e rows).map (·.fillId)).Nodup := by
  unfold upsertSettled
  split_ifs with hthere
  · refine nodup_map h fun r _ => ?_
    split_ifs with hid
    · exact hid.symm
    · rfl
  · exact nodup_append_new h rfl hthere

theorem upkeep_nodup (h : Upkeep db db') (hdb : (db.fills.map (·.fillId)).Nodup) : (db'.fills.map (·.fillId)).Nodup := by
  cases h with
  | recordRejection fillId reason =>
    refine nodup_map hdb fun r _ => ?_
    split_ifs <;> rfl
  | fillSettled createdAt e => exact upsert_nodup createdAt e hdb
  | fillRejected fillId reason =>
    refine nodup_map hdb fun r _ => ?_
    split_ifs <;> rfl
  | insertOrder o =>
    rw [insertOrder_fills]
    exact hdb
  | retireOrder | orderCancelled | noncesCancelledUpTo | positions => exact hdb

/-- **A reservation adds the rows of the fills that are not there**, and keeps the rows that are. -/
theorem persist_rows (createdAt : Int) : ∀ (fills : List PlannedFill) (rows : List FillRow),
    (∀ r ∈ rows, r ∈ fills.foldl (insertPending createdAt) rows) ∧
    (∀ f ∈ fills, f.fillId ∈ (fills.foldl (insertPending createdAt) rows).map (·.fillId)) ∧
    (∀ r ∈ fills.foldl (insertPending createdAt) rows, r ∈ rows ∨ ∃ f ∈ fills, r = pendingRow f createdAt) ∧
    ((rows.map (·.fillId)).Nodup → ((fills.foldl (insertPending createdAt) rows).map (·.fillId)).Nodup)
  | [], rows => ⟨fun _ hr => hr, fun _ hf => absurd hf List.not_mem_nil, fun _ hr => Or.inl hr, fun h => h⟩
  | f :: fills, rows => by
    obtain ⟨hkept, hin, hfrom, hnodup⟩ := persist_rows createdAt fills (insertPending createdAt rows f)
    have hold : ∀ r ∈ rows, r ∈ insertPending createdAt rows f := by
      intro r hr
      unfold insertPending
      split_ifs
      · exact hr
      · exact List.mem_append_left _ hr
    have hf : f.fillId ∈ (insertPending createdAt rows f).map (·.fillId) := by
      unfold insertPending
      split_ifs with hthere
      · exact hthere
      · exact List.mem_map.2 ⟨_, List.mem_append_right _ (List.mem_singleton_self _), rfl⟩
    have hone : ∀ r ∈ insertPending createdAt rows f, r ∈ rows ∨ r = pendingRow f createdAt := by
      intro r hr
      unfold insertPending at hr
      split_ifs at hr
      · exact Or.inl hr
      · exact (List.mem_append.1 hr).imp_right List.mem_singleton.1
    refine ⟨fun r hr => hkept r (hold r hr), fun f' hf' => ?_, fun r hr => ?_, fun h => hnodup ?_⟩
    · rcases List.mem_cons.1 hf' with rfl | hf'
      · obtain ⟨r, hr, hid⟩ := List.mem_map.1 hf
        exact List.mem_map.2 ⟨r, hkept r hr, hid⟩
      · exact hin f' hf'
    · rcases hfrom r hr with hr | ⟨f', hf', hr⟩
      · exact (hone r hr).imp_right fun hr => ⟨f, List.mem_cons_self, hr⟩
      · exact Or.inr ⟨f', List.mem_cons_of_mem _ hf', hr⟩
    · unfold insertPending
      split_ifs with hthere
      · exact h
      · exact nodup_append_new h rfl hthere

/-! ## The rows of a step -/

theorem relink_kept (hindexed : Indexed db) (id : JobId) :
    Kept db.fills (linkFillsToJob db ((fillsForJob db id).map (·.fillId)) id).fills := by
  refine Kept.map (fun r _ => ?_) fun r hr hp => ?_
  · split_ifs <;> rfl
  · split_ifs at hp ⊢ with hin
    · obtain ⟨r', hr', hid⟩ := List.mem_map.1 hin.1
      obtain ⟨hmem, hjob⟩ := List.mem_filter.1 hr'
      rw [decide_eq_true_eq] at hjob
      have hsame : r' = r := List.inj_on_of_nodup_map hindexed.fills hmem hr hid
      exact ⟨hp, hsame ▸ hjob.1, rfl, rfl⟩
    · exact ⟨hp, rfl, rfl, rfl⟩

/-- Where rows are released: a batch that failed or reverted, or the orphans of a scan. -/
def Releases (p : Phase) (fillIds : List Bytes32) : Prop :=
  (∃ fills : List PlannedFill, fillIds = fills.map (·.fillId) ∧ (p = .failing fills ∨ p = .reverted fills)) ∨
    p = .scanning [] fillIds

/-- **The rows of a step.** -/
theorem step_rows (hindexed : Indexed s.db) (h : Step marketIds s a t) : Kept s.db.fills t.db.fills ∨
    (∃ fills createdAt, a = .reserve fills createdAt ∧ t.phase = .reserved fills 0 ∧
      t.db.fills = fills.foldl (insertPending createdAt) s.db.fills) ∨
    (∃ fills id, s.phase = .submitted fills id ∧ t.phase = .awaiting (.settle fills) id ∧
      t.db.fills = (linkFillsToJob s.db (fills.map (·.fillId)) id).fills) ∨
    ∃ fillIds, Releases s.phase fillIds ∧ t.phase = .idle ∧ t.db.fills = (releasePendingFills s.db fillIds).fills := by
  cases h with
  | reserve hp hknown => exact Or.inr (Or.inl ⟨_, _, rfl, rfl, rfl⟩)
  | link hp => exact Or.inr (Or.inr (Or.inl ⟨_, _, hp, rfl, rfl⟩))
  | release hp => exact Or.inr (Or.inr (Or.inr ⟨_, Or.inl ⟨_, rfl, hp⟩, rfl, rfl⟩))
  | finish hp => exact Or.inr (Or.inr (Or.inr ⟨_, Or.inr hp, rfl, rfl⟩))
  | resume hp => exact Or.inl (relink_kept hindexed _)
  | upkeep h => exact Or.inl (upkeep_kept h)
  | abort | sign | accepted | nonceTooLow | refused | found | timeout | taken | throw | rebroadcast | replace | supersede
  | bumped | bumpTooLow | underpriced | bumpRefused | crash | restart | query | read | resend | mine | foreign | close =>
    exact Or.inl (Kept.refl _)

theorem link_nodup (ids : List Bytes32) (id : JobId) (h : (db.fills.map (·.fillId)).Nodup) :
    ((linkFillsToJob db ids id).fills.map (·.fillId)).Nodup := by
  refine nodup_map h fun r _ => ?_
  split_ifs <;> rfl

theorem step_indexed (hindexed : Indexed s.db) (h : Step marketIds s a t) : Indexed t.db where
  fills := by
    cases h with
    | reserve hp hknown => exact (persist_rows _ _ _).2.2.2 hindexed.fills
    | link hp => exact link_nodup _ _ hindexed.fills
    | resume hp => exact link_nodup _ _ hindexed.fills
    | release hp => exact (List.filter_sublist.map _).nodup hindexed.fills
    | finish hp => exact (List.filter_sublist.map _).nodup hindexed.fills
    | upkeep h => exact upkeep_nodup h hindexed.fills
    | abort | sign | accepted | nonceTooLow | refused | found | timeout | taken | throw | rebroadcast | replace | supersede
    | bumped | bumpTooLow | underpriced | bumpRefused | crash | restart | query | read | resend | mine | foreign | close =>
      exact hindexed.fills
  jobs := by
    rcases step_jobs h with ⟨g, hjobs⟩ | ⟨j, hjobs, hnew, -⟩
    · rw [hjobs, map_id_restatus]
      exact hindexed.jobs
    · rw [hjobs, List.map_append, List.nodup_append]
      refine ⟨hindexed.jobs, List.nodup_singleton _, fun x hx y hy hxy => hnew ?_⟩
      rw [List.map_singleton, List.mem_singleton] at hy
      exact hy ▸ hxy ▸ hx

/-! ## What PENDING fills are of -/

theorem loadSignedOrder_ne_none {h : Bytes32} : loadSignedOrder db h ≠ none ↔ h ∈ db.orders.map (·.orderHash) := by
  unfold loadSignedOrder
  rw [← Option.isSome_iff_ne_none, List.find?_isSome, List.mem_map]
  exact exists_congr fun o => and_congr_right fun _ => decide_eq_true_iff

/-- PENDING fills are of the shard's markets, with their maker on file. -/
def Filed (marketIds : List MarketId) (db : Db) : Prop :=
  ∀ r ∈ db.fills, r.status = .pending → r.marketId ∈ marketIds ∧ r.makerOrderHash ∈ db.orders.map (·.orderHash)

theorem upkeep_orders (h : Upkeep db db') : ∀ i ∈ db.orders.map (·.orderHash), i ∈ db'.orders.map (·.orderHash) := by
  have hmap : ∀ g : OrderRow → OrderRow, (∀ o, (g o).orderHash = o.orderHash) →
      ∀ i ∈ db.orders.map (·.orderHash), i ∈ (db.orders.map g).map (·.orderHash) := by
    intro g hg i hi
    rw [List.map_map]
    exact (List.map_congr_left fun o _ => hg o : db.orders.map _ = db.orders.map (·.orderHash)) ▸ hi
  cases h with
  | retireOrder orderHash status =>
    refine hmap _ fun o => ?_
    split_ifs <;> rfl
  | insertOrder o =>
    intro i hi
    unfold insertOrder
    split_ifs
    · exact hi
    · rw [List.map_append]
      exact List.mem_append_left _ hi
  | fillSettled createdAt e =>
    refine hmap _ fun o => ?_
    split_ifs <;> rfl
  | orderCancelled owner nonce =>
    refine hmap _ fun o => ?_
    split_ifs <;> rfl
  | noncesCancelledUpTo owner minNonce =>
    refine hmap _ fun o => ?_
    split_ifs <;> rfl
  | recordRejection | fillRejected | positions => exact fun i hi => hi

theorem step_orders (h : Step marketIds s a t) : ∀ i ∈ s.db.orders.map (·.orderHash), i ∈ t.db.orders.map (·.orderHash) := by
  cases h with
  | upkeep h => exact upkeep_orders h
  | _ => exact fun i hi => hi

theorem step_filed (hindexed : Indexed s.db) (hs : Filed marketIds s.db) (h : Step marketIds s a t) : Filed marketIds t.db := by
  have horders := step_orders h
  rcases step_rows hindexed h with hkept | ⟨fills, createdAt, rfl, -, hrows⟩ | ⟨fills, id, -, -, hrows⟩ | ⟨ids, -, -, hrows⟩
  · intro r' hr' hp
    obtain ⟨r, hr, hpending, -, -, hmarket, hmaker⟩ := hkept.pending r' hr' hp
    obtain ⟨hin, hfile⟩ := hs r hr hpending
    exact ⟨hmarket ▸ hin, hmaker ▸ horders _ hfile⟩
  · intro r' hr' hp
    rw [hrows] at hr'
    rcases (persist_rows createdAt fills s.db.fills).2.2.1 r' hr' with hr | ⟨f, hf, rfl⟩
    · exact (hs r' hr hp).imp_right (horders _)
    · cases h with
      | reserve _ hknown => exact ⟨(hknown f hf).1, horders _ (loadSignedOrder_ne_none.1 (hknown f hf).2.1)⟩
  · intro r' hr' hp
    rw [hrows] at hr'
    obtain ⟨r, hr, rfl⟩ := List.mem_map.1 hr'
    split_ifs at hp ⊢
    · exact (hs r hr hp).imp_right (horders _)
    · exact (hs r hr hp).imp_right (horders _)
  · intro r' hr' hp
    rw [hrows] at hr'
    exact (hs r' (List.mem_filter.1 hr').1 hp).imp_right (horders _)

end Kryon.Matcher
