import Kryon.PushPrices
/-!
# Snapshots — what a stored price says, over runs

A feed's snapshot changes only when a pushed entry's update is accepted (`Accepts`).  The accepted price is the median of
the fresh observations of a quorum of distinct current publishers who agree with it (`SafeUpdate`), and a snapshot's times
never go back.
-/
namespace Kryon

open Program Transition
open OracleAdapter
open Median (middle IsMedian)

variable {D : Deployment} {env : Env} {w w' : World} {msg : Msg} {s s' : OracleStorage} {now id publishTime : Nat}
  {l : Label} {ls : List Label} {e : Nat × Int × Int} {snap : OracleSnapshot}

/-- The current publishers whose last observation of a feed is fresh. -/
def freshPublishers (s : OracleStorage) (now id : Nat) : List Address :=
  s.publishers.filter fun p => let o := s.observations (id, p)
    ¬ (o.publishTime = 0 ∨ now - o.publishTime > (s.feeds id).maxAge)

/-- The prices the fresh publishers observed. -/
def freshPrices (s : OracleStorage) (now id : Nat) : List Int :=
  (freshPublishers s now id).map fun p => (s.observations (id, p)).price

/-- What an accepted snapshot satisfies, over the storage it was decided on. -/
structure SafeUpdate (now : Nat) (s : OracleStorage) (id : Nat) (snap : OracleSnapshot) : Prop where
  distinct : (freshPublishers s now id).Nodup
  current : ∀ p ∈ freshPublishers s now id, p ∈ s.publishers ∧ (s.observations (id, p)).publishTime ≠ 0 ∧
    now - (s.observations (id, p)).publishTime ≤ (s.feeds id).maxAge
  quorum : (s.feeds id).minPublishers ≤ (freshPublishers s now id).length
  median : IsMedian snap.price (freshPrices s now id)
  spread : ∀ p ∈ freshPrices s now id, |p - snap.price| ≤ bpsOf snap.price (s.feeds id).maxSpreadBps
  jump : (s.feeds id).maxJumpBps ≠ 0 → (s.snapshots id).source = .quorum →
    now - (s.snapshots id).writeTime ≤ (s.feeds id).maxAge →
    |snap.price - (s.snapshots id).price| ≤ bpsOf (s.snapshots id).price (s.feeds id).maxJumpBps
  majority : ∀ a b, (freshPrices s now id).length < 2 * (freshPrices s now id).countP (fun p => decide (a ≤ p ∧ p ≤ b)) →
    a ≤ snap.price ∧ snap.price ≤ b

/-- A step pushes an entry, and the aggregation of its feed accepts a snapshot. -/
structure Accepts (w : World) (l : Label) (publishTime : Nat) (e : Nat × Int × Int) (snap : OracleSnapshot) : Prop where
  pushed : ∃ ids prices confidences, l.call.tx = .config (.pushPrices ids prices confidences publishTime) ∧
    e ∈ pushEntries ids prices confidences
  accepted : assess w.timestamp l.call.msg (withObservation w.oracle l.call.msg.sender publishTime e) e.1
    (w.oracle.feeds e.1) = .ok (.updated snap)

/-! ## An accepted snapshot -/

theorem freshPrices_eq (s : OracleStorage) (now id : Nat) :
    freshPrices s now id = (usedObservations s now id).map (·.price) := by
  unfold freshPrices freshPublishers usedObservations freshObservations
  rw [List.filter_map, List.map_map]
  rfl

theorem freshPublishers_length (s : OracleStorage) (now id : Nat) :
    (freshPublishers s now id).length = (usedObservations s now id).length := by
  have hlength := congrArg List.length (freshPrices_eq s now id)
  unfold freshPrices at hlength
  rwa [List.length_map, List.length_map] at hlength

theorem middle_isMedian (hne : feedPrices s now id ≠ []) :
    IsMedian (middle (feedPrices s now id)) (freshPrices s now id) := by
  have hperm : (feedPrices s now id).Perm (freshPrices s now id) := by
    rw [freshPrices_eq]
    exact feedPrices_perm s now id
  refine ⟨?_, feedPrices s now id, hperm, (sort_spec _).2, rfl⟩
  intro hnil
  rw [hnil] at hperm
  exact hne hperm.eq_nil

/-- **An accepted snapshot is safe.** -/
theorem updated_safe (hs : SoundFeeds now s) (hl : (s.feeds id).listed = true)
    (h : assess now msg s id (s.feeds id) = .ok (.updated snap)) : SafeUpdate now s id snap := by
  obtain ⟨rfl, hquorum, hagreed, hne⟩ := assess_updated hs hl h
  have hmedian := middle_isMedian hne
  have hperm : (feedPrices s now id).Perm (freshPrices s now id) := by
    rw [freshPrices_eq]
    exact feedPrices_perm s now id
  constructor
  case distinct => exact hs.publishers.filter _
  case current =>
    intro p hp
    unfold freshPublishers at hp
    rw [List.mem_filter, decide_eq_true_eq, not_or, not_lt] at hp
    exact ⟨hp.1, hp.2.1, hp.2.2⟩
  case quorum =>
    rw [freshPublishers_length]
    exact hquorum
  case median => exact hmedian
  case spread =>
    intro p hp
    exact hagreed.spread p (hperm.mem_iff.2 hp)
  case jump =>
    intro hbps hsource hfresh
    exact hagreed.jump hbps ((hs.snapshots id).2.2 hsource) hfresh
  case majority =>
    intro a b hmajority
    exact hmedian.mem_of_majority hmajority

/-! ## A batch -/

theorem SameFeed.symm (h : SameFeed id s s') : SameFeed id s' s :=
  ⟨h.publishers.symm, h.feed.symm, h.ref.symm, fun p => (h.observations p).symm, h.snapshot.symm⟩

theorem stored_publishTime (verdict : Verdict) (s : OracleStorage) (sender : Address) (publishTime : Nat)
    (e : Nat × Int × Int) : ((verdict.store (withObservation s sender publishTime e) e.1).observations
      (e.1, sender)).publishTime = publishTime := by
  have hobserved : (withObservation s sender publishTime e).observations (e.1, sender) = ⟨e.2.1, e.2.2, publishTime⟩ :=
    Function.update_self _ _ _
  cases verdict with
  | skipped reason candidate => exact congrArg Observation.publishTime hobserved
  | updated snap => exact congrArg Observation.publishTime hobserved

/-- **A batch that returns pushed distinct feeds**, and each entry could be pushed on its own. -/
theorem pushAll_pushable {batch : List (Nat × Int × Int)}
    (h : batch.foldlM (pushOne now msg publishTime) s = .ok s') : (batch.map (·.1)).Nodup ∧
      ∀ e ∈ batch, Pushable now s msg.sender publishTime e := by
  induction batch generalizing s with
  | nil => exact ⟨List.nodup_nil, fun e he => absurd he List.not_mem_nil⟩
  | cons e rest ih =>
    rw [List.foldlM_cons, bind_ok_iff] at h
    obtain ⟨s₁, hone, hrest⟩ := h
    obtain ⟨hp, verdict, -, rfl⟩ := pushOne_ok hone
    obtain ⟨hnodup, hpushable⟩ := ih hrest
    have hdistinct : ∀ e' ∈ rest, e'.1 ≠ e.1 := by
      intro e' he' heq
      have hlt := (hpushable e' he').newer
      rw [heq, stored_publishTime] at hlt
      exact absurd hlt (lt_irrefl _)
    constructor
    · rw [List.map_cons, List.nodup_cons]
      refine ⟨fun hmem => ?_, hnodup⟩
      obtain ⟨e', he', heq⟩ := List.mem_map.1 hmem
      exact hdistinct e' he' heq
    · rw [List.forall_mem_cons]
      refine ⟨hp, fun e' he' => ?_⟩
      have hturn := turn_same (s := s) msg.sender publishTime verdict (hdistinct e' he')
      exact hturn.symm.pushable (hpushable e' he')

theorem pushPrices_isolates {ids : List Nat} {prices confidences : List Int}
    (h : pushPrices w msg ids prices confidences publishTime = .ok w') :
    Isolates w.timestamp msg publishTime (pushEntries ids prices confidences) w.oracle w'.oracle ∧
      publishTime ≤ w.timestamp ∧
      ∀ e ∈ pushEntries ids prices confidences, Pushable w.timestamp w.oracle msg.sender publishTime e := by
  simp only [pushPrices, bind_ok_iff, World.onlyRole_ok, World.whenNotPaused_ok, revertIf_ok, exists_const, pure_ok,
    not_lt, gt_iff_lt] at h
  obtain ⟨-, -, -, hnow, s, hfold, rfl⟩ := h
  obtain ⟨hnodup, hpushable⟩ := pushAll_pushable hfold
  exact ⟨pushAll_isolates hnodup hfold, hnow, hpushable⟩

/-! ## Steps and runs -/

theorem execConfig_snapshots {cfg : Config} (hcfg : ∀ ids prices confidences publishTime,
      cfg ≠ .pushPrices ids prices confidences publishTime) (h : execConfig D w msg cfg = .ok w') :
    w'.oracle.snapshots = w.oracle.snapshots := by
  by_cases hfeeds : cfg.feeds = false
  · rw [execConfig_feeds cfg hfeeds _ h]
  · cases cfg with
    | setPublishers keys =>
      simp only [execConfig, setPublishers, bind_ok_iff, pure_ok] at h
      obtain ⟨_, -, _, -, _, -, rfl⟩ := h
      rfl
    | setFeed id cfg =>
      simp only [execConfig, setFeed, bind_ok_iff, pure_ok] at h
      obtain ⟨_, -, _, -, _, -, _, -, _, -, rfl⟩ := h
      rfl
    | setReferenceFeed id ref =>
      simp only [execConfig, setReferenceFeed, bind_ok_iff, pure_ok] at h
      obtain ⟨_, -, _, -, _, -, rfl⟩ := h
      rfl
    | pushPrices ids prices confidences publishTime => exact absurd rfl (hcfg _ _ _ _)
    | _ => exact absurd rfl hfeeds

theorem step_push {ids : List Nat} {prices confidences : List Int} (h : (machine D env).step w l w')
    (hl : l.call.tx = .config (.pushPrices ids prices confidences publishTime)) :
    pushPrices w l.call.msg ids prices confidences publishTime = .ok w' := by
  have hexec := h.2
  simp only [exec, hl, unsettled_ok] at hexec
  exact hexec.1

/-- **A step leaves a snapshot alone, or accepts the new one.** -/
theorem step_snapshot (h : (machine D env).step w l w') (id : Nat) :
    w'.oracle.snapshots id = w.oracle.snapshots id ∨
      ∃ publishTime e snap, e.1 = id ∧ Accepts w l publishTime e snap ∧ w'.oracle.snapshots id = snap := by
  rcases step_operates h with ⟨cfg, hl, hcfg⟩ | ⟨-, hop⟩
  · by_cases hpush : ∃ ids prices confidences publishTime, cfg = .pushPrices ids prices confidences publishTime
    · obtain ⟨ids, prices, confidences, publishTime, rfl⟩ := hpush
      obtain ⟨hisolates, -, -⟩ := pushPrices_isolates (step_push h hl)
      by_cases hmem : ∃ e ∈ pushEntries ids prices confidences, e.1 = id
      · obtain ⟨e, he, rfl⟩ := hmem
        obtain ⟨verdict, hassess, hsame⟩ := hisolates.decided e he
        cases verdict with
        | skipped reason candidate => exact Or.inl hsame.snapshot
        | updated snap =>
          have hstored : w'.oracle.snapshots e.1 = snap := hsame.snapshot.trans (Function.update_self _ _ _)
          exact Or.inr ⟨publishTime, e, snap, rfl, ⟨⟨ids, prices, confidences, hl, he⟩, hassess⟩, hstored⟩
      · refine Or.inl (hisolates.others id fun e he heq => hmem ⟨e, he, heq⟩).snapshot
    · refine Or.inl (congrFun (execConfig_snapshots ?_ hcfg) id)
      intro ids prices confidences publishTime heq
      exact hpush ⟨ids, prices, confidences, publishTime, heq⟩
  · rw [hop.oracle]
    exact Or.inl rfl

/-- **What a step accepts is safe**, stored, and not older than the snapshot before it. -/
theorem accepts_safe (hw : Reachable (machine D env) w) (h : (machine D env).step w l w')
    (ha : Accepts w l publishTime e snap) :
    SafeUpdate w.timestamp (withObservation w.oracle l.call.msg.sender publishTime e) e.1 snap ∧
      w'.oracle.snapshots e.1 = snap ∧ (w.oracle.snapshots e.1).publishTime ≤ snap.publishTime ∧
      (w.oracle.snapshots e.1).writeTime ≤ snap.writeTime := by
  obtain ⟨⟨ids, prices, confidences, hl, he⟩, haccepted⟩ := ha
  obtain ⟨hisolates, hnow, hpushable⟩ := pushPrices_isolates (step_push h hl)
  have hs := reachable_soundFeeds hw
  have hobserved := withObservation_sound hs (hpushable e he) hnow
  have hlisted := (hpushable e he).listed
  refine ⟨updated_safe hobserved hlisted haccepted, ?_, ?_⟩
  · obtain ⟨verdict, hassess, hsame⟩ := hisolates.decided e he
    obtain rfl := ok_unique hassess haccepted
    exact hsame.snapshot.trans (Function.update_self _ _ _)
  · obtain ⟨rfl, -, hagreed, -⟩ := assess_updated hobserved hlisted haccepted
    exact ⟨hagreed.monotonic, (hs.snapshots e.1).2.1⟩

/-- **Oracle snapshots are safe.**  Over every run from a reachable world a feed's publish and write times never decrease,
and every step of a reachable world leaves a snapshot alone or accepts the new one.  What is accepted is stored; it is the
median of the fresh observations of at least `minPublishers` distinct current publishers, all within the spread of it, it
is within the jump bound of a snapshot written at most `maxAge` ago, and it lies in every interval in which most of those
observations lie. -/
theorem snapshots_safe (D : Deployment) (env : Env) (w : World) (hw : Reachable (machine D env) w) :
    (∀ ls w', Run (machine D env) w ls w' → ∀ id,
      (w.oracle.snapshots id).publishTime ≤ (w'.oracle.snapshots id).publishTime ∧
      (w.oracle.snapshots id).writeTime ≤ (w'.oracle.snapshots id).writeTime) ∧
    ∀ l w', (machine D env).step w l w' →
      (∀ id, w'.oracle.snapshots id = w.oracle.snapshots id ∨
        ∃ publishTime e snap, e.1 = id ∧ Accepts w l publishTime e snap ∧ w'.oracle.snapshots id = snap) ∧
      ∀ publishTime e snap, Accepts w l publishTime e snap →
        SafeUpdate w.timestamp (withObservation w.oracle l.call.msg.sender publishTime e) e.1 snap ∧
          w'.oracle.snapshots e.1 = snap := by
  constructor
  · intro ls w' hrun id
    induction hrun with
    | nil => exact ⟨le_refl _, le_refl _⟩
    | snoc hr hl ih =>
      rcases step_snapshot hl id with hsame | ⟨publishTime, e, snap, rfl, ha, hstored⟩
      · rw [hsame]
        exact ih
      · obtain ⟨-, -, hpublish, hwrite⟩ := accepts_safe (hw.of_run hr) hl ha
        rw [hstored]
        exact ⟨ih.1.trans hpublish, ih.2.trans hwrite⟩
  · intro l w' hl
    refine ⟨step_snapshot hl, fun publishTime e snap ha => ?_⟩
    obtain ⟨hsafe, hstored, -, -⟩ := accepts_safe hw hl ha
    exact ⟨hsafe, hstored⟩

/-- A feed's first price. -/
theorem snapshots_safe_first : ∃ l snap, Accepts (Sample.outcome Sample.unpriced) l 1000 (1, 100 * 10 ^ 18, 0) snap ∧
    SafeUpdate 1000 (withObservation (Sample.outcome Sample.unpriced).oracle l.call.msg.sender 1000
      (1, 100 * 10 ^ 18, 0)) 1 snap ∧ snap.price = 100 * 10 ^ 18 := by
  obtain ⟨settled, hstep⟩ := Sample.outcome_step Sample.unpriced (Sample.push (100 * 10 ^ 18) 1000) (by decide +kernel)
  have haccepted : assess 1000 (Sample.push (100 * 10 ^ 18) 1000).msg
      (withObservation (Sample.outcome Sample.unpriced).oracle Sample.admin 1000 (1, 100 * 10 ^ 18, 0)) 1
      ((Sample.outcome Sample.unpriced).oracle.feeds 1) =
      .ok (.updated ⟨100 * 10 ^ 18, 0, 1000, 1000, .quorum, 1⟩) := by decide +kernel
  have haccepts : Accepts (Sample.outcome Sample.unpriced) ⟨Sample.push (100 * 10 ^ 18) 1000, settled⟩ 1000
      (1, 100 * 10 ^ 18, 0) ⟨100 * 10 ^ 18, 0, 1000, 1000, .quorum, 1⟩ :=
    ⟨⟨[1], [100 * 10 ^ 18], [0], rfl, List.mem_singleton_self _⟩, haccepted⟩
  have hsafe := (snapshots_safe Sample.deployment Sample.env _ (Sample.outcome_reachable Sample.unpriced)).2 _ _ hstep
  exact ⟨_, _, haccepts, (hsafe.2 _ _ _ haccepts).1, rfl⟩

end Kryon
