import Kryon.Feeds
import Kryon.Sample
/-!
# PushPrices — a publisher's batch, one feed after another

Each turn of the push loop stores the publisher's observation of one feed and aggregates that feed alone.  So in a batch
of distinct feeds every feed is decided on what was stored before the batch and its own observation (`Isolates`), and the
batch reverts only when one of its feeds cannot be aggregated (`Assessable`).
-/
namespace Kryon

open Program Transition
open OracleAdapter
open Function (update)

variable {D : Deployment} {env : Env} {w w' : World} {msg : Msg} {s s' : OracleStorage} {now id publishTime : Nat}

/-! ## One turn -/

/-- Everything the push loop checks of an entry. -/
structure Pushable (now : Nat) (s : OracleStorage) (sender : Address) (publishTime : Nat) (e : Nat × Int × Int) :
    Prop where
  listed : (s.feeds e.1).listed = true
  active : (s.feeds e.1).active = true
  price : IsPrice e.2.1
  confidence : 0 ≤ e.2.2 ∧ e.2.2 ≤ I128_MAX
  fresh : now - publishTime ≤ (s.feeds e.1).maxAge
  newer : (s.observations (e.1, sender)).publishTime < publishTime

/-- The storage once the sender's observation of an entry's feed is stored. -/
def withObservation (s : OracleStorage) (sender : Address) (publishTime : Nat) (e : Nat × Int × Int) : OracleStorage :=
  observe s e.1 sender ⟨e.2.1, e.2.2, publishTime⟩

theorem pushOne_ok {e : Nat × Int × Int} (h : pushOne now msg publishTime s e = .ok s') :
    Pushable now s msg.sender publishTime e ∧ ∃ verdict,
      assess now msg (withObservation s msg.sender publishTime e) e.1 (s.feeds e.1) = .ok verdict ∧
      s' = verdict.store (withObservation s msg.sender publishTime e) e.1 := by
  obtain ⟨id, price, confidence⟩ := e
  simp only [pushOne, aggregate, bind_ok_iff, revertIf_ok, M.bound128_ok, pure_ok, exists_const, not_or, not_le,
    not_lt, Bool.not_eq_false, gt_iff_lt] at h
  obtain ⟨hlisted, hactive, _, ⟨hprice, rfl⟩, _, ⟨hconf, rfl⟩, hpos, hfresh, hnewer, verdict, hassess, rfl⟩ := h
  exact ⟨⟨hlisted, hactive, ⟨hpos.1, hprice.2⟩, ⟨hpos.2, hconf.2⟩, hfresh, hnewer⟩, verdict, hassess, rfl⟩

theorem pushOne_eq {e : Nat × Int × Int} (h : Pushable now s msg.sender publishTime e) :
    pushOne now msg publishTime s e = (do
      let verdict ← assess now msg (withObservation s msg.sender publishTime e) e.1 (s.feeds e.1)
      pure (verdict.store (withObservation s msg.sender publishTime e) e.1)) := by
  obtain ⟨id, price, confidence⟩ := e
  have hprice : M.bound128 price = .ok price := (M.bound128_ok _ _).2 ⟨h.price.inRange, rfl⟩
  have hconf : M.bound128 confidence = .ok confidence := by
    have hc : 0 ≤ confidence ∧ confidence ≤ I128_MAX := h.confidence
    rw [M.bound128_ok]
    refine ⟨?_, rfl⟩
    unfold M.InRange I128_MIN
    omega
  have hlisted : ¬ (s.feeds id).listed = false := by
    rw [h.listed]
    decide
  have hactive : ¬ (s.feeds id).active = false := by
    rw [h.active]
    decide
  have hpos : ¬ (price ≤ 0 ∨ confidence < 0) := by
    rw [not_or, not_le, not_lt]
    exact ⟨h.price.1, h.confidence.1⟩
  unfold pushOne aggregate
  simp only [revertIf_of_not hlisted, revertIf_of_not hactive, hprice, hconf, revertIf_of_not hpos,
    revertIf_of_not (not_lt.2 h.fresh), revertIf_of_not (not_le.2 h.newer), ok_bind]
  rfl

theorem withObservation_sound {sender : Address} {e : Nat × Int × Int} (h : SoundFeeds now s)
    (hp : Pushable now s sender publishTime e) (hnow : publishTime ≤ now) :
    SoundFeeds now (withObservation s sender publishTime e) := by
  refine ⟨h.publishers, h.feeds, h.refs, fun k hk => ?_, h.snapshots⟩
  unfold withObservation observe at hk ⊢
  by_cases heq : k = (e.1, sender)
  · subst heq
    simp only [Function.update_self] at hk ⊢
    exact ⟨hp.price, hnow⟩
  · simp only [Function.update_of_ne heq] at hk ⊢
    exact h.observations k hk

theorem store_sound {verdict : Verdict} (h : SoundFeeds now s) (hl : (s.feeds id).listed = true)
    (ha : assess now msg s id (s.feeds id) = .ok verdict) : SoundFeeds now (verdict.store s id) := by
  cases verdict with
  | skipped reason candidate => exact h
  | updated snap =>
    obtain ⟨rfl, -, -, hne⟩ := assess_updated h hl ha
    have hprice := middle_isPrice (h.isPrice _) hne
    refine ⟨h.publishers, h.feeds, h.refs, h.observations, fun id' => ?_⟩
    unfold Verdict.store
    by_cases heq : id' = id
    · subst heq
      simp only [Function.update_self]
      exact ⟨hprice.2, le_refl now, fun _ => hprice.1⟩
    · simp only [Function.update_of_ne heq]
      exact h.snapshots id'

theorem pushOne_sound {e : Nat × Int × Int} (hs : SoundFeeds now s) (hnow : publishTime ≤ now)
    (h : pushOne now msg publishTime s e = .ok s') : SoundFeeds now s' := by
  obtain ⟨hp, verdict, hassess, rfl⟩ := pushOne_ok h
  have hobserved := withObservation_sound hs hp hnow
  exact store_sound hobserved hp.listed hassess

/-! ## The stored feeds of a reachable world -/

/-- The calls that write the oracle's storage. -/
def Config.feeds : Config → Bool
  | .setPublishers _ | .setFeed _ _ | .setReferenceFeed _ _ | .pushPrices _ _ _ _ => true
  | _ => false

theorem execConfig_feeds (cfg : Config) (h : cfg.feeds = false) :
    Returns (fun w' => w'.oracle = w.oracle) (execConfig D w msg cfg) := by
  cases cfg with
  | setPublishers keys => exact absurd h (by simp [Config.feeds])
  | setFeed id cfg => exact absurd h (by simp [Config.feeds])
  | setReferenceFeed id ref => exact absurd h (by simp [Config.feeds])
  | pushPrices ids prices confidences publishTime => exact absurd h (by simp [Config.feeds])
  | _ =>
    simp only [execConfig, KryonUpgradeable.pause, KryonUpgradeable.pauseIndefinitely, KryonUpgradeable.unpause,
      KryonUpgradeable.changeRole, KryonUpgradeable.renounceRole, Vault.setDepositCaps, Vault.setCapExempt,
      Vault.setCollateral, RiskParams.setMarket, RiskParams.setMarketActive, RiskParams.setFundingConfig,
      RiskParams.setOiPolicy, RiskParams.setMaxTotalOiPolicyBps, FeeRouter.setMarketFees, FeeRouter.defineTier,
      FeeRouter.setAccountTier, FeeRouter.setMinNetRate, FeeRouter.setRebatesEnabled, FeeRouter.setReferralsEnabled,
      FeeRouter.setReferrerApproved, FeeRouter.setSplit, FeeRouter.setLiquidationSplit, FeeRouter.setTreasury,
      Insurance.setUnwindLimits, Liquidation.setParams]
    repeat' first
      | exact Returns.pure rfl
      | refine Returns.bind fun _ => ?_

theorem checkKeys_nodup : ∀ (keys seen : List Address), checkKeys seen keys = .ok () →
    keys.Nodup ∧ ∀ k ∈ keys, k ∉ seen
  | [], _, _ => ⟨List.nodup_nil, fun _ hk => absurd hk List.not_mem_nil⟩
  | k :: keys, seen, h => by
    simp only [checkKeys, bind_ok_iff, revertIf_ok, exists_const] at h
    obtain ⟨-, hk, h⟩ := h
    obtain ⟨hnodup, hseen⟩ := checkKeys_nodup keys (seen ++ [k]) h
    refine ⟨List.nodup_cons.2 ⟨fun hmem => ?_, hnodup⟩, fun k' hk' => ?_⟩
    · exact hseen k hmem (List.mem_append.2 (Or.inr (List.mem_singleton_self k)))
    · rcases List.mem_cons.1 hk' with rfl | hk'
      · exact hk
      · exact fun hmem => hseen k' hk' (List.mem_append.2 (Or.inl hmem))

theorem SoundFeeds.later (h : SoundFeeds now s) {later : Nat} (hle : now ≤ later) : SoundFeeds later s :=
  ⟨h.publishers, h.feeds, h.refs, fun k hk => ⟨(h.observations k hk).1, (h.observations k hk).2.trans hle⟩,
    fun id => ⟨(h.snapshots id).1, (h.snapshots id).2.1.trans hle, (h.snapshots id).2.2⟩⟩

/-- **The push loop keeps the stored feeds sound.** -/
theorem pushPrices_sound {ids : List Nat} {prices confidences : List Int} (hs : SoundFeeds w.timestamp w.oracle)
    (h : pushPrices w msg ids prices confidences publishTime = .ok w') : SoundFeeds w'.timestamp w'.oracle := by
  simp only [pushPrices, bind_ok_iff, World.onlyRole_ok, World.whenNotPaused_ok, revertIf_ok, exists_const, pure_ok,
    not_lt, gt_iff_lt] at h
  obtain ⟨-, -, -, hnow, s, hpush, rfl⟩ := h
  exact foldlM_invariant (SoundFeeds w.timestamp) _ _ _ _ hs (fun _ _ _ _ hs' h' => pushOne_sound hs' hnow h') hpush

theorem execConfig_sound {cfg : Config} (hs : SoundFeeds w.timestamp w.oracle)
    (h : execConfig D w msg cfg = .ok w') : SoundFeeds w'.timestamp w'.oracle := by
  by_cases hcfg : cfg.feeds = false
  · rw [(execConfig_configures cfg _ h).timestamp, execConfig_feeds cfg hcfg _ h]
    exact hs
  · cases cfg with
    | setPublishers keys =>
      simp only [execConfig, setPublishers, bind_ok_iff, World.onlyRole_ok, revertIf_ok, exists_const, pure_ok] at h
      obtain ⟨-, -, _, hkeys, rfl⟩ := h
      exact ⟨(checkKeys_nodup keys [] hkeys).1, hs.feeds, hs.refs, hs.observations, hs.snapshots⟩
    | setFeed id cfg =>
      simp only [execConfig, setFeed, bind_ok_iff, World.onlyRole_ok, revertIf_ok, exists_const, pure_ok] at h
      obtain ⟨-, -, -, hbps, hmin, rfl⟩ := h
      refine ⟨hs.publishers, fun id' hl => ?_, hs.refs, hs.observations, hs.snapshots⟩
      by_cases heq : id' = id
      · subst heq
        simp only [Function.update_self]
        unfold MAX_BPS at hbps ⊢
        omega
      · simp only [Function.update_of_ne heq] at hl ⊢
        exact hs.feeds id' hl
    | setReferenceFeed id ref =>
      simp only [execConfig, setReferenceFeed, bind_ok_iff, World.onlyRole_ok, revertIf_ok, exists_const, pure_ok] at h
      obtain ⟨-, -, _, hcheck, rfl⟩ := h
      refine ⟨hs.publishers, hs.feeds, fun id' hen => ?_, hs.observations, hs.snapshots⟩
      by_cases heq : id' = id
      · subst heq
        simp only [Function.update_self] at hen ⊢
        rw [if_pos hen] at hcheck
        simp only [checkReference, bind_ok_iff, revertIf_ok, exists_const, not_or, not_lt, gt_iff_lt] at hcheck
        exact hcheck.2.2.1.2
      · simp only [Function.update_of_ne heq] at hen ⊢
        exact hs.refs id' hen
    | pushPrices ids prices confidences publishTime => exact pushPrices_sound hs h
    | _ => exact absurd rfl hcfg

theorem genesis_soundFeeds (h : Genesis D w) : SoundFeeds w.timestamp w.oracle := by
  obtain ⟨hpublishers, hfeeds, -, hrefs, hobservations, hsnapshots⟩ := h.oracle
  refine ⟨by rw [hpublishers]; exact List.nodup_nil, fun id hl => ?_, fun id hen => ?_, fun k hk => ?_, fun id => ?_⟩
  · rw [hfeeds id] at hl
    exact absurd hl (by decide)
  · rw [hrefs id] at hen
    exact absurd hen (by decide)
  · rw [hobservations k] at hk
    exact absurd rfl hk
  · rw [hsnapshots id]
    exact ⟨by decide, Nat.zero_le _, fun h => absurd h (by decide)⟩

/-- **In a reachable world the stored feeds are sound.** -/
theorem reachable_soundFeeds (h : Reachable (machine D env) w) : SoundFeeds w.timestamp w.oracle := by
  refine h.invariant (fun w => SoundFeeds w.timestamp w.oracle) (fun _ => genesis_soundFeeds) ?_
  intro w l w' _ hs hl
  rcases step_operates hl with ⟨cfg, -, hcfg⟩ | ⟨-, hop⟩
  · exact execConfig_sound hs hcfg
  · rw [hop.oracle]
    exact hs.later hop.timestamp

/-! ## A batch -/

/-- Two storages agree on the publishers and on a feed: its configuration, its reference and what is stored of it. -/
structure SameFeed (id : Nat) (s s' : OracleStorage) : Prop where
  publishers : s'.publishers = s.publishers
  feed : s'.feeds id = s.feeds id
  ref : s'.refs id = s.refs id
  observations : ∀ p, s'.observations (id, p) = s.observations (id, p)
  snapshot : s'.snapshots id = s.snapshots id

theorem SameFeed.refl (id : Nat) (s : OracleStorage) : SameFeed id s s := ⟨rfl, rfl, rfl, fun _ => rfl, rfl⟩

theorem SameFeed.trans {s₁ s₂ s₃ : OracleStorage} (h : SameFeed id s₁ s₂) (h' : SameFeed id s₂ s₃) :
    SameFeed id s₁ s₃ :=
  ⟨h'.publishers.trans h.publishers, h'.feed.trans h.feed, h'.ref.trans h.ref,
    fun p => (h'.observations p).trans (h.observations p), h'.snapshot.trans h.snapshot⟩

/-- **An aggregation reads its own feed only.** -/
theorem assess_congr {cfg : FeedConfig} (h : SameFeed id s s') :
    assess now msg s' id cfg = assess now msg s id cfg := by
  have hfresh : freshObservations s' now id cfg.maxAge = freshObservations s now id cfg.maxAge := by
    unfold freshObservations
    rw [h.publishers]
    congr 1
    exact List.map_congr_left fun p _ => h.observations p
  unfold assess
  rw [hfresh, h.snapshot, h.ref]

theorem withObservation_same (sender : Address) (publishTime : Nat) {e : Nat × Int × Int} (h : SameFeed e.1 s s') :
    SameFeed e.1 (withObservation s sender publishTime e) (withObservation s' sender publishTime e) := by
  refine ⟨h.publishers, h.feed, h.ref, fun p => ?_, h.snapshot⟩
  unfold withObservation observe
  by_cases hp : p = sender
  · subst hp
    simp only [Function.update_self]
  · have hne : (e.1, p) ≠ (e.1, sender) := fun he => hp (congrArg Prod.snd he)
    simp only [Function.update_of_ne hne]
    exact h.observations p

theorem store_same (verdict : Verdict) (h : SameFeed id s s') :
    SameFeed id (verdict.store s id) (verdict.store s' id) := by
  cases verdict with
  | skipped reason candidate => exact h
  | updated snap =>
    refine ⟨h.publishers, h.feed, h.ref, h.observations, ?_⟩
    show update s'.snapshots id snap id = update s.snapshots id snap id
    rw [Function.update_self, Function.update_self]

theorem turn_same (sender : Address) (publishTime : Nat) {e : Nat × Int × Int} (verdict : Verdict) (hne : id ≠ e.1) :
    SameFeed id s (verdict.store (withObservation s sender publishTime e) e.1) := by
  have hobserved : SameFeed id s (withObservation s sender publishTime e) := by
    refine ⟨rfl, rfl, rfl, fun p => ?_, rfl⟩
    have hkey : (id, p) ≠ (e.1, sender) := fun he => hne (congrArg Prod.fst he)
    exact Function.update_of_ne hkey _ _
  cases verdict with
  | skipped reason candidate => exact hobserved
  | updated snap =>
    refine hobserved.trans ⟨rfl, rfl, rfl, fun _ => rfl, ?_⟩
    exact Function.update_of_ne hne _ _

/-- Each entry's feed ends up as if it had been pushed alone, and no other feed changes. -/
structure Isolates (now : Nat) (msg : Msg) (publishTime : Nat) (entries : List (Nat × Int × Int))
    (s s' : OracleStorage) : Prop where
  decided : ∀ e ∈ entries, ∃ verdict,
    assess now msg (withObservation s msg.sender publishTime e) e.1 (s.feeds e.1) = .ok verdict ∧
    SameFeed e.1 (verdict.store (withObservation s msg.sender publishTime e) e.1) s'
  others : ∀ id, (∀ e ∈ entries, e.1 ≠ id) → SameFeed id s s'

theorem assess_turn {e e' : Nat × Int × Int} (verdict : Verdict) (hne : e'.1 ≠ e.1) :
    let s₁ := verdict.store (withObservation s msg.sender publishTime e) e.1
    assess now msg (withObservation s₁ msg.sender publishTime e') e'.1 (s₁.feeds e'.1) =
      assess now msg (withObservation s msg.sender publishTime e') e'.1 (s.feeds e'.1) := by
  have hsame : SameFeed e'.1 s (verdict.store (withObservation s msg.sender publishTime e) e.1) :=
    turn_same msg.sender publishTime verdict hne
  simp only
  rw [hsame.feed]
  exact assess_congr (withObservation_same msg.sender publishTime hsame)

theorem SameFeed.pushable {sender : Address} {e : Nat × Int × Int} (h : SameFeed e.1 s s')
    (hp : Pushable now s sender publishTime e) : Pushable now s' sender publishTime e :=
  ⟨h.feed ▸ hp.listed, h.feed ▸ hp.active, hp.price, hp.confidence, h.feed ▸ hp.fresh,
    (h.observations sender).symm ▸ hp.newer⟩

/-- **A batch of distinct feeds returns exactly when every feed of it can be decided on its own.** -/
theorem pushAll_isOk_iff {entries : List (Nat × Int × Int)} (hnodup : (entries.map (·.1)).Nodup)
    (hpush : ∀ e ∈ entries, Pushable now s msg.sender publishTime e) :
    (∃ s', entries.foldlM (pushOne now msg publishTime) s = .ok s') ↔ ∀ e ∈ entries, ∃ verdict,
      assess now msg (withObservation s msg.sender publishTime e) e.1 (s.feeds e.1) = .ok verdict := by
  induction entries generalizing s with
  | nil => exact ⟨fun _ e he => absurd he List.not_mem_nil, fun _ => ⟨s, rfl⟩⟩
  | cons e rest ih =>
    rw [List.map_cons, List.nodup_cons] at hnodup
    rw [List.forall_mem_cons] at hpush ⊢
    rw [List.foldlM_cons, pushOne_eq hpush.1]
    have hdistinct : ∀ e' ∈ rest, e'.1 ≠ e.1 := fun e' he' heq => hnodup.1 (List.mem_map.2 ⟨e', he', heq⟩)
    cases hassess : assess now msg (withObservation s msg.sender publishTime e) e.1 (s.feeds e.1) with
    | error err =>
      constructor
      · rintro ⟨s', h⟩
        cases h
      · rintro ⟨⟨verdict, h⟩, -⟩
        cases h
    | ok verdict =>
      have hrest := ih (s := verdict.store (withObservation s msg.sender publishTime e) e.1) hnodup.2 fun e' he' =>
        (turn_same msg.sender publishTime verdict (hdistinct e' he')).pushable (hpush.2 e' he')
      show (∃ s', rest.foldlM (pushOne now msg publishTime)
        (verdict.store (withObservation s msg.sender publishTime e) e.1) = .ok s') ↔ _
      rw [hrest]
      constructor
      · intro h
        refine ⟨⟨verdict, rfl⟩, fun e' he' => ?_⟩
        rw [← assess_turn verdict (hdistinct e' he')]
        exact h e' he'
      · rintro ⟨-, h⟩ e' he'
        rw [assess_turn verdict (hdistinct e' he')]
        exact h e' he'

/-- **A batch of distinct feeds that returns decided each of them on its own.** -/
theorem pushAll_isolates {entries : List (Nat × Int × Int)} (hnodup : (entries.map (·.1)).Nodup)
    (h : entries.foldlM (pushOne now msg publishTime) s = .ok s') : Isolates now msg publishTime entries s s' := by
  induction entries generalizing s with
  | nil =>
    rw [List.foldlM_nil, pure_ok] at h
    subst h
    exact ⟨fun e he => absurd he List.not_mem_nil, fun id _ => SameFeed.refl id s⟩
  | cons e rest ih =>
    rw [List.map_cons, List.nodup_cons] at hnodup
    rw [List.foldlM_cons, bind_ok_iff] at h
    obtain ⟨s₁, hone, hrest⟩ := h
    obtain ⟨-, verdict, hassess, rfl⟩ := pushOne_ok hone
    have hdistinct : ∀ e' ∈ rest, e'.1 ≠ e.1 := fun e' he' heq => hnodup.1 (List.mem_map.2 ⟨e', he', heq⟩)
    obtain ⟨hdecided, hothers⟩ := ih hnodup.2 hrest
    constructor
    · rw [List.forall_mem_cons]
      refine ⟨⟨verdict, hassess, hothers e.1 hdistinct⟩, fun e' he' => ?_⟩
      obtain ⟨v, hv, hsame⟩ := hdecided e' he'
      rw [assess_turn verdict (hdistinct e' he')] at hv
      have hturn := turn_same (s := s) msg.sender publishTime verdict (hdistinct e' he')
      exact ⟨v, hv, (store_same v (withObservation_same msg.sender publishTime hturn)).trans hsame⟩
    · intro id hid
      rw [List.forall_mem_cons] at hid
      exact (turn_same msg.sender publishTime verdict (Ne.symm hid.1)).trans (hothers id hid.2)

/-- The entries of a batch. -/
def pushEntries (ids : List Nat) (prices confidences : List Int) : List (Nat × Int × Int) :=
  ids.zip (prices.zip confidences)

theorem mem_pushEntries {ids : List Nat} {prices confidences : List Int} {e : Nat × Int × Int}
    (h : e ∈ pushEntries ids prices confidences) : e.1 ∈ ids ∧ e.2.1 ∈ prices ∧ e.2.2 ∈ confidences := by
  obtain ⟨id, price, confidence⟩ := e
  obtain ⟨hid, hrest⟩ := List.of_mem_zip h
  obtain ⟨hprice, hconfidence⟩ := List.of_mem_zip hrest
  exact ⟨hid, hprice, hconfidence⟩

/-- **A well-formed batch returns, with every feed updated or skipped on its own, exactly when each of its feeds can be
aggregated**: it has no quorum, or its median does not overflow and the reference data it reads decodes. -/
theorem pushPrices_isolated (D : Deployment) (env : Env) (w : World) (hw : Reachable (machine D env) w) (msg : Msg)
    (ids : List Nat) (prices confidences : List Int) (publishTime : Nat)
    (hrole : w.hasRole .oracle .publisher msg.sender = true) (hpaused : w.paused .oracle = false)
    (hlength : ids.length = prices.length ∧ ids.length = confidences.length) (hdistinct : ids.Nodup)
    (hfuture : publishTime ≤ w.timestamp)
    (hfeeds : ∀ id ∈ ids, (w.oracle.feeds id).listed = true ∧ (w.oracle.feeds id).active = true ∧
      w.timestamp - publishTime ≤ (w.oracle.feeds id).maxAge ∧
      (w.oracle.observations (id, msg.sender)).publishTime < publishTime)
    (hprices : ∀ p ∈ prices, 0 < p ∧ p ≤ I128_MAX) (hconfidences : ∀ c ∈ confidences, 0 ≤ c ∧ c ≤ I128_MAX) :
    (∃ w', pushPrices w msg ids prices confidences publishTime = .ok w' ∧
      Isolates w.timestamp msg publishTime (pushEntries ids prices confidences) w.oracle w'.oracle) ↔
    ∀ e ∈ pushEntries ids prices confidences,
      Assessable w.timestamp msg (withObservation w.oracle msg.sender publishTime e) e.1 := by
  have hs := reachable_soundFeeds hw
  have hpush : ∀ e ∈ pushEntries ids prices confidences, Pushable w.timestamp w.oracle msg.sender publishTime e := by
    intro e he
    obtain ⟨hid, hprice, hconfidence⟩ := mem_pushEntries he
    obtain ⟨hlisted, hactive, hfresh, hnewer⟩ := hfeeds e.1 hid
    exact ⟨hlisted, hactive, hprices _ hprice, hconfidences _ hconfidence, hfresh, hnewer⟩
  have hnodup : ((pushEntries ids prices confidences).map (·.1)).Nodup := by
    have hfst : (pushEntries ids prices confidences).map (·.1) = ids := by
      refine List.map_fst_zip ?_
      rw [List.length_zip]
      omega
    rw [hfst]
    exact hdistinct
  have hassess : (∀ e ∈ pushEntries ids prices confidences, ∃ verdict,
      assess w.timestamp msg (withObservation w.oracle msg.sender publishTime e) e.1 (w.oracle.feeds e.1) = .ok verdict) ↔
      ∀ e ∈ pushEntries ids prices confidences,
        Assessable w.timestamp msg (withObservation w.oracle msg.sender publishTime e) e.1 := by
    refine forall₂_congr fun e he => ?_
    exact assess_isOk_iff (withObservation_sound hs (hpush e he) hfuture) (hpush e he).listed
  rw [← hassess, ← pushAll_isOk_iff hnodup hpush]
  have hpass : ∀ s, (pushEntries ids prices confidences).foldlM (pushOne w.timestamp msg publishTime) w.oracle = .ok s →
      pushPrices w msg ids prices confidences publishTime = .ok { w with oracle := s } := by
    intro s hfold
    simp only [pushPrices, bind_ok_iff, World.onlyRole_ok, World.whenNotPaused_ok, revertIf_ok, exists_const, pure_ok]
    refine ⟨hrole, hpaused, ?_, not_lt.2 hfuture, s, hfold, rfl⟩
    rw [not_or, not_not, not_not]
    exact hlength
  constructor
  · rintro ⟨w', h, -⟩
    simp only [pushPrices, bind_ok_iff] at h
    obtain ⟨_, -, _, -, _, -, _, -, s, hfold, -⟩ := h
    exact ⟨s, hfold⟩
  · rintro ⟨s, hfold⟩
    exact ⟨_, hpass s hfold, pushAll_isolates hnodup hfold⟩

theorem pushPrices_isolated_hostile : ∃ w', pushPrices (Sample.outcome Sample.hostile) (Sample.push 0 0).msg [2]
      [100 * 10 ^ 18] [0] 1000 = .ok w' ∧
    Isolates 1000 (Sample.push 0 0).msg 1000 [(2, 100 * 10 ^ 18, 0)] (Sample.outcome Sample.hostile).oracle
      w'.oracle := by
  refine (pushPrices_isolated Sample.deployment Sample.env _ (Sample.outcome_reachable Sample.hostile) _ [2]
    [100 * 10 ^ 18] [0] 1000 (by decide +kernel) (by decide +kernel) (by decide) (by decide) (by decide +kernel)
    (by decide +kernel) (by decide) (by decide)).2 ?_
  intro e he
  have he : e = (2, 100 * 10 ^ 18, 0) := List.mem_singleton.1 he
  subst he
  exact Or.inr ⟨by decide +kernel, fun _ hen => absurd hen (by decide +kernel)⟩

/-- Alice's price stops the administrator's batch, its good feed included. -/
theorem pushPrices_not_isolated : ¬ ∀ (D : Deployment) (env : Env) (w : World), Reachable (machine D env) w →
    ∀ (msg : Msg) (ids : List Nat) (prices confidences : List Int) (publishTime : Nat),
    w.hasRole .oracle .publisher msg.sender = true → w.paused .oracle = false →
    ids.length = prices.length ∧ ids.length = confidences.length → ids.Nodup → publishTime ≤ w.timestamp →
    (∀ id ∈ ids, (w.oracle.feeds id).listed = true ∧ (w.oracle.feeds id).active = true ∧
      w.timestamp - publishTime ≤ (w.oracle.feeds id).maxAge ∧
      (w.oracle.observations (id, msg.sender)).publishTime < publishTime) →
    (∀ p ∈ prices, 0 < p ∧ p ≤ I128_MAX) → (∀ c ∈ confidences, 0 ≤ c ∧ c ≤ I128_MAX) →
    ∃ w', pushPrices w msg ids prices confidences publishTime = .ok w' := by
  intro hall
  obtain ⟨w', hw'⟩ := hall Sample.deployment Sample.env _ (Sample.outcome_reachable Sample.hostile)
    (Sample.push 0 0).msg [1, 2] [100 * 10 ^ 18, 100 * 10 ^ 18] [0, 0] 1000 (by decide +kernel) (by decide +kernel)
    (by decide) (by decide) (by decide +kernel) (by decide +kernel) (by decide) (by decide)
  have hreverts : (pushPrices (Sample.outcome Sample.hostile) (Sample.push 0 0).msg [1, 2]
      [100 * 10 ^ 18, 100 * 10 ^ 18] [0, 0] 1000).isOk = false := by decide +kernel
  rw [hw'] at hreverts
  cases hreverts

end Kryon
