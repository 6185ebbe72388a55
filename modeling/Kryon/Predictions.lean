import Kryon.PushPrices
/-!
# Predictions — the publisher's twin of the aggregation

Before it sends an observation, a publisher predicts what the contract will make of it together with the other publishers'
(`lib/oracle/guards.ts`).  Over a state read from the contract, whose observations and snapshot passed the contract's own
checks, the prediction is the verdict: the guards compare the same numbers at the same boundaries in the same order.
-/
namespace Kryon

open Program
open OracleAdapter (freshObservations assess readReference)
open Median (middle)
open Function (update)

namespace Publisher

/-! ## The publisher's state -/

structure Snapshot where
  price : Int
  confidence : Int
  publishTime : Nat
  writeTime : Nat
  sourceCount : Nat

structure ReferenceState where
  enabled : Bool
  required : Bool
  maxDivergenceBps : Nat
  /-- `OracleAdapter.referencePrice(id)`: the contract's own reading and staleness rules. -/
  ok : Bool
  price : Int

structure FeedState where
  cfg : FeedConfig
  snapshot : Snapshot
  /-- Every current publisher's latest observation, keyed by address. -/
  observations : Address → Option Observation
  reference : ReferenceState

inductive SkipReason where
  | quorum
  | spread
  | jump
  | divergence
  | referenceUnavailable
  | notMonotonic
  deriving DecidableEq

inductive Prediction where
  | update (median : Int) (count : Nat) (reanchor : Bool)
  | skip (reason : SkipReason) (median : Option Int) (count : Nat)
  deriving DecidableEq

/-! ## The prediction -/

def BPS : Int := 10000

/-- `Number.MAX_SAFE_INTEGER`. -/
def MAX_SAFE_INTEGER : Nat := 2 ^ 53 - 1

def applyBps (amount : Int) (bps : Nat) : Int := (amount * bps).tdiv BPS

def absDiff (a b : Int) : Int := if a > b then a - b else b - a

/-- The mean of the middle two for an even count, rounded toward zero. -/
def median (values : List Int) : Int :=
  let s := values.insertionSort (· ≤ ·)
  let mid := s.length / 2
  if s.length % 2 = 1 then s.getD mid 0 else (s.getD (mid - 1) 0 + s.getD mid 0).tdiv 2

/-- One turn of the loop over the publishers: a fresh observation's price, and the oldest publish time. -/
def gather (feed : FeedState) (self : Address) (obs : Observation) (blockTime : Int) (t : List Int × Nat)
    (p : Address) : List Int × Nat :=
  match (if p = self then some obs else feed.observations p) with
  | none => t
  | some o =>
    if o.publishTime = 0 ∨ blockTime - o.publishTime > feed.cfg.maxAge then t
    else (t.1 ++ [o.price], if o.publishTime < t.2 then o.publishTime else t.2)

/-- What the aggregation will do if `self` pushes `obs` and the block lands at `blockTime`. -/
def predictAggregate (feed : FeedState) (publishers : List Address) (self : Address) (obs : Observation)
    (blockTime : Int) : Prediction :=
  let cfg := feed.cfg
  let (prices, oldest) := publishers.foldl (gather feed self obs blockTime) ([], MAX_SAFE_INTEGER)
  let count := prices.length
  if count < cfg.minPublishers then .skip .quorum none count
  else
    let m := median prices
    let maxSpread := applyBps m cfg.maxSpreadBps
    if prices.any fun p => decide (absDiff p m > maxSpread) then .skip .spread (some m) count
    else
      let prev := feed.snapshot
      if oldest < prev.publishTime then .skip .notMonotonic (some m) count
      else
        let prevStale := decide (blockTime - prev.writeTime > cfg.maxAge)
        if cfg.maxJumpBps ≠ 0 ∧ prev.price > 0 ∧ prevStale = false ∧
            absDiff m prev.price > applyBps prev.price cfg.maxJumpBps then .skip .jump (some m) count
        else
          let ref := feed.reference
          if ref.enabled = true ∧ ref.ok = false ∧ ref.required = true then .skip .referenceUnavailable (some m) count
          else if ref.enabled = true ∧ ref.ok = true ∧ absDiff m ref.price > applyBps ref.price ref.maxDivergenceBps then
            .skip .divergence (some m) count
          else .update m count (prevStale && decide (prev.price > 0))

/-! ## Outcomes -/

/-- What an aggregation comes to: an update and whether it re-anchors the feed, or the reason of a skip and the median it
was judged at, which a missed quorum has not. -/
inductive Outcome where
  | updated (median : Int) (reanchored : Bool)
  | skipped (reason : OracleAdapter.SkipReason) (median : Option Int)

/-- The contract's reason of the same name. -/
def SkipReason.onchain : SkipReason → OracleAdapter.SkipReason
  | .quorum => .quorumNotMet
  | .spread => .spreadTooWide
  | .jump => .jumpTooLarge
  | .divergence => .referenceDiverged
  | .referenceUnavailable => .referenceUnavailable
  | .notMonotonic => .notMonotonic

def Prediction.outcome : Prediction → Outcome
  | .update median _ reanchor => .updated median reanchor
  | .skip reason median _ => .skipped reason.onchain median

/-- Whether `_aggregate` reports that an update re-anchors the feed: the price it replaces was stale. -/
def reanchors (now : Nat) (cfg : FeedConfig) (prev : OracleSnapshot) : Bool :=
  decide (now - prev.writeTime > cfg.maxAge) && decide (prev.price > 0)

/-- The skip of a missed quorum reports the count in the place of a median. -/
def outcomeOf (now : Nat) (cfg : FeedConfig) (prev : OracleSnapshot) : OracleAdapter.Verdict → Outcome
  | .updated snap => .updated snap.price (reanchors now cfg prev)
  | .skipped .quorumNotMet _ => .skipped .quorumNotMet none
  | .skipped reason candidate => .skipped reason (some candidate)

/-- The publisher's configuration, snapshot and reference of a feed are the contract's, and so is what is read of the
reference. -/
structure ReadsFeed (now : Nat) (msg : Msg) (s : OracleStorage) (id : Nat) (feed : FeedState) : Prop where
  cfg : feed.cfg = s.feeds id
  snapshot : feed.snapshot = ⟨(s.snapshots id).price, (s.snapshots id).confidence, (s.snapshots id).publishTime,
    (s.snapshots id).writeTime, (s.snapshots id).sourceCount⟩
  reference : feed.reference.enabled = (s.refs id).enabled ∧ feed.reference.required = (s.refs id).required ∧
    feed.reference.maxDivergenceBps = (s.refs id).maxDivergenceBps
  reading : (s.refs id).enabled = true → ∃ r, readReference now msg (s.refs id) = .ok r ∧
    feed.reference.ok = r.isSome ∧ ∀ p, r = some p → feed.reference.price = p

/-- The publisher's state of a feed is what the contract stores of it. -/
structure Reads (now : Nat) (msg : Msg) (s : OracleStorage) (id : Nat) (feed : FeedState) : Prop
    extends ReadsFeed now msg s id feed where
  observations : ∀ p ∈ s.publishers, feed.observations p = some (s.observations (id, p))

/-- A feed as the publisher reads it from the contract, with the reference reading the contract reports. -/
def readFeed (s : OracleStorage) (id : Nat) (reading : Option Int) : FeedState where
  cfg := s.feeds id
  snapshot := ⟨(s.snapshots id).price, (s.snapshots id).confidence, (s.snapshots id).publishTime,
    (s.snapshots id).writeTime, (s.snapshots id).sourceCount⟩
  observations p := if p ∈ s.publishers then some (s.observations (id, p)) else none
  reference := ⟨(s.refs id).enabled, (s.refs id).required, (s.refs id).maxDivergenceBps, reading.isSome, reading.getD 0⟩

/-- **What the publisher reads is what the contract stores**, wherever the reference can be read. -/
theorem readFeed_reads {now : Nat} {msg : Msg} {s : OracleStorage} {id : Nat} {reading : Option Int}
    (h : readReference now msg (s.refs id) = .ok reading) : Reads now msg s id (readFeed s id reading) where
  cfg := rfl
  snapshot := rfl
  reference := ⟨rfl, rfl, rfl⟩
  reading _ := ⟨reading, h, rfl, fun p hp => by rw [hp]; rfl⟩
  observations p hp := if_pos hp

/-! ## The same numbers -/

theorem absDiff_eq (a b : Int) : absDiff a b = |a - b| := by
  unfold absDiff
  split
  · exact (abs_of_pos (by omega)).symm
  · rw [abs_of_nonpos (by omega)]
    ring

theorem applyBps_eq (amount : Int) (bps : Nat) : applyBps amount bps = bpsOf amount bps := rfl

/-- **The twin's median is the middle of the contract's sort.** -/
theorem median_eq (values : List Int) : median values = middle (OracleAdapter.sort values) := by
  obtain ⟨hperm, hsorted⟩ := sort_spec values
  have hsort : values.insertionSort (· ≤ ·) = OracleAdapter.sort values :=
    List.Perm.eq_of_pairwise' (List.pairwise_insertionSort (· ≤ ·) values) hsorted
      ((List.perm_insertionSort _ _).trans hperm.symm)
  unfold median middle
  rw [hsort]

theorem foldl_oldest {os : List Observation} {a b : Nat} (hne : os ≠ [])
    (ha : ∀ o ∈ os, o.publishTime ≤ a) (hb : ∀ o ∈ os, o.publishTime ≤ b) :
    os.foldl (fun t o => if o.publishTime < t then o.publishTime else t) a =
      os.foldl (fun t o => if o.publishTime < t then o.publishTime else t) b := by
  cases os with
  | nil => exact absurd rfl hne
  | cons o os =>
    have hfirst : ∀ t, o.publishTime ≤ t → (if o.publishTime < t then o.publishTime else t) = o.publishTime := by
      intro t ht
      split
      · rfl
      · omega
    rw [List.foldl_cons, List.foldl_cons, hfirst a (ha o List.mem_cons_self), hfirst b (hb o List.mem_cons_self)]

/-- **What the loop over the publishers gathers**: the fresh observations' prices, and the oldest of them. -/
theorem foldl_gather {feed : FeedState} {self : Address} {obs : Observation} {now : Nat} {read : Address → Observation} :
    ∀ (ps : List Address) (t : List Int × Nat),
      (∀ p ∈ ps, (if p = self then some obs else feed.observations p) = some (read p)) →
      (∀ p ∈ ps, (read p).publishTime ≤ now) →
      ps.foldl (gather feed self obs now) t =
        (t.1 ++ ((ps.map read).filter fun o =>
            ¬ (o.publishTime = 0 ∨ now - o.publishTime > feed.cfg.maxAge)).map (·.price),
          ((ps.map read).filter fun o => ¬ (o.publishTime = 0 ∨ now - o.publishTime > feed.cfg.maxAge)).foldl
            (fun t o => if o.publishTime < t then o.publishTime else t) t.2)
  | [], t, _, _ => by simp
  | p :: ps, t, hread, hpast => by
    obtain ⟨hp, hread⟩ := List.forall_mem_cons.1 hread
    obtain ⟨hpnow, hpast⟩ := List.forall_mem_cons.1 hpast
    rw [List.foldl_cons, foldl_gather ps _ hread hpast]
    simp only [gather, hp, List.map_cons, List.filter_cons]
    have hage : ((now : Int) - (read p).publishTime > feed.cfg.maxAge) ↔ now - (read p).publishTime > feed.cfg.maxAge := by
      omega
    by_cases hstale : (read p).publishTime = 0 ∨ now - (read p).publishTime > feed.cfg.maxAge
    · simp [hage, hstale]
    · simp [hage, hstale]

/-! ## The prediction -/

variable {s : OracleStorage} {now id publishTime : Nat} {msg : Msg} {self : Address} {obs : Observation}
  {feed : FeedState}

/-- The twin's two guards on a reference, before the rest of the prediction. -/
def guardReference (ref : ReferenceState) (m : Int) (count : Nat) (rest : Prediction) : Prediction :=
  if ref.enabled = true ∧ ref.ok = false ∧ ref.required = true then .skip .referenceUnavailable (some m) count
  else if ref.enabled = true ∧ ref.ok = true ∧ absDiff m ref.price > applyBps ref.price ref.maxDivergenceBps then
    .skip .divergence (some m) count
  else rest

/-- **The twin's guards on a reference skip for the reason the contract's does.** -/
theorem guardReference_eq (hr : ReadsFeed now msg s id feed) (hs : SoundFeeds now s) {med : Int} (hmed : IsPrice med)
    (count : Nat) (rest : Prediction) :
    (OracleAdapter.referenceSkips now msg (s.refs id) med = .ok none ∧
        guardReference feed.reference med count rest = rest) ∨
      ∃ reason : SkipReason, OracleAdapter.referenceSkips now msg (s.refs id) med = .ok (some reason.onchain) ∧
        reason ≠ .quorum ∧ guardReference feed.reference med count rest = .skip reason (some med) count := by
  obtain ⟨henabled, hrequired, hbps⟩ := hr.reference
  unfold guardReference
  by_cases hen : (s.refs id).enabled = true
  · obtain ⟨r, hread, hok, hprice⟩ := hr.reading hen
    have hp : ∀ p, r = some p → IsPrice p := by
      have hd : Decodes msg (s.refs id) := by
        by_contra hnot
        rw [(readReference_malformed now hnot).2] at hread
        cases hread
      obtain ⟨r', hr', hp⟩ := readReference_ok now hd hen
      obtain rfl := ok_unique hread hr'
      exact hp
    rw [referenceSkips_eq now hmed hen hread hp (hs.refs id hen), henabled, hrequired, hbps, hok]
    cases r with
    | none =>
      by_cases hreq : (s.refs id).required = true
      · exact Or.inr ⟨.referenceUnavailable, by simp [referenceReason, hreq, SkipReason.onchain], by decide,
          by simp [hen, hreq]⟩
      · exact Or.inl ⟨by simp [referenceReason, hreq], by simp [hen, hreq]⟩
    | some p =>
      rw [hprice p rfl, absDiff_eq, applyBps_eq]
      by_cases hfar : |med - p| > bpsOf p (s.refs id).maxDivergenceBps
      · exact Or.inr ⟨.divergence, by simp only [referenceReason, if_pos hfar, SkipReason.onchain], by decide,
          by simp [hen, hfar]⟩
      · exact Or.inl ⟨by simp only [referenceReason, if_neg hfar], by simp [hen, hfar]⟩
  · refine Or.inl ⟨if_pos (Bool.eq_false_of_not_eq_true hen), ?_⟩
    rw [henabled]
    simp [hen]

theorem foldl_gather_used (hr : ReadsFeed now msg s id feed) (hs : SoundFeeds now s)
    (hread : ∀ p ∈ s.publishers, (if p = self then some obs else feed.observations p) = some (s.observations (id, p))) :
    s.publishers.foldl (gather feed self obs now) ([], MAX_SAFE_INTEGER) =
      ((usedObservations s now id).map (·.price),
        (usedObservations s now id).foldl (fun t o => if o.publishTime < t then o.publishTime else t)
          MAX_SAFE_INTEGER) := by
  have hpast : ∀ p ∈ s.publishers, (s.observations (id, p)).publishTime ≤ now := fun p _ => by
    by_cases h0 : (s.observations (id, p)).publishTime = 0
    · omega
    · exact (hs.observations _ h0).2
  rw [foldl_gather s.publishers _ hread hpast, List.nil_append, hr.cfg]
  rfl

theorem used_past (hs : SoundFeeds now s) : ∀ o ∈ usedObservations s now id, o.publishTime ≤ now := by
  intro o ho
  unfold usedObservations freshObservations at ho
  rw [List.mem_filter, List.mem_map, decide_eq_true_eq, not_or] at ho
  obtain ⟨⟨publisher, -, rfl⟩, hset, -⟩ := ho
  exact (hs.observations _ hset).2

/-- **The prediction is the verdict**, over a state read from sound storage. -/
theorem predictAggregate_outcome (hr : ReadsFeed now msg s id feed) (hs : SoundFeeds now s)
    (hl : (s.feeds id).listed = true) (hsafe : now ≤ MAX_SAFE_INTEGER) (hf : MiddleFits (feedPrices s now id))
    (hread : ∀ p ∈ s.publishers, (if p = self then some obs else feed.observations p) = some (s.observations (id, p))) :
    ∃ verdict, assess now msg s id (s.feeds id) = .ok verdict ∧
      (predictAggregate feed s.publishers self obs now).outcome =
        outcomeOf now (s.feeds id) (s.snapshots id) verdict := by
  unfold predictAggregate
  rw [foldl_gather_used hr hs hread]
  simp only [List.length_map, hr.cfg, hr.snapshot]
  by_cases hq : (usedObservations s now id).length < (s.feeds id).minPublishers
  · rw [if_pos hq]
    refine ⟨.skipped .quorumNotMet (usedObservations s now id).length, ?_, rfl⟩
    rw [assess_eq, if_pos hq]
    rfl
  · have hne := feedPrices_ne_nil hs hl hq
    have hmed := middle_isPrice (hs.isPrice id) hne
    have hused : usedObservations s now id ≠ [] := by
      intro hnil
      have hlen := feedPrices_length s now id
      rw [hnil, List.length_nil] at hlen
      exact hne (List.eq_nil_of_length_eq_zero hlen)
    have hmedian : median ((usedObservations s now id).map (·.price)) = middle (feedPrices s now id) := median_eq _
    have hpast : ∀ o ∈ usedObservations s now id, o.publishTime ≤ now := used_past hs
    have holdest : (usedObservations s now id).foldl (fun t o => if o.publishTime < t then o.publishTime else t)
        MAX_SAFE_INTEGER = oldestOf (usedObservations s now id) :=
      foldl_oldest hused (fun o ho => (hpast o ho).trans hsafe)
        (fun o ho => (hpast o ho).trans (hsafe.trans (by decide)))
    have hspreads : (((usedObservations s now id).map (·.price)).any fun p => decide (absDiff p
        (middle (feedPrices s now id)) > applyBps (middle (feedPrices s now id)) (s.feeds id).maxSpreadBps)) =
        decide (¬ ∀ p ∈ feedPrices s now id,
          |p - middle (feedPrices s now id)| ≤ bpsOf (middle (feedPrices s now id)) (s.feeds id).maxSpreadBps) := by
      rw [Bool.eq_iff_iff, List.any_eq_true, decide_eq_true_eq]
      simp only [decide_eq_true_eq, absDiff_eq, applyBps_eq, not_forall, not_le, gt_iff_lt, exists_prop,
        (feedPrices_perm s now id).mem_iff]
    have hstale : decide ((now : Int) - (s.snapshots id).writeTime > (s.feeds id).maxAge) =
        decide (now - (s.snapshots id).writeTime > (s.feeds id).maxAge) := by
      have hwritten := (hs.snapshots id).2.1
      rw [decide_eq_decide]
      omega
    have hjumps : ((s.feeds id).maxJumpBps ≠ 0 ∧ (s.snapshots id).price > 0 ∧
        decide (now - (s.snapshots id).writeTime > (s.feeds id).maxAge) = false ∧
        absDiff (middle (feedPrices s now id)) (s.snapshots id).price >
          applyBps (s.snapshots id).price (s.feeds id).maxJumpBps) ↔
        ¬ JumpAllowed now (s.feeds id) (s.snapshots id) (middle (feedPrices s now id)) := by
      rw [absDiff_eq, applyBps_eq, decide_eq_false_iff_not, not_lt, JumpAllowed]
      simp only [Classical.not_imp, not_le, gt_iff_lt, ne_eq]
    rw [if_neg hq, assess_guards hs hl msg hq hf, hmedian, holdest, hspreads, hstale]
    simp only [decide_eq_true_eq, hjumps]
    by_cases hspread : ∀ p ∈ feedPrices s now id,
        |p - middle (feedPrices s now id)| ≤ bpsOf (middle (feedPrices s now id)) (s.feeds id).maxSpreadBps
    · rw [if_neg (not_not.2 hspread), if_neg (not_not.2 hspread)]
      by_cases hold : oldestOf (usedObservations s now id) < (s.snapshots id).publishTime
      · rw [if_pos hold, if_pos hold]
        exact ⟨_, rfl, rfl⟩
      · rw [if_neg hold, if_neg hold]
        by_cases hjump : JumpAllowed now (s.feeds id) (s.snapshots id) (middle (feedPrices s now id))
        · rw [if_neg (not_not.2 hjump), if_neg (not_not.2 hjump)]
          rcases guardReference_eq hr hs hmed (usedObservations s now id).length
            (.update (middle (feedPrices s now id)) (usedObservations s now id).length
              (reanchors now (s.feeds id) (s.snapshots id))) with ⟨hskips, hguard⟩ | ⟨reason, hskips, hne, hguard⟩
          · rw [hskips]
            refine ⟨_, rfl, ?_⟩
            exact congrArg Prediction.outcome hguard
          · rw [hskips]
            refine ⟨_, rfl, ?_⟩
            refine (congrArg Prediction.outcome hguard).trans ?_
            cases reason <;> first | rfl | exact absurd rfl hne
        · rw [if_pos hjump, if_pos hjump]
          exact ⟨_, rfl, rfl⟩
    · rw [if_pos hspread, if_pos hspread]
      exact ⟨_, rfl, rfl⟩

/-- **The prediction is exact.** Over sound storage, for any observation a push accepts and a publisher's state read from
the contract, the contract's aggregation reaches the outcome the publisher predicts: the same skip, or an update to the
same median that re-anchors exactly when predicted. -/
theorem prediction_exact {price confidence : Int} (hs : SoundFeeds now s) (hsafe : now ≤ MAX_SAFE_INTEGER)
    (hnow : publishTime ≤ now) (hp : Pushable now s msg.sender publishTime (id, price, confidence))
    (hr : Reads now msg s id feed)
    (hf : MiddleFits (feedPrices (withObservation s msg.sender publishTime (id, price, confidence)) now id)) :
    ∃ verdict,
      assess now msg (withObservation s msg.sender publishTime (id, price, confidence)) id (s.feeds id) = .ok verdict ∧
      OracleAdapter.pushOne now msg publishTime s (id, price, confidence) =
        .ok (verdict.store (withObservation s msg.sender publishTime (id, price, confidence)) id) ∧
      (predictAggregate feed s.publishers msg.sender ⟨price, confidence, publishTime⟩ now).outcome =
        outcomeOf now (s.feeds id) (s.snapshots id) verdict := by
  have hread : ∀ p ∈ s.publishers,
      (if p = msg.sender then some ⟨price, confidence, publishTime⟩ else feed.observations p) =
        some ((withObservation s msg.sender publishTime (id, price, confidence)).observations (id, p)) := by
    intro p hmem
    unfold withObservation OracleAdapter.observe
    by_cases hself : p = msg.sender
    · rw [if_pos hself, hself]
      simp
    · rw [if_neg hself, hr.observations p hmem]
      show some _ = some (update s.observations (id, msg.sender) _ (id, p))
      rw [Function.update_of_ne fun h => hself (Prod.ext_iff.1 h).2]
  have hstored : ReadsFeed now msg (withObservation s msg.sender publishTime (id, price, confidence)) id feed :=
    ⟨hr.cfg, hr.snapshot, hr.reference, hr.reading⟩
  obtain ⟨verdict, hverdict, houtcome⟩ :=
    predictAggregate_outcome hstored (withObservation_sound hs hp hnow) hp.listed hsafe hf hread
  refine ⟨verdict, hverdict, ?_, houtcome⟩
  rw [pushOne_eq hp]
  show (do
    let verdict ← assess now msg (withObservation s msg.sender publishTime (id, price, confidence)) id (s.feeds id)
    pure (verdict.store (withObservation s msg.sender publishTime (id, price, confidence)) id) :
      Except Error OracleStorage) = _
  change assess now msg (withObservation s msg.sender publishTime (id, price, confidence)) id (s.feeds id) = _ at hverdict
  rw [hverdict]
  rfl

/-- Alice's observation waits for a second one, and the administrator's makes the quorum. -/
def Sample.waiting : List Call := [
  Sample.call Sample.admin (.config (.setPublishers [Sample.admin, Sample.alice])),
  Sample.call Sample.admin (.config (.setFeed 1 { Sample.feed with minPublishers := 2 })),
  Sample.call Sample.alice (.config (.pushPrices [1] [100 * 10 ^ 18] [0] 1000))]

theorem prediction_exact_waiting : ∃ verdict,
    assess 1000 (Sample.push 0 0).msg (withObservation (Sample.outcome Sample.waiting).oracle Sample.admin 1000
      (1, 100 * 10 ^ 18 + 3, 0)) 1 ((Sample.outcome Sample.waiting).oracle.feeds 1) = .ok verdict ∧
    (predictAggregate (readFeed (Sample.outcome Sample.waiting).oracle 1 none)
        (Sample.outcome Sample.waiting).oracle.publishers Sample.admin ⟨100 * 10 ^ 18 + 3, 0, 1000⟩ 1000).outcome =
      outcomeOf 1000 ((Sample.outcome Sample.waiting).oracle.feeds 1) ((Sample.outcome Sample.waiting).oracle.snapshots 1)
        verdict ∧
    (predictAggregate (readFeed (Sample.outcome Sample.waiting).oracle 1 none)
        (Sample.outcome Sample.waiting).oracle.publishers Sample.admin ⟨100 * 10 ^ 18 + 3, 0, 1000⟩ 1000) =
      .update (100 * 10 ^ 18 + 1) 2 false := by
  have hs : SoundFeeds 1000 (Sample.outcome Sample.waiting).oracle :=
    reachable_soundFeeds (Sample.outcome_reachable Sample.waiting)
  have hp : Pushable 1000 (Sample.outcome Sample.waiting).oracle (Sample.push 0 0).msg.sender 1000
      (1, 100 * 10 ^ 18 + 3, 0) :=
    ⟨by decide +kernel, by decide +kernel, by decide, by decide, by decide +kernel, by decide +kernel⟩
  obtain ⟨verdict, hverdict, -, houtcome⟩ := prediction_exact hs (by decide) (le_refl 1000) hp
    (readFeed_reads rfl) (by decide +kernel)
  exact ⟨verdict, hverdict, houtcome, by decide +kernel⟩

end Publisher
end Kryon
