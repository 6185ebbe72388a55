import Kryon.World
/-!
# OracleAdapter — pushed observations, their quorum median and the guarded price read

Each publisher's latest observation is stored and a feed is re-aggregated after every push.  A guard that fails skips the
update and leaves the previous snapshot in place; only an arithmetic or a decoding failure reverts.
-/
namespace Kryon.OracleAdapter

open Program
open Function (update)

def MAX_PUBLISHERS : Nat := 5
def MAX_FEED_AGE : Nat := 300
def MAX_REF_AGE : Nat := 2 * 86400
def MIN_REF_DIVERGENCE_BPS : Nat := 10
def MAX_BPS : Nat := 10000

/-! ## Configuration -/

def grantPublishers (roles : Role → Address → Bool) (keys : List Address) (held : Bool) : Role → Address → Bool :=
  update roles .publisher (fun a => if a ∈ keys then held else roles .publisher a)

/-- Each key must be set and distinct from the ones before it. -/
def checkKeys (seen : List Address) : List Address → Except Error Unit
  | [] => pure ()
  | k :: keys => do
    revertIf (k = 0) .zeroAddress
    revertIf (k ∈ seen) .duplicateOracleSource
    checkKeys (seen ++ [k]) keys

/-- Replaces the publisher set; the old keys lose the role and the new ones gain it. -/
def setPublishers (w : World) (msg : Msg) (keys : List Address) : Except Error World := do
  w.onlyRole .oracle .riskAdmin msg.sender
  revertIf (keys.length = 0 ∨ keys.length > MAX_PUBLISHERS) .invalidConfig
  let revoked := grantPublishers (w.roles .oracle) w.oracle.publishers false
  checkKeys [] keys
  let granted := grantPublishers revoked keys true
  pure { w with roles := update w.roles .oracle granted, oracle := { w.oracle with publishers := keys } }

def setFeed (w : World) (msg : Msg) (id : Nat) (cfg : FeedConfig) : Except Error World := do
  w.onlyRole .oracle .riskAdmin msg.sender
  revertIf (id = 0) .invalidConfig
  revertIf (cfg.maxAge = 0 ∨ cfg.maxAge > MAX_FEED_AGE) .invalidConfig
  revertIf (cfg.maxConfidenceBps > MAX_BPS ∨ cfg.maxSpreadBps > MAX_BPS ∨ cfg.maxJumpBps > MAX_BPS) .invalidConfig
  revertIf (cfg.minPublishers = 0 ∨ cfg.minPublishers > MAX_PUBLISHERS) .invalidConfig
  let feedIds := if (w.oracle.feeds id).listed then w.oracle.feedIds else w.oracle.feedIds ++ [id]
  pure { w with oracle := { w.oracle with
    feedIds := feedIds
    feeds := update w.oracle.feeds id { cfg with listed := true } } }

def checkReference (msg : Msg) (ref : ReferenceFeed) : Except Error Unit := do
  revertIf (ref.aggregator = 0) .zeroAddress
  revertIf (msg.hasCode ref.aggregator = false) .invalidConfig
  revertIf (ref.maxDivergenceBps < MIN_REF_DIVERGENCE_BPS ∨ ref.maxDivergenceBps > MAX_BPS) .invalidConfig
  revertIf (ref.maxRefAge = 0 ∨ ref.maxRefAge > MAX_REF_AGE) .invalidConfig

def setReferenceFeed (w : World) (msg : Msg) (id : Nat) (ref : ReferenceFeed) : Except Error World := do
  w.onlyRole .oracle .riskAdmin msg.sender
  revertIf ((w.oracle.feeds id).listed = false) (.unknownFeed id)
  (if ref.enabled then checkReference msg ref else pure ())
  pure { w with oracle := { w.oracle with refs := update w.oracle.refs id ref } }

/-! ## Aggregation -/

/-- One turn of the insertion sort: `key` moves left past every larger price.  The sorted part is held last first. -/
def insertKey (key : Int) : List Int → List Int
  | [] => [key]
  | a :: rest => if a > key then a :: insertKey key rest else key :: a :: rest

def sort (prices : List Int) : List Int := (prices.foldl (fun sorted key => insertKey key sorted) []).reverse

def median (sorted : List Int) : Except Error Int :=
  let count := sorted.length
  if count % 2 = 1 then pure (sorted.getD (count / 2) 0)
  else do
    let s ← M.add (sorted.getD (count / 2 - 1) 0) (sorted.getD (count / 2) 0)
    pure (s.tdiv 2)

/-- An external cross-check, `none` when it is unreadable, non-positive or stale.  Return data of the wrong shape is
decoded outside the `try`, so it reverts. -/
def readReference (now : Nat) (msg : Msg) (ref : ReferenceFeed) : Except Error (Option Int) :=
  if msg.hasCode ref.aggregator = false then pure none
  else
    match (msg.aggregator ref.aggregator).decimals with
    | .reverted => pure none
    | .malformed => .error .abiDecoding
    | .value dec =>
      if dec > 18 then pure none
      else
        match (msg.aggregator ref.aggregator).latestRoundData with
        | .reverted => pure none
        | .malformed => .error .abiDecoding
        | .value (answer, updatedAt) =>
          if answer ≤ 0 ∨ updatedAt > now then pure none
          else if now - updatedAt > ref.maxRefAge then pure none
          else if answer > I128_MAX / 10 ^ (18 - dec) then pure none
          else pure (some (answer * 10 ^ (18 - dec)))

/-- The observations of the current publishers that are still fresh. -/
def freshObservations (s : OracleStorage) (now id maxAge : Nat) : List Observation :=
  (s.publishers.map (fun p => s.observations (id, p))).filter
    (fun o => ¬ (o.publishTime = 0 ∨ now - o.publishTime > maxAge))

/-- Whether every source lies within the spread of the median. -/
def withinSpread (median maxSpread : Int) : List Int → Except Error Bool
  | [] => pure true
  | p :: rest => do
    let d ← M.sub p median
    if M.abs d > maxSpread then pure false else withinSpread median maxSpread rest

/-- The reason a feed's update is skipped for. -/
inductive SkipReason where
  | quorumNotMet
  | spreadTooWide
  | jumpTooLarge
  | referenceDiverged
  | referenceUnavailable
  | notMonotonic
  deriving DecidableEq

/-- The outcome of an aggregation: the new snapshot, or the reason and the candidate of a skipped update. -/
inductive Verdict where
  | updated (snap : OracleSnapshot)
  | skipped (reason : SkipReason) (candidate : Int)
  deriving DecidableEq

/-- The reference guard: the reason it skips the update for, if any. -/
def referenceSkips (now : Nat) (msg : Msg) (ref : ReferenceFeed) (median : Int) : Except Error (Option SkipReason) :=
  if ref.enabled = false then pure none
  else do
    match ← readReference now msg ref with
    | none => pure (if ref.required then some .referenceUnavailable else none)
    | some refPrice => do
      let d ← M.sub median refPrice
      let bound ← M.applyBps refPrice ref.maxDivergenceBps
      pure (if M.abs d > bound then some .referenceDiverged else none)

/-- The jump guard, which binds only while the previous snapshot is fresh. -/
def jumpAllows (now : Nat) (cfg : FeedConfig) (prev : OracleSnapshot) (median : Int) : Except Error Bool :=
  if cfg.maxJumpBps ≠ 0 ∧ prev.price > 0 ∧ ¬ now - prev.writeTime > cfg.maxAge then do
    let d ← M.sub median prev.price
    let bound ← M.applyBps prev.price cfg.maxJumpBps
    pure (decide (¬ M.abs d > bound))
  else pure true

/-- What `_aggregate` decides for a feed. -/
def assess (now : Nat) (msg : Msg) (s : OracleStorage) (id : Nat) (cfg : FeedConfig) : Except Error Verdict := do
  let fresh := freshObservations s now id cfg.maxAge
  let count := fresh.length
  if count < cfg.minPublishers then pure (.skipped .quorumNotMet count)
  else do
    let prices := sort (fresh.map (·.price))
    let maxConfidence := fresh.foldl (fun c o => if o.confidence > c then o.confidence else c) 0
    let oldest := fresh.foldl (fun t o => if o.publishTime < t then o.publishTime else t) (2 ^ 64 - 1)
    let med ← median prices
    let maxSpread ← M.applyBps med cfg.maxSpreadBps
    let spread ← withinSpread med maxSpread prices
    let prev := s.snapshots id
    if spread = false then pure (.skipped .spreadTooWide med)
    else if oldest < prev.publishTime then pure (.skipped .notMonotonic med)
    else do
      let jump ← jumpAllows now cfg prev med
      if jump = false then pure (.skipped .jumpTooLarge med)
      else do
        match ← referenceSkips now msg (s.refs id) med with
        | some reason => pure (.skipped reason med)
        | none => pure (.updated ⟨med, maxConfidence, oldest, now, .quorum, count⟩)

/-- Stores the snapshot of an update; a skipped one leaves the last snapshot in place. -/
def Verdict.store (s : OracleStorage) (id : Nat) : Verdict → OracleStorage
  | .updated snap => { s with snapshots := update s.snapshots id snap }
  | .skipped _ _ => s

def aggregate (now : Nat) (msg : Msg) (s : OracleStorage) (id : Nat) (cfg : FeedConfig) :
    Except Error OracleStorage := do
  let verdict ← assess now msg s id cfg
  pure (verdict.store s id)

/-- Stores a publisher's observation of a feed. -/
def observe (s : OracleStorage) (id : Nat) (publisher : Address) (o : Observation) : OracleStorage :=
  { s with observations := update s.observations (id, publisher) o }

/-- One turn of the push loop: store the caller's observation of one feed and re-aggregate it. -/
def pushOne (now : Nat) (msg : Msg) (publishTime : Nat) (s : OracleStorage) (e : Nat × Int × Int) :
    Except Error OracleStorage := do
  let (id, rawPrice, rawConfidence) := e
  let cfg := s.feeds id
  revertIf (cfg.listed = false) (.unknownFeed id)
  revertIf (cfg.active = false) .invalidConfig
  let price ← M.bound128 rawPrice
  let confidence ← M.bound128 rawConfidence
  revertIf (price ≤ 0 ∨ confidence < 0) .invalidPrice
  revertIf (now - publishTime > cfg.maxAge) .staleOracle
  revertIf (publishTime ≤ (s.observations (id, msg.sender)).publishTime) .staleOracle
  aggregate now msg (observe s id msg.sender ⟨price, confidence, publishTime⟩) id cfg

def pushPrices (w : World) (msg : Msg) (ids : List Nat) (prices confidences : List Int) (publishTime : Nat) :
    Except Error World := do
  w.onlyRole .oracle .publisher msg.sender
  w.whenNotPaused .oracle
  revertIf (ids.length ≠ prices.length ∨ ids.length ≠ confidences.length) .invalidConfig
  revertIf (publishTime > w.timestamp) .staleOracle
  let s ← (ids.zip (prices.zip confidences)).foldlM (pushOne w.timestamp msg publishTime) w.oracle
  pure { w with oracle := s }

/-! ## Reads -/

def validate (now : Nat) (s : OracleSnapshot) (maxAge maxConfidenceBps : Nat) : Except Error Unit := do
  revertIf (s.price ≤ 0) .invalidPrice
  revertIf (s.publishTime > now ∨ s.writeTime > now) .staleOracle
  revertIf (now - s.publishTime > maxAge ∨ now - s.writeTime > maxAge) .staleOracle
  revertIf (s.confidence < 0) .invalidPrice
  let bound ← M.applyBps s.price maxConfidenceBps
  revertIf (s.confidence > bound) .oracleConfidenceTooWide

/-- A validated price; a zero bound takes the feed's own. -/
def getPrice (w : World) (id maxAge maxConfidenceBps : Nat) : Except Error OracleSnapshot := do
  let cfg := w.oracle.feeds id
  revertIf (cfg.listed = false) (.unknownFeed id)
  revertIf (cfg.active = false) .invalidConfig
  let snap := w.oracle.snapshots id
  revertIf (snap.source ≠ .quorum) .staleOracle
  validate w.timestamp snap (if maxAge = 0 then cfg.maxAge else maxAge)
    (if maxConfidenceBps = 0 then cfg.maxConfidenceBps else maxConfidenceBps)
  pure snap

end Kryon.OracleAdapter
