import Kryon.Lib.Median
import Kryon.Effects
/-!
# Feeds — what an aggregation reads, decides and can fail on

On stored observations that passed the push checks every step of an aggregation is plain arithmetic (`assess_eq`), but for
two: the sum of two middle prices can leave the i128 range, and the reference's return data can fail to decode.
-/
namespace Kryon

open Program Transition
open OracleAdapter
open Median (middle IsMedian)
open Function (update)

variable {D : Deployment} {env : Env} {w w' : World} {msg : Msg} {s s' : OracleStorage} {now id : Nat}
  {med : Int} {prices : List Int}

/-- A price a publisher can have stored. -/
def IsPrice (p : Int) : Prop := 0 < p ∧ p ≤ I128_MAX

instance (p : Int) : Decidable (IsPrice p) := inferInstanceAs (Decidable (_ ∧ _))

theorem IsPrice.inRange {p : Int} (h : IsPrice p) : M.InRange p := by
  unfold IsPrice at h
  unfold M.InRange I128_MIN
  omega

theorem IsPrice.sub_eq {p q : Int} (hp : IsPrice p) (hq : IsPrice q) : M.sub p q = .ok (p - q) := by
  rw [M.sub_ok]
  refine ⟨⟨hp.inRange, hq.inRange, ?_⟩, rfl⟩
  unfold IsPrice at hp hq
  unfold M.InRange I128_MIN
  unfold I128_MAX at *
  omega

/-- A share of a price, in basis points, rounded down. -/
def bpsOf (p : Int) (bps : Nat) : Int := (p * bps).tdiv 10000

theorem IsPrice.applyBps_eq {p : Int} {bps : Nat} (hp : IsPrice p) (hbps : bps ≤ 10000) :
    M.applyBps p bps = .ok (bpsOf p bps) := by
  have hprod : 0 ≤ p * bps := mul_nonneg hp.1.le (Int.natCast_nonneg bps)
  have hle : (p * bps).tdiv 10000 ≤ p := by
    rw [Int.tdiv_eq_ediv_of_nonneg hprod]
    refine Int.ediv_le_of_le_mul (by decide) ?_
    exact mul_le_mul_of_nonneg_left (by omega) hp.1.le
  have hnonneg : 0 ≤ (p * bps).tdiv 10000 := Int.tdiv_nonneg hprod (by decide)
  have hmax := hp.2
  rw [M.applyBps_ok]
  refine ⟨⟨by simp only [M.BPS_DENOMINATOR]; omega, hp.inRange, ?_⟩, rfl⟩
  show M.InRange ((p * bps).tdiv 10000)
  unfold M.InRange I128_MIN
  omega

/-! ## Sorting and the median -/

theorem insertKey_eq (key : Int) : ∀ l, insertKey key l = List.orderedInsert (· ≥ ·) key l
  | [] => rfl
  | a :: rest => by
    rw [insertKey, List.orderedInsert_cons]
    by_cases h : a > key
    · rw [if_pos h, if_neg (by omega), insertKey_eq key rest]
    · rw [if_neg h, if_pos (by omega)]

theorem foldr_insertKey : ∀ l : List Int, l.foldr insertKey [] = l.insertionSort (· ≥ ·)
  | [] => rfl
  | a :: l => by rw [List.foldr_cons, foldr_insertKey l, insertKey_eq, List.insertionSort_cons]

/-- **The source's insertion sort sorts.** -/
theorem sort_spec (prices : List Int) : (sort prices).Perm prices ∧ (sort prices).Pairwise (· ≤ ·) := by
  have hsort : sort prices = (prices.reverse.insertionSort (· ≥ ·)).reverse := by
    unfold sort
    rw [List.foldl_eq_foldr_reverse, foldr_insertKey]
  rw [hsort]
  exact Median.reverse_insertionSort prices

/-- The prices are an odd number, or their two middle ones have a sum in range. -/
def MiddleFits (sorted : List Int) : Prop :=
  sorted.length % 2 = 1 ∨ sorted.getD (sorted.length / 2 - 1) 0 + sorted.getD (sorted.length / 2) 0 ≤ I128_MAX

instance (sorted : List Int) : Decidable (MiddleFits sorted) := inferInstanceAs (Decidable (_ ∨ _))

theorem getD_isPrice {sorted : List Int} (hall : ∀ p ∈ sorted, IsPrice p) {k : Nat} (hk : k < sorted.length) :
    IsPrice (sorted.getD k 0) := by
  rw [List.getD_eq_getElem _ _ hk]
  exact hall _ (List.getElem_mem hk)

theorem IsPrice.add_eq {p q : Int} (hp : IsPrice p) (hq : IsPrice q) (h : p + q ≤ I128_MAX) :
    M.add p q = .ok (p + q) := by
  have hp0 := hp.1
  have hq0 := hq.1
  rw [M.add_ok]
  refine ⟨⟨hp.inRange, hq.inRange, ?_⟩, rfl⟩
  unfold M.InRange I128_MIN
  omega

theorem IsPrice.add_overflow {p q : Int} (hp : IsPrice p) (hq : IsPrice q) (h : ¬ p + q ≤ I128_MAX) :
    M.add p q = .error .mathOverflow := by
  have hbound : ∀ v, M.InRange v → M.bound128 v = .ok v := fun v hv => (M.bound128_ok v v).2 ⟨hv, rfl⟩
  unfold M.add
  rw [hbound p hp.inRange, hbound q hq.inRange]
  show M.bound128 (p + q) = .error .mathOverflow
  exact if_pos (Or.inl (not_le.1 h))

/-- **The median of prices is their middle, when the two middle ones have a sum in range.** -/
theorem median_ok {sorted : List Int} (hall : ∀ p ∈ sorted, IsPrice p) (hne : sorted ≠ []) (h : MiddleFits sorted) :
    median sorted = .ok (middle sorted) := by
  have hpos := List.length_pos_of_ne_nil hne
  unfold median middle
  simp only
  by_cases hodd : sorted.length % 2 = 1
  · rw [if_pos hodd, if_pos hodd]
    rfl
  · have hp := getD_isPrice hall (k := sorted.length / 2 - 1) (by omega)
    have hq := getD_isPrice hall (k := sorted.length / 2) (by omega)
    rw [if_neg hodd, if_neg hodd, hp.add_eq hq (h.resolve_left hodd)]
    rfl

theorem median_overflow {sorted : List Int} (hall : ∀ p ∈ sorted, IsPrice p) (hne : sorted ≠ [])
    (h : ¬ MiddleFits sorted) : median sorted = .error .mathOverflow := by
  have hpos := List.length_pos_of_ne_nil hne
  have hodd : ¬ sorted.length % 2 = 1 := fun hodd => h (Or.inl hodd)
  have hp := getD_isPrice hall (k := sorted.length / 2 - 1) (by omega)
  have hq := getD_isPrice hall (k := sorted.length / 2) (by omega)
  unfold median
  simp only
  rw [if_neg hodd, hp.add_overflow hq fun hle => h (Or.inr hle)]
  rfl

theorem middle_isPrice {sorted : List Int} (hall : ∀ p ∈ sorted, IsPrice p) (hne : sorted ≠ []) :
    IsPrice (middle sorted) := by
  have hmem : 1 ≤ middle sorted ∧ middle sorted ≤ I128_MAX := Median.middle_mem hne fun k hk _ => by
    have hk := getD_isPrice hall hk
    exact ⟨hk.1, hk.2⟩
  exact ⟨hmem.1, hmem.2⟩

/-! ## Guards -/

theorem withinSpread_eq (maxSpread : Int) (hmed : IsPrice med) : ∀ {prices : List Int}, (∀ p ∈ prices, IsPrice p) →
    withinSpread med maxSpread prices = .ok (decide (∀ p ∈ prices, |p - med| ≤ maxSpread))
  | [], _ => by
    simp only [withinSpread, List.not_mem_nil, false_imp_iff, implies_true, decide_true]
    rfl
  | p :: rest, hall => by
    rw [List.forall_mem_cons] at hall
    have hsub := hall.1.sub_eq hmed
    unfold withinSpread
    rw [hsub]
    show (if M.abs (p - med) > maxSpread then pure false else withinSpread med maxSpread rest) = _
    rw [M.abs_eq]
    by_cases h : |p - med| > maxSpread
    · rw [if_pos h]
      simp only [List.forall_mem_cons, not_le.2 h, false_and, decide_false]
      rfl
    · rw [if_neg h, withinSpread_eq maxSpread hmed hall.2]
      simp only [List.forall_mem_cons, not_lt.1 h, true_and]

/-- The jump guard lets a candidate pass: it does not bind, or the candidate is within the jump bound. -/
def JumpAllowed (now : Nat) (cfg : FeedConfig) (prev : OracleSnapshot) (med : Int) : Prop :=
  cfg.maxJumpBps ≠ 0 → 0 < prev.price → now - prev.writeTime ≤ cfg.maxAge →
    |med - prev.price| ≤ bpsOf prev.price cfg.maxJumpBps

instance (now : Nat) (cfg : FeedConfig) (prev : OracleSnapshot) (med : Int) : Decidable (JumpAllowed now cfg prev med) :=
  inferInstanceAs (Decidable (_ → _ → _ → _))

theorem jumpAllows_eq (now : Nat) {cfg : FeedConfig} {prev : OracleSnapshot} (hmed : IsPrice med) (hprev : prev.price ≤ I128_MAX)
    (hbps : cfg.maxJumpBps ≤ 10000) :
    jumpAllows now cfg prev med = .ok (decide (JumpAllowed now cfg prev med)) := by
  unfold jumpAllows JumpAllowed
  by_cases hbinds : cfg.maxJumpBps ≠ 0 ∧ prev.price > 0 ∧ ¬ now - prev.writeTime > cfg.maxAge
  · have hp : IsPrice prev.price := ⟨hbinds.2.1, hprev⟩
    rw [if_pos hbinds, hmed.sub_eq hp, hp.applyBps_eq hbps]
    show Except.ok (decide (¬ M.abs (med - prev.price) > bpsOf prev.price cfg.maxJumpBps)) = _
    rw [M.abs_eq]
    refine congrArg Except.ok (decide_eq_decide.2 ?_)
    constructor
    · exact fun h _ _ _ => not_lt.1 h
    · exact fun h => not_lt.2 (h hbinds.1 hbinds.2.1 (not_lt.1 hbinds.2.2))
  · rw [if_neg hbinds]
    refine congrArg Except.ok (decide_eq_true ?_).symm
    exact fun h₁ h₂ h₃ => absurd ⟨h₁, h₂, not_lt.2 h₃⟩ hbinds

/-- What the reference's aggregator returns decodes, or is not asked for. -/
def Decodes (msg : Msg) (ref : ReferenceFeed) : Prop :=
  ref.enabled = true → msg.hasCode ref.aggregator = true →
    (match (msg.aggregator ref.aggregator).decimals with
    | .reverted => True
    | .malformed => False
    | .value dec => dec ≤ 18 → match (msg.aggregator ref.aggregator).latestRoundData with
      | .malformed => False
      | _ => True)

/-- **A reference is read unless its return data does not decode**, and what is read is a price. -/
theorem readReference_ok (now : Nat) {ref : ReferenceFeed} (hd : Decodes msg ref) (hen : ref.enabled = true) :
    ∃ r, readReference now msg ref = .ok r ∧ ∀ p, r = some p → IsPrice p := by
  have hnone : ∃ r, (pure none : Except Error (Option Int)) = .ok r ∧ ∀ p, r = some p → IsPrice p :=
    ⟨none, rfl, fun _ hp => absurd hp (by simp)⟩
  unfold readReference
  by_cases hcode : msg.hasCode ref.aggregator = false
  · rw [if_pos hcode]
    exact hnone
  · rw [if_neg hcode]
    have hd := hd hen (Bool.eq_true_of_not_eq_false hcode)
    cases hdec : (msg.aggregator ref.aggregator).decimals with
    | reverted => exact hnone
    | malformed =>
      rw [hdec] at hd
      exact absurd hd id
    | value dec =>
      rw [hdec] at hd
      simp only at hd ⊢
      by_cases h18 : dec > 18
      · rw [if_pos h18]
        exact hnone
      · rw [if_neg h18]
        have hd := hd (not_lt.1 h18)
        cases hround : (msg.aggregator ref.aggregator).latestRoundData with
        | reverted => exact hnone
        | malformed =>
          rw [hround] at hd
          exact absurd hd id
        | value round =>
          obtain ⟨answer, updatedAt⟩ := round
          simp only
          split
          · exact hnone
          · rename_i hpos
            split
            · exact hnone
            · split
              · exact hnone
              · rename_i hcap
                refine ⟨_, rfl, fun p hp => ?_⟩
                rw [← Option.some.inj hp]
                have hscale : (0 : Int) < 10 ^ (18 - dec) := by positivity
                have hans : 0 < answer := by omega
                refine ⟨mul_pos hans hscale, ?_⟩
                exact (Int.le_ediv_iff_mul_le hscale).1 (not_lt.1 hcap)

theorem readReference_malformed (now : Nat) {ref : ReferenceFeed} (hd : ¬ Decodes msg ref) :
    ref.enabled = true ∧ readReference now msg ref = .error .abiDecoding := by
  unfold Decodes at hd
  simp only [Classical.not_imp] at hd
  obtain ⟨hen, hcode, hd⟩ := hd
  refine ⟨hen, ?_⟩
  unfold readReference
  rw [if_neg (by rw [hcode]; decide)]
  cases hdec : (msg.aggregator ref.aggregator).decimals with
  | reverted =>
    rw [hdec] at hd
    exact absurd trivial hd
  | malformed => rfl
  | value dec =>
    rw [hdec] at hd
    simp only [Classical.not_imp] at hd ⊢
    obtain ⟨h18, hd⟩ := hd
    rw [if_neg (not_lt.2 h18)]
    cases hround : (msg.aggregator ref.aggregator).latestRoundData with
    | malformed => rfl
    | _ =>
      rw [hround] at hd
      exact absurd trivial hd

/-- Why a reference reading skips a candidate, if it does. -/
def referenceReason (ref : ReferenceFeed) (med : Int) : Option Int → Option SkipReason
  | none => if ref.required then some .referenceUnavailable else none
  | some p => if |med - p| > bpsOf p ref.maxDivergenceBps then some .referenceDiverged else none

theorem referenceSkips_eq (now : Nat) {ref : ReferenceFeed} {r : Option Int} (hmed : IsPrice med)
    (hen : ref.enabled = true) (hread : readReference now msg ref = .ok r) (hprice : ∀ p, r = some p → IsPrice p)
    (hbps : ref.maxDivergenceBps ≤ 10000) : referenceSkips now msg ref med = .ok (referenceReason ref med r) := by
  unfold referenceSkips
  rw [if_neg (by rw [hen]; decide), hread]
  cases r with
  | none => rfl
  | some p =>
    have hp := hprice p rfl
    show (do
      let d ← M.sub med p
      let bound ← M.applyBps p ref.maxDivergenceBps
      pure (if M.abs d > bound then some SkipReason.referenceDiverged else none) : Except Error _) = _
    rw [hmed.sub_eq hp, hp.applyBps_eq hbps, referenceReason, ← M.abs_eq]
    rfl

theorem referenceSkips_ok (now : Nat) {ref : ReferenceFeed} (hmed : IsPrice med) (hd : Decodes msg ref)
    (hbps : ref.enabled = true → ref.maxDivergenceBps ≤ 10000) : ∃ r, referenceSkips now msg ref med = .ok r := by
  by_cases hen : ref.enabled = false
  · exact ⟨none, if_pos hen⟩
  · have hen' := Bool.eq_true_of_not_eq_false hen
    obtain ⟨r, hr, hprice⟩ := readReference_ok now hd hen'
    exact ⟨_, referenceSkips_eq now hmed hen' hr hprice (hbps hen')⟩

theorem referenceSkips_malformed (now : Nat) {ref : ReferenceFeed} (hd : ¬ Decodes msg ref) :
    referenceSkips now msg ref med = .error .abiDecoding := by
  obtain ⟨hen, hread⟩ := readReference_malformed now hd
  unfold referenceSkips
  rw [if_neg (by rw [hen]; decide), hread]
  rfl

/-! ## Stored feeds -/

/-- What the configuration and push checks keep of the oracle's storage. -/
structure SoundFeeds (now : Nat) (s : OracleStorage) : Prop where
  publishers : s.publishers.Nodup
  feeds : ∀ id, (s.feeds id).listed = true → 0 < (s.feeds id).minPublishers ∧ (s.feeds id).maxSpreadBps ≤ MAX_BPS ∧
    (s.feeds id).maxJumpBps ≤ MAX_BPS
  refs : ∀ id, (s.refs id).enabled = true → (s.refs id).maxDivergenceBps ≤ MAX_BPS
  observations : ∀ k, (s.observations k).publishTime ≠ 0 → IsPrice (s.observations k).price ∧
    (s.observations k).publishTime ≤ now
  snapshots : ∀ id, (s.snapshots id).price ≤ I128_MAX ∧ (s.snapshots id).writeTime ≤ now ∧
    ((s.snapshots id).source = .quorum → 0 < (s.snapshots id).price)

/-- The observations an aggregation of a feed uses. -/
def usedObservations (s : OracleStorage) (now id : Nat) : List Observation :=
  freshObservations s now id (s.feeds id).maxAge

/-- The sorted prices an aggregation of a feed uses. -/
def feedPrices (s : OracleStorage) (now id : Nat) : List Int := sort ((usedObservations s now id).map (·.price))

def oldestOf (os : List Observation) : Nat :=
  os.foldl (fun t o => if o.publishTime < t then o.publishTime else t) (2 ^ 64 - 1)

/-- Every guard before the reference lets the candidate pass. -/
structure Agreed (now : Nat) (s : OracleStorage) (id : Nat) : Prop where
  spread : ∀ p ∈ feedPrices s now id,
    |p - middle (feedPrices s now id)| ≤ bpsOf (middle (feedPrices s now id)) (s.feeds id).maxSpreadBps
  monotonic : (s.snapshots id).publishTime ≤ oldestOf (usedObservations s now id)
  jump : JumpAllowed now (s.feeds id) (s.snapshots id) (middle (feedPrices s now id))

/-- A feed can be aggregated: it has no quorum, or the median does not overflow and a reference that is read decodes. -/
def Assessable (now : Nat) (msg : Msg) (s : OracleStorage) (id : Nat) : Prop :=
  (usedObservations s now id).length < (s.feeds id).minPublishers ∨
    MiddleFits (feedPrices s now id) ∧ (Agreed now s id → Decodes msg (s.refs id))

theorem feedPrices_perm (s : OracleStorage) (now id : Nat) :
    (feedPrices s now id).Perm ((usedObservations s now id).map (·.price)) := (sort_spec _).1

theorem feedPrices_length (s : OracleStorage) (now id : Nat) :
    (feedPrices s now id).length = (usedObservations s now id).length := by
  rw [(feedPrices_perm s now id).length_eq, List.length_map]

theorem SoundFeeds.isPrice (h : SoundFeeds now s) (id : Nat) : ∀ p ∈ feedPrices s now id, IsPrice p := by
  intro p hp
  obtain ⟨o, ho, rfl⟩ := List.mem_map.1 ((feedPrices_perm s now id).mem_iff.1 hp)
  unfold usedObservations freshObservations at ho
  rw [List.mem_filter, List.mem_map, decide_eq_true_eq, not_or] at ho
  obtain ⟨⟨publisher, -, rfl⟩, hset, -⟩ := ho
  exact (h.observations _ hset).1

/-- The new snapshot of a feed whose update passes every guard. -/
def candidate (now : Nat) (s : OracleStorage) (id : Nat) : OracleSnapshot where
  price := middle (feedPrices s now id)
  confidence := (usedObservations s now id).foldl (fun c o => if o.confidence > c then o.confidence else c) 0
  publishTime := oldestOf (usedObservations s now id)
  writeTime := now
  source := .quorum
  sourceCount := (usedObservations s now id).length

/-- An aggregation, read over what it uses. -/
theorem assess_eq (now : Nat) (msg : Msg) (s : OracleStorage) (id : Nat) : assess now msg s id (s.feeds id) =
    if (usedObservations s now id).length < (s.feeds id).minPublishers then
      pure (.skipped .quorumNotMet (usedObservations s now id).length)
    else (do
      let med ← median (feedPrices s now id)
      let maxSpread ← M.applyBps med (s.feeds id).maxSpreadBps
      let spread ← withinSpread med maxSpread (feedPrices s now id)
      if spread = false then pure (.skipped .spreadTooWide med)
      else if oldestOf (usedObservations s now id) < (s.snapshots id).publishTime then pure (.skipped .notMonotonic med)
      else do
        let jump ← jumpAllows now (s.feeds id) (s.snapshots id) med
        if jump = false then pure (.skipped .jumpTooLarge med)
        else do
          match ← referenceSkips now msg (s.refs id) med with
          | some reason => pure (.skipped reason med)
          | none => pure (.updated { candidate now s id with price := med })) := rfl

section Assess
variable (hs : SoundFeeds now s) (hl : (s.feeds id).listed = true)
include hs hl

theorem feedPrices_ne_nil (hq : ¬ (usedObservations s now id).length < (s.feeds id).minPublishers) :
    feedPrices s now id ≠ [] := by
  intro hnil
  have hmin := (hs.feeds id hl).1
  have hlen := feedPrices_length s now id
  rw [hnil, List.length_nil] at hlen
  omega

/-- **With a quorum and a median in range, an aggregation skips for the first guard that fails.** -/
theorem assess_guards (msg : Msg) (hq : ¬ (usedObservations s now id).length < (s.feeds id).minPublishers)
    (hf : MiddleFits (feedPrices s now id)) :
    assess now msg s id (s.feeds id) =
      if ¬ ∀ p ∈ feedPrices s now id,
          |p - middle (feedPrices s now id)| ≤ bpsOf (middle (feedPrices s now id)) (s.feeds id).maxSpreadBps then
        .ok (.skipped .spreadTooWide (middle (feedPrices s now id)))
      else if oldestOf (usedObservations s now id) < (s.snapshots id).publishTime then
        .ok (.skipped .notMonotonic (middle (feedPrices s now id)))
      else if ¬ JumpAllowed now (s.feeds id) (s.snapshots id) (middle (feedPrices s now id)) then
        .ok (.skipped .jumpTooLarge (middle (feedPrices s now id)))
      else (do
        match ← referenceSkips now msg (s.refs id) (middle (feedPrices s now id)) with
        | some reason => pure (.skipped reason (middle (feedPrices s now id)))
        | none => pure (.updated (candidate now s id))) := by
  have hall := hs.isPrice id
  have hne := feedPrices_ne_nil hs hl hq
  have hmed := middle_isPrice hall hne
  obtain ⟨-, hspread, hjump⟩ := hs.feeds id hl
  have hmedian : median (feedPrices s now id) = .ok (middle (feedPrices s now id)) := median_ok hall hne hf
  have hbps := hmed.applyBps_eq hspread
  have hwithin := withinSpread_eq (bpsOf (middle (feedPrices s now id)) (s.feeds id).maxSpreadBps) hmed hall
  have hjumps := jumpAllows_eq now hmed (hs.snapshots id).1 hjump
  rw [assess_eq, if_neg hq, hmedian, ok_bind, hbps, ok_bind, hwithin, ok_bind]
  by_cases hspread : ∀ p ∈ feedPrices s now id,
      |p - middle (feedPrices s now id)| ≤ bpsOf (middle (feedPrices s now id)) (s.feeds id).maxSpreadBps
  · rw [decide_eq_true hspread, if_neg (by decide), if_neg (not_not.2 hspread)]
    by_cases hold : oldestOf (usedObservations s now id) < (s.snapshots id).publishTime
    · rw [if_pos hold, if_pos hold]
      rfl
    · rw [if_neg hold, if_neg hold, hjumps, ok_bind]
      by_cases hjump : JumpAllowed now (s.feeds id) (s.snapshots id) (middle (feedPrices s now id))
      · rw [decide_eq_true hjump, if_neg (by decide), if_neg (not_not.2 hjump)]
        rfl
      · rw [decide_eq_false hjump, if_pos rfl, if_pos hjump]
        rfl
  · rw [decide_eq_false hspread, if_pos rfl, if_pos hspread]
    rfl

/-- An aggregation either disagrees before it asks the reference, or does what the reference says. -/
theorem assess_quorum (msg : Msg) (hq : ¬ (usedObservations s now id).length < (s.feeds id).minPublishers)
    (hf : MiddleFits (feedPrices s now id)) :
    (∃ reason, ¬ Agreed now s id ∧
      assess now msg s id (s.feeds id) = .ok (.skipped reason (middle (feedPrices s now id)))) ∨
    (Agreed now s id ∧ assess now msg s id (s.feeds id) = do
      match ← referenceSkips now msg (s.refs id) (middle (feedPrices s now id)) with
      | some reason => pure (.skipped reason (middle (feedPrices s now id)))
      | none => pure (.updated (candidate now s id))) := by
  rw [assess_guards hs hl msg hq hf]
  by_cases hspread : ∀ p ∈ feedPrices s now id,
      |p - middle (feedPrices s now id)| ≤ bpsOf (middle (feedPrices s now id)) (s.feeds id).maxSpreadBps
  · rw [if_neg (not_not.2 hspread)]
    by_cases hold : oldestOf (usedObservations s now id) < (s.snapshots id).publishTime
    · rw [if_pos hold]
      exact Or.inl ⟨_, fun h => absurd h.monotonic (not_le.2 hold), rfl⟩
    · rw [if_neg hold]
      by_cases hjump : JumpAllowed now (s.feeds id) (s.snapshots id) (middle (feedPrices s now id))
      · rw [if_neg (not_not.2 hjump)]
        exact Or.inr ⟨⟨hspread, not_lt.1 hold, hjump⟩, rfl⟩
      · rw [if_pos hjump]
        exact Or.inl ⟨_, fun h => hjump h.jump, rfl⟩
  · rw [if_pos hspread]
    exact Or.inl ⟨_, fun h => hspread h.spread, rfl⟩

/-- **An aggregation reverts exactly when its median overflows or the reference it reads does not decode.** -/
theorem assess_isOk_iff : (∃ verdict, assess now msg s id (s.feeds id) = .ok verdict) ↔ Assessable now msg s id := by
  unfold Assessable
  by_cases hq : (usedObservations s now id).length < (s.feeds id).minPublishers
  · rw [assess_eq, if_pos hq]
    exact ⟨fun _ => Or.inl hq, fun _ => ⟨_, rfl⟩⟩
  · have hall := hs.isPrice id
    have hne := feedPrices_ne_nil hs hl hq
    by_cases hf : MiddleFits (feedPrices s now id)
    · have hmed := middle_isPrice hall hne
      rcases assess_quorum hs hl msg hq hf with ⟨reason, hdisagrees, hskips⟩ | ⟨hagreed, hreads⟩
      · exact ⟨fun _ => Or.inr ⟨hf, fun h => absurd h hdisagrees⟩, fun _ => ⟨_, hskips⟩⟩
      · rw [hreads]
        by_cases hd : Decodes msg (s.refs id)
        · obtain ⟨r, hr⟩ := referenceSkips_ok now hmed hd (hs.refs id)
          rw [hr, ok_bind]
          refine ⟨fun _ => Or.inr ⟨hf, fun _ => hd⟩, fun _ => ?_⟩
          cases r with
          | none => exact ⟨_, rfl⟩
          | some reason => exact ⟨_, rfl⟩
        · rw [referenceSkips_malformed now hd]
          constructor
          · rintro ⟨verdict, hv⟩
            cases hv
          · rintro (hlt | ⟨-, hdecodes⟩)
            · exact absurd hlt hq
            · exact absurd (hdecodes hagreed) hd
    · rw [assess_eq, if_neg hq, median_overflow hall hne hf]
      constructor
      · rintro ⟨verdict, hv⟩
        cases hv
      · rintro (hlt | ⟨hfits, -⟩)
        · exact absurd hlt hq
        · exact absurd hfits hf

/-- **An accepted update is the candidate**, of a quorum that agreed. -/
theorem assess_updated {snap : OracleSnapshot} (h : assess now msg s id (s.feeds id) = .ok (.updated snap)) :
    snap = candidate now s id ∧ (s.feeds id).minPublishers ≤ (usedObservations s now id).length ∧
      Agreed now s id ∧ feedPrices s now id ≠ [] := by
  by_cases hq : (usedObservations s now id).length < (s.feeds id).minPublishers
  · rw [assess_eq, if_pos hq] at h
    cases h
  · have hall := hs.isPrice id
    have hne := feedPrices_ne_nil hs hl hq
    by_cases hf : MiddleFits (feedPrices s now id)
    · rcases assess_quorum hs hl msg hq hf with ⟨reason, -, hskips⟩ | ⟨hagreed, hreads⟩
      · rw [hskips] at h
        cases h
      · rw [hreads, bind_ok_iff] at h
        obtain ⟨r, -, hr⟩ := h
        cases r with
        | none =>
          cases hr
          exact ⟨rfl, not_lt.1 hq, hagreed, hne⟩
        | some reason => cases hr
    · rw [assess_eq, if_neg hq, median_overflow hall hne hf] at h
      cases h

end Assess

end Kryon
