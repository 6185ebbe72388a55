import Kryon.BackstopFills
/-!
# Unwinder — the slices of the backstop keeper against the unwind caps

The keeper sets aside what its open orders may still unwind at the worst price, and cuts from what is left of the day's
cap one slice for each position, the largest first (`planUnwind`).  Fills of these orders within the band are worth no
more than what was set aside (`notionals_le`), whatever sizes they come in, so none of them meets the daily cap.
-/
namespace Kryon.Unwinder

open Matching (notionalOf)
open Matcher (UnwindLimits SameDay)

/-! ## The plan -/

structure BackstopPosition where
  marketId : MarketId
  /-- Positive for a long. -/
  size : Int

structure OpenUnwindOrder where
  marketId : MarketId
  isLong : Bool
  /-- The size less what is filled. -/
  remaining : Int
  limitPrice : Int

structure PlanInput where
  positions : List BackstopPosition
  limits : UnwindLimits
  /-- Nothing where the feed is stale or unreadable. -/
  index : MarketId → Option Int
  minFillNotional : MarketId → Option Int
  openOrders : List OpenUnwindOrder
  /-- How far inside the band to price. -/
  priceOffsetBps : Int
  maxOrdersPerTick : Int

structure PlannedSlice where
  marketId : MarketId
  /-- A buy, which closes a short. -/
  isLong : Bool
  size : Int
  limitPrice : Int
  index : Int
  /-- The size at the highest price that a fill could be accepted at. -/
  worstNotional : Int
deriving DecidableEq

inductive SkipReason where
  | orderOpen
  | staleIndex
  | noBudget
  | belowMinNotional
  | notConfigured
  | tickLimit
deriving DecidableEq

structure Plan where
  slices : List PlannedSlice
  skipped : List (MarketId × SkipReason)
  /-- What is left of the day's cap before the slices. -/
  budget : Int
deriving DecidableEq

def BPS : Int := 10000

def ceilDiv (a b : Int) : Int := (a + b - 1).tdiv b

/-- The lowest and the highest price that Insurance accepts. -/
def unwindBand (index : Int) (deviationBps : Nat) : Int × Int :=
  let d := (index * deviationBps).tdiv BPS
  (index - d, index + d)

/-- The highest price a fill of an order can be accepted at: a sell may fill above its limit, within the band. -/
def worstFillPrice (isLong : Bool) (limitPrice index : Int) (deviationBps : Nat) : Int :=
  let high := (unwindBand index deviationBps).2
  if isLong then min limitPrice high else high

/-- The limit price inside the band, towards the counterparty. -/
def unwindLimitPrice (isLong : Bool) (index offsetBps : Int) (deviationBps : Nat) : Int :=
  let off := if offsetBps > deviationBps then (deviationBps : Int) else if offsetBps < 0 then 0 else offsetBps
  let band := unwindBand index deviationBps
  let p := if isLong then (index * (BPS + off)).tdiv BPS else ceilDiv (index * (BPS - off)) BPS
  if p < band.1 then band.1 else if p > band.2 then band.2 else p

/-- What is set aside for an open order: without an index, at its limit and the whole band above. -/
def reservedFor (i : PlanInput) (o : OpenUnwindOrder) : Int :=
  let worst :=
    match (i.index o.marketId).filter (· ≠ 0) with
    | some index => worstFillPrice o.isLong o.limitPrice index i.limits.maxDeviationBps
    | none => (o.limitPrice * (BPS + i.limits.maxDeviationBps)).tdiv BPS
  (o.remaining * worst).tdiv PRECISION + 1

def reserved (i : PlanInput) : Int := (i.openOrders.map (reservedFor i)).sum

def budgetOf (i : PlanInput) : Int :=
  let budget := i.limits.maxDailyNotional - i.limits.usedToday - reserved i
  if budget < 0 then 0 else budget

def exposure (p : BackstopPosition × Option Int) : Int := |p.1.size| * p.2.getD 0

/-- The larger exposure first, and the lower market on a tie. -/
def compareHeld (a b : BackstopPosition × Option Int) : Int :=
  if exposure a = exposure b then (a.1.marketId.toNat : Int) - b.1.marketId.toNat
  else if exposure a > exposure b then -1 else 1

def held (i : PlanInput) : List (BackstopPosition × Option Int) :=
  ((i.positions.filter fun p => p.size ≠ 0).map fun p => (p, i.index p.marketId)).insertionSort
    fun a b => compareHeld a b ≤ 0

structure Planning where
  slices : List PlannedSlice
  skipped : List (MarketId × SkipReason)
  budget : Int

def Planning.skip (s : Planning) (marketId : MarketId) (reason : SkipReason) : Planning :=
  { s with skipped := s.skipped ++ [(marketId, reason)] }

/-- The slice of a position that `cap` pays for at the worst price. -/
def sliceOf (i : PlanInput) (p : BackstopPosition) (index cap : Int) : PlannedSlice :=
  let isLong := decide (p.size < 0)
  let limitPrice := unwindLimitPrice isLong index i.priceOffsetBps i.limits.maxDeviationBps
  let worst := worstFillPrice isLong limitPrice index i.limits.maxDeviationBps
  let size := min |p.size| ((cap * PRECISION).tdiv worst)
  ⟨p.marketId, isLong, size, limitPrice, index, (size * worst).tdiv PRECISION⟩

def planOne (i : PlanInput) (s : Planning) (h : BackstopPosition × Option Int) : Planning :=
  let p := h.1
  if i.openOrders.any (fun o => o.marketId = p.marketId) then s.skip p.marketId .orderOpen
  else
    match h.2 with
    | none => s.skip p.marketId .staleIndex
    | some index =>
      if index ≤ 0 then s.skip p.marketId .staleIndex
      else
        match i.minFillNotional p.marketId with
        | none => s.skip p.marketId .notConfigured
        | some minNotional =>
          if s.slices.length ≥ i.maxOrdersPerTick then s.skip p.marketId .tickLimit
          else
            let cap := min i.limits.maxFillNotional s.budget
            if cap ≤ 0 then s.skip p.marketId .noBudget
            else
              let slice := sliceOf i p index cap
              if slice.size = 0 ∨ (slice.size * slice.limitPrice).tdiv PRECISION < minNotional then
                s.skip p.marketId (if slice.size < |p.size| then .noBudget else .belowMinNotional)
              else { s with slices := s.slices ++ [slice], budget := s.budget - (slice.worstNotional + 1) }

def planUnwind (i : PlanInput) : Plan :=
  let s := (held i).foldl (planOne i) ⟨[], [], budgetOf i⟩
  ⟨s.slices, s.skipped, budgetOf i⟩

/-! ## Prices -/

variable {i : PlanInput} {s s' : Planning} {h : BackstopPosition × Option Int} {p : BackstopPosition} {index : Int}
  {bps : Nat}

theorem band_nonneg (hindex : 0 < index) (bps : Nat) : 0 ≤ (index * bps).tdiv BPS :=
  Int.tdiv_nonneg (mul_nonneg hindex.le (Int.natCast_nonneg bps)) (by decide)

theorem index_le_high (hindex : 0 < index) (bps : Nat) : index ≤ (unwindBand index bps).2 := by
  have := band_nonneg hindex bps
  show index ≤ index + _
  omega

theorem index_le_unwindLimitPrice (hindex : 0 < index) (offsetBps : Int) (bps : Nat) :
    index ≤ unwindLimitPrice true index offsetBps bps := by
  have hhigh := index_le_high hindex bps
  have hoff : 0 ≤ if offsetBps > bps then (bps : Int) else if offsetBps < 0 then 0 else offsetBps := by
    split_ifs <;> omega
  simp only [unwindLimitPrice, if_true]
  generalize (if offsetBps > bps then (bps : Int) else if offsetBps < 0 then 0 else offsetBps) = off at hoff
  have hp : index ≤ (index * (BPS + off)).tdiv BPS := by
    have hnonneg : 0 ≤ index * (BPS + off) := mul_nonneg hindex.le (add_nonneg (by decide) hoff)
    rw [Int.tdiv_eq_ediv_of_nonneg hnonneg]
    refine Int.le_ediv_of_mul_le (by decide) (mul_le_mul_of_nonneg_left ?_ hindex.le)
    omega
  split_ifs with hlow hover
  · exact hp.trans hlow.le
  · exact hhigh
  · exact hp

/-- **No slice is priced at zero**: the keeper never divides by it. -/
theorem worst_pos (hindex : 0 < index) (isLong : Bool) (offsetBps : Int) (bps : Nat) :
    0 < worstFillPrice isLong (unwindLimitPrice isLong index offsetBps bps) index bps := by
  have hhigh := index_le_high hindex bps
  cases isLong with
  | false => exact hindex.trans_le hhigh
  | true => exact hindex.trans_le (le_min (index_le_unwindLimitPrice hindex offsetBps bps) hhigh)

theorem worst_nonneg {limitPrice : Int} (hindex : 0 < index) (hlimit : 0 ≤ limitPrice) (isLong : Bool) (bps : Nat) :
    0 ≤ worstFillPrice isLong limitPrice index bps := by
  have hhigh := index_le_high hindex bps
  cases isLong with
  | false => exact hindex.le.trans hhigh
  | true => exact le_min hlimit (hindex.le.trans hhigh)

/-- A fill in the band and within the order's limit is at or below the worst price. -/
theorem le_worst {isLong : Bool} {limitPrice price : Int} (hlimit : isLong = true → price ≤ limitPrice)
    (hband : |price - index| ≤ (index * bps).tdiv BPS) : price ≤ worstFillPrice isLong limitPrice index bps := by
  have hhigh : price ≤ (unwindBand index bps).2 := by
    have := (abs_le.1 hband).2
    show price ≤ index + _
    omega
  cases isLong with
  | false => exact hhigh
  | true => exact le_min (hlimit rfl) hhigh

/-! ## The slices -/

structure Sound (i : PlanInput) (slice : PlannedSlice) : Prop where
  reduces : ∃ p ∈ i.positions, p.marketId = slice.marketId ∧ p.size ≠ 0 ∧ slice.isLong = decide (p.size < 0) ∧
    0 < slice.size ∧ slice.size ≤ |p.size|
  index : i.index slice.marketId = some slice.index ∧ 0 < slice.index
  limit : slice.isLong = true → 0 ≤ slice.limitPrice
  worst : slice.worstNotional =
    (slice.size * worstFillPrice slice.isLong slice.limitPrice slice.index i.limits.maxDeviationBps).tdiv PRECISION
  fill : slice.worstNotional ≤ i.limits.maxFillNotional
  free : ∀ o ∈ i.openOrders, o.marketId ≠ slice.marketId

theorem Sound.worstNotional_nonneg {slice : PlannedSlice} (hs : Sound i slice) : 0 ≤ slice.worstNotional := by
  obtain ⟨p, -, -, -, -, hpos, -⟩ := hs.reduces
  rw [hs.worst]
  refine Int.tdiv_nonneg (mul_nonneg hpos.le ?_) (by decide)
  cases hl : slice.isLong with
  | false => exact hs.index.2.le.trans (index_le_high hs.index.2 _)
  | true => exact worst_nonneg hs.index.2 (hs.limit hl) true _

/-- **A slice costs no more than what pays for it.** -/
theorem sliceOf_le {cap : Int} (hindex : 0 < index) (hcap : 0 < cap) : (sliceOf i p index cap).worstNotional ≤ cap := by
  have hworst := worst_pos hindex (decide (p.size < 0)) i.priceOffsetBps i.limits.maxDeviationBps
  show (_ * worstFillPrice _ _ _ _).tdiv PRECISION ≤ cap
  generalize worstFillPrice _ _ _ _ = worst at hworst ⊢
  have hfits : 0 ≤ (cap * PRECISION).tdiv worst ∧ (cap * PRECISION).tdiv worst * worst ≤ cap * PRECISION := by
    have hnonneg : 0 ≤ cap * PRECISION := mul_nonneg hcap.le (by decide)
    rw [Int.tdiv_eq_ediv_of_nonneg hnonneg]
    exact ⟨Int.ediv_nonneg hnonneg hworst.le, Int.ediv_mul_le _ hworst.ne'⟩
  have hsize : 0 ≤ min |p.size| ((cap * PRECISION).tdiv worst) := le_min (abs_nonneg _) hfits.1
  rw [Int.tdiv_eq_ediv_of_nonneg (mul_nonneg hsize hworst.le)]
  refine Int.ediv_le_of_le_mul (by decide) ((mul_le_mul_of_nonneg_right (min_le_right _ _) hworst.le).trans hfits.2)

/-- **A slice that is planned is sound**, and costs no more than what is left. -/
theorem sliceOf_sound {cap : Int} (hp : p ∈ i.positions) (hopen : p.size ≠ 0)
    (hfree : ∀ o ∈ i.openOrders, o.marketId ≠ p.marketId) (hpriced : i.index p.marketId = some index) (hindex : 0 < index)
    (hcap : 0 < cap) (hfill : cap ≤ i.limits.maxFillNotional) (hsize : (sliceOf i p index cap).size ≠ 0) :
    Sound i (sliceOf i p index cap) where
  reduces := by
    have hworst := worst_pos hindex (decide (p.size < 0)) i.priceOffsetBps i.limits.maxDeviationBps
    have hnonneg : 0 ≤ (sliceOf i p index cap).size :=
      le_min (abs_nonneg _) (Int.tdiv_nonneg (mul_nonneg hcap.le (by decide)) hworst.le)
    exact ⟨p, hp, rfl, hopen, rfl, lt_of_le_of_ne hnonneg hsize.symm, min_le_left _ _⟩
  index := ⟨hpriced, hindex⟩
  limit hlong := by
    show 0 ≤ unwindLimitPrice _ _ _ _
    rw [show decide (p.size < 0) = true from hlong]
    exact hindex.le.trans (index_le_unwindLimitPrice hindex _ _)
  worst := rfl
  fill := (sliceOf_le hindex hcap).trans hfill
  free := hfree

/-- **A position is skipped or gets a slice**, which what is left pays for. -/
theorem planOne_cases (i : PlanInput) (s : Planning) (h : BackstopPosition × Option Int) :
    ((planOne i s h).slices = s.slices ∧ (planOne i s h).budget = s.budget) ∨
      ∃ index, (∀ o ∈ i.openOrders, o.marketId ≠ h.1.marketId) ∧ h.2 = some index ∧ 0 < index ∧
        0 < min i.limits.maxFillNotional s.budget ∧
        (sliceOf i h.1 index (min i.limits.maxFillNotional s.budget)).size ≠ 0 ∧
        (planOne i s h).slices = s.slices ++ [sliceOf i h.1 index (min i.limits.maxFillNotional s.budget)] ∧
        (planOne i s h).budget =
          s.budget - ((sliceOf i h.1 index (min i.limits.maxFillNotional s.budget)).worstNotional + 1) := by
  unfold planOne
  by_cases hopen : (i.openOrders.any fun o => o.marketId = h.1.marketId) = true
  · rw [if_pos hopen]
    exact Or.inl ⟨rfl, rfl⟩
  · rw [if_neg hopen]
    cases hidx : h.2 with
    | none => exact Or.inl ⟨rfl, rfl⟩
    | some index =>
      by_cases hpos : index ≤ 0
      · simp only [if_pos hpos]
        exact Or.inl ⟨rfl, rfl⟩
      · simp only [if_neg hpos]
        cases i.minFillNotional h.1.marketId with
        | none => exact Or.inl ⟨rfl, rfl⟩
        | some minNotional =>
          simp only
          split_ifs with hlimit hcap hsmall hless
          · exact Or.inl ⟨rfl, rfl⟩
          · exact Or.inl ⟨rfl, rfl⟩
          · exact Or.inl ⟨rfl, rfl⟩
          · exact Or.inl ⟨rfl, rfl⟩
          · have hfree : ∀ o ∈ i.openOrders, o.marketId ≠ h.1.marketId := fun o ho heq =>
              hopen (List.any_eq_true.2 ⟨o, ho, decide_eq_true heq⟩)
            exact Or.inr ⟨index, hfree, rfl, not_le.1 hpos, not_le.1 hcap, fun h0 => hsmall (Or.inl h0), rfl, rfl⟩

/-- What the loop keeps: its slices are sound, and with one unit more for each they are paid for. -/
structure Spent (i : PlanInput) (done : List (BackstopPosition × Option Int)) (s : Planning) : Prop where
  sound : ∀ slice ∈ s.slices, Sound i slice
  markets : (s.slices.map (·.marketId)).Sublist (done.map (·.1.marketId))
  spent : (s.slices.map (·.worstNotional)).sum + s.slices.length + s.budget = budgetOf i
  left : -1 ≤ s.budget ∧ s.budget ≤ budgetOf i
  paid : s.slices ≠ [] → 0 < budgetOf i

theorem mem_held (hmem : h ∈ held i) : h.1 ∈ i.positions ∧ h.1.size ≠ 0 ∧ h.2 = i.index h.1.marketId := by
  unfold held at hmem
  rw [List.mem_insertionSort, List.mem_map] at hmem
  obtain ⟨p, hp, rfl⟩ := hmem
  rw [List.mem_filter, decide_eq_true_eq] at hp
  exact ⟨hp.1, hp.2, rfl⟩

theorem planOne_spent {done : List (BackstopPosition × Option Int)} (hmem : h ∈ held i) (hs : Spent i done s) :
    Spent i (done ++ [h]) (planOne i s h) := by
  obtain ⟨hp, hopen, hidx⟩ := mem_held hmem
  have hdone : (done.map (·.1.marketId)).Sublist ((done ++ [h]).map (·.1.marketId)) := by
    rw [List.map_append]
    exact List.sublist_append_left _ _
  rcases planOne_cases i s h with ⟨hslices, hbudget⟩ | ⟨index, hfree, hpriced, hindex, hcap, hsize, hslices, hbudget⟩
  · refine ⟨?_, ?_, ?_, ?_, ?_⟩
    · rw [hslices]
      exact hs.sound
    · rw [hslices]
      exact hs.markets.trans hdone
    · rw [hslices, hbudget]
      exact hs.spent
    · rw [hbudget]
      exact hs.left
    · rw [hslices]
      exact hs.paid
  · have hsound := sliceOf_sound hp hopen hfree (hidx.symm.trans hpriced) hindex hcap (min_le_left _ _) hsize
    have hcost : (sliceOf i h.1 index (min i.limits.maxFillNotional s.budget)).worstNotional ≤ s.budget :=
      (sliceOf_le hindex hcap).trans (min_le_right _ _)
    have hnonneg := hsound.worstNotional_nonneg
    have hbefore := hs.spent
    have hleft := hs.left
    refine ⟨?_, ?_, ?_, ?_, fun _ => ?_⟩
    · intro slice hslice
      rw [hslices, List.mem_append, List.mem_singleton] at hslice
      rcases hslice with hslice | rfl
      · exact hs.sound slice hslice
      · exact hsound
    · rw [hslices, List.map_append, List.map_append]
      exact hs.markets.append (List.Sublist.refl [h.1.marketId])
    · rw [hslices, hbudget, List.map_append, List.sum_append, List.length_append, List.map_singleton,
        List.sum_singleton, List.length_singleton]
      push_cast
      linarith
    · rw [hbudget]
      constructor
      · linarith
      · linarith
    · exact (hcap.trans_le (min_le_right _ _)).trans_le hleft.2

theorem budgetOf_nonneg (i : PlanInput) : 0 ≤ budgetOf i := by
  simp only [budgetOf]
  split_ifs <;> omega

theorem planUnwind_spent (i : PlanInput) :
    Spent i (held i) ((held i).foldl (planOne i) ⟨[], [], budgetOf i⟩) := by
  have hrun : ∀ (rest done : List (BackstopPosition × Option Int)) (s : Planning), Spent i done s →
      (∀ h ∈ rest, h ∈ held i) → Spent i (done ++ rest) (rest.foldl (planOne i) s) := by
    intro rest
    induction rest with
    | nil =>
      intro done s hs _
      rwa [List.append_nil]
    | cons h rest ih =>
      intro done s hs hmem
      rw [List.foldl_cons, ← List.singleton_append, ← List.append_assoc]
      exact ih _ _ (planOne_spent (hmem h List.mem_cons_self) hs) fun h' hh' => hmem h' (List.mem_cons_of_mem h hh')
  have hnew : Spent i [] ⟨[], [], budgetOf i⟩ :=
    ⟨fun _ hmem => absurd hmem List.not_mem_nil, List.Sublist.refl _, by simp,
      ⟨le_trans (by decide) (budgetOf_nonneg i), le_refl _⟩, fun hne => absurd rfl hne⟩
  exact hrun (held i) [] _ hnew fun _ => id

/-- **What is set aside and what the slices may cost is within what is left of the day's cap.** -/
theorem slices_within (hplan : (planUnwind i).slices ≠ []) :
    reserved i + ((planUnwind i).slices.map (·.worstNotional)).sum ≤
      i.limits.maxDailyNotional - i.limits.usedToday := by
  have hs := planUnwind_spent i
  have hpaid := hs.paid hplan
  have hspent : ((planUnwind i).slices.map (·.worstNotional)).sum + (planUnwind i).slices.length + _ = budgetOf i := hs.spent
  have hleft := hs.left.1
  have hlen : 0 < (planUnwind i).slices.length := List.length_pos_iff_ne_nil.2 hplan
  have hbudget : budgetOf i = i.limits.maxDailyNotional - i.limits.usedToday - reserved i := by
    simp only [budgetOf] at hpaid ⊢
    split_ifs at hpaid ⊢
    · omega
    · rfl
  omega

theorem slices_nodup (hdistinct : (i.positions.map (·.marketId)).Nodup) :
    ((planUnwind i).slices.map (·.marketId)).Nodup := by
  refine (planUnwind_spent i).markets.nodup ?_
  have hperm : ((held i).map (·.1.marketId)).Perm ((i.positions.filter fun p => p.size ≠ 0).map (·.marketId)) := by
    have hsorted := (List.perm_insertionSort (fun a b : BackstopPosition × Option Int => compareHeld a b ≤ 0)
      ((i.positions.filter fun p => p.size ≠ 0).map fun p => (p, i.index p.marketId))).map (·.1.marketId)
    rwa [List.map_map] at hsorted
  rw [hperm.nodup_iff]
  exact (List.filter_sublist.map _).nodup hdistinct

/-! ## Fills -/

/-- What the book holds of an order. -/
structure Quote where
  marketId : MarketId
  isLong : Bool
  size : Int
  limitPrice : Int

/-- The orders of the backstop once the slices are posted: the open ones and then the slices. -/
def quotes (i : PlanInput) : List Quote :=
  i.openOrders.map (fun o => ⟨o.marketId, o.isLong, o.remaining, o.limitPrice⟩) ++
    (planUnwind i).slices.map fun s => ⟨s.marketId, s.isLong, s.size, s.limitPrice⟩

structure UnwindFill (i : PlanInput) where
  order : Fin (quotes i).length
  size : Nat
  price : Nat

variable {fs : List (UnwindFill i)}

def UnwindFill.quote (f : UnwindFill i) : Quote := (quotes i).get f.order

def UnwindFill.ofSlice (f : UnwindFill i) : Prop := i.openOrders.length ≤ f.order.val

def UnwindFill.notional (f : UnwindFill i) : Int := notionalOf f.size f.price

def filled (fs : List (UnwindFill i)) (k : Fin (quotes i).length) : Int :=
  (fs.map fun f => if f.order = k then (f.size : Int) else 0).sum

/-- Fills of no more than each order's size, the buys within their limits, and all in the band. -/
structure Fills (i : PlanInput) (fs : List (UnwindFill i)) : Prop where
  size : ∀ k, filled fs k ≤ ((quotes i).get k).size
  limit : ∀ f ∈ fs, f.quote.isLong = true → (f.price : Int) ≤ f.quote.limitPrice
  band : ∀ f ∈ fs, ∀ index, i.index f.quote.marketId = some index →
    |(f.price : Int) - index| ≤ (index * i.limits.maxDeviationBps).tdiv BPS

def Quote.worst (i : PlanInput) (q : Quote) : Int :=
  worstFillPrice q.isLong q.limitPrice ((i.index q.marketId).getD 0) i.limits.maxDeviationBps

def Quote.bound (i : PlanInput) (q : Quote) : Int := (q.size * q.worst i).tdiv PRECISION

/-- **Parts rounded down add up to no more than the whole rounded down.** -/
theorem sum_ediv_le {κ : Type} [Fintype κ] [DecidableEq κ] {d : Int} (hd : 0 < d) (parts : List (κ × Int)) :
    (parts.map fun p => p.2 / d).sum ≤ ∑ k, (parts.map fun p => if p.1 = k then p.2 else 0).sum / d := by
  induction parts with
  | nil => simp
  | cons p parts ih =>
    simp only [List.map_cons, List.sum_cons]
    have hone : ∀ k, (if p.1 = k then p.2 / d else 0) + (parts.map fun p => if p.1 = k then p.2 else 0).sum / d ≤
        ((if p.1 = k then p.2 else 0) + (parts.map fun p => if p.1 = k then p.2 else 0).sum) / d := by
      intro k
      generalize (parts.map fun p => if p.1 = k then p.2 else 0).sum = rest
      split_ifs
      · refine Int.le_ediv_of_mul_le hd ?_
        rw [add_mul]
        exact add_le_add (Int.ediv_mul_le _ hd.ne') (Int.ediv_mul_le _ hd.ne')
      · rw [zero_add, zero_add]
    have hsum := Finset.sum_le_sum fun k (_ : k ∈ Finset.univ) => hone k
    rw [Finset.sum_add_distrib, Finset.sum_ite_eq Finset.univ p.1 fun _ => p.2 / d, if_pos (Finset.mem_univ _)] at hsum
    exact (add_le_add_right ih _).trans hsum

structure Priced (i : PlanInput) : Prop where
  positive : ∀ m index, i.index m = some index → 0 < index
  openOrders : ∀ o ∈ i.openOrders, 0 ≤ o.limitPrice ∧ ∃ index, i.index o.marketId = some index

theorem slice_sound {slice : PlannedSlice} (hmem : slice ∈ (planUnwind i).slices) : Sound i slice :=
  (planUnwind_spent i).sound slice hmem

theorem quotes_priced (hp : Priced i) {q : Quote} (hq : q ∈ quotes i) :
    (∃ index, i.index q.marketId = some index) ∧ 0 ≤ q.worst i := by
  rw [quotes, List.mem_append, List.mem_map, List.mem_map] at hq
  rcases hq with ⟨o, ho, rfl⟩ | ⟨slice, hslice, rfl⟩
  · obtain ⟨hlimit, index, hindex⟩ := hp.openOrders o ho
    refine ⟨⟨index, hindex⟩, ?_⟩
    simp only [Quote.worst, hindex, Option.getD_some]
    exact worst_nonneg (hp.positive _ _ hindex) hlimit _ _
  · have hs := slice_sound hslice
    refine ⟨⟨_, hs.index.1⟩, ?_⟩
    simp only [Quote.worst, hs.index.1, Option.getD_some]
    cases hl : slice.isLong with
    | false => exact hs.index.2.le.trans (index_le_high hs.index.2 _)
    | true => exact worst_nonneg hs.index.2 (hs.limit hl) true _

theorem slice_bound {slice : PlannedSlice} (hmem : slice ∈ (planUnwind i).slices) :
    (Quote.bound i ⟨slice.marketId, slice.isLong, slice.size, slice.limitPrice⟩) = slice.worstNotional := by
  have hs := slice_sound hmem
  simp only [Quote.bound, Quote.worst, hs.index.1, Option.getD_some, hs.worst]

theorem open_bound (hp : Priced i) {o : OpenUnwindOrder} (ho : o ∈ i.openOrders) :
    Quote.bound i ⟨o.marketId, o.isLong, o.remaining, o.limitPrice⟩ ≤ reservedFor i o := by
  obtain ⟨-, index, hindex⟩ := hp.openOrders o ho
  have hne : index ≠ 0 := (hp.positive _ _ hindex).ne'
  have hpriced : (some index).filter (· ≠ 0) = some index := by simp [hne]
  simp only [Quote.bound, Quote.worst, reservedFor, hindex, hpriced, Option.getD_some]
  exact Int.le_add_one (le_refl _)

/-- **The orders are worth no more than what is set aside and what the slices cost.** -/
theorem bounds_le (hp : Priced i) : ((quotes i).map (Quote.bound i)).sum ≤
    reserved i + ((planUnwind i).slices.map (·.worstNotional)).sum := by
  rw [quotes, List.map_append, List.sum_append, List.map_map, List.map_map]
  refine add_le_add (List.sum_le_sum fun o ho => open_bound hp ho) (le_of_eq ?_)
  exact congrArg List.sum (List.map_congr_left fun slice hslice => slice_bound hslice)

theorem filled_nonneg (fs : List (UnwindFill i)) (k : Fin (quotes i).length) : 0 ≤ filled fs k := by
  refine List.sum_nonneg fun x hx => ?_
  obtain ⟨f, -, rfl⟩ := List.mem_map.1 hx
  split_ifs <;> omega

theorem notional_nonneg (f : UnwindFill i) : 0 ≤ f.notional := by
  unfold UnwindFill.notional notionalOf
  exact Int.tdiv_nonneg (by positivity) (by decide)

def UnwindFill.atWorst (f : UnwindFill i) : Int := f.size * f.quote.worst i

theorem notional_le (hp : Priced i) (hf : Fills i fs) {f : UnwindFill i} (hmem : f ∈ fs) :
    f.notional ≤ f.atWorst / PRECISION := by
  obtain ⟨index, hindex⟩ := (quotes_priced hp (List.get_mem (quotes i) f.order)).1
  have hworst : (f.price : Int) ≤ f.quote.worst i := by
    rw [Quote.worst, show i.index f.quote.marketId = some index from hindex]
    exact le_worst (hf.limit f hmem) (hf.band f hmem index hindex)
  rw [UnwindFill.notional, notionalOf, Int.tdiv_eq_ediv_of_nonneg (by positivity)]
  exact Int.ediv_le_ediv (by decide) (mul_le_mul_of_nonneg_left hworst (Int.natCast_nonneg _))

/-- **The fills are worth no more than their orders**, whatever sizes they come in. -/
theorem notionals_le (hp : Priced i) (hf : Fills i fs) :
    (fs.map (·.notional)).sum ≤ ((quotes i).map (Quote.bound i)).sum := by
  have hparts : (fs.map fun f => f.atWorst / PRECISION).sum ≤
      ∑ k, (fs.map fun f => if f.order = k then f.atWorst else 0).sum / PRECISION := by
    have h := sum_ediv_le (show 0 < PRECISION by decide) (fs.map fun f => (f.order, f.atWorst))
    rw [List.map_map] at h
    refine h.trans (le_of_eq (Finset.sum_congr rfl fun k _ => ?_))
    rw [List.map_map]
    rfl
  have hwhole : ∀ k, (fs.map fun f => if f.order = k then f.atWorst else 0).sum =
      filled fs k * Quote.worst i ((quotes i).get k) := by
    intro k
    rw [filled, ← List.sum_map_mul_right]
    refine congrArg List.sum (List.map_congr_left fun f _ => ?_)
    split_ifs with hk
    · rw [UnwindFill.atWorst, UnwindFill.quote, hk]
    · rw [zero_mul]
  have hbound : ∀ k, filled fs k * Quote.worst i ((quotes i).get k) / PRECISION ≤
      Quote.bound i ((quotes i).get k) := by
    intro k
    have hworst := (quotes_priced hp (List.get_mem (quotes i) k)).2
    have hle := mul_le_mul_of_nonneg_right (hf.size k) hworst
    have hnonneg := mul_nonneg (filled_nonneg fs k) hworst
    rw [Quote.bound, Int.tdiv_eq_ediv_of_nonneg (hnonneg.trans hle)]
    exact Int.ediv_le_ediv (by decide) hle
  calc (fs.map (·.notional)).sum
      ≤ (fs.map fun f => f.atWorst / PRECISION).sum :=
        List.sum_le_sum fun f hmem => notional_le hp hf hmem
    _ ≤ ∑ k, filled fs k * Quote.worst i ((quotes i).get k) / PRECISION := by simpa only [hwhole] using hparts
    _ ≤ ∑ k, Quote.bound i ((quotes i).get k) := Finset.sum_le_sum fun k _ => hbound k
    _ = ((quotes i).map (Quote.bound i)).sum := by
        simp only [List.get_eq_getElem]
        exact Fin.sum_univ_fun_getElem (quotes i) (Quote.bound i)

/-! ## The chain -/

variable {D : Deployment} {w w' : World} {settle : UnwindFill i → World → World}

/-- The plan is made from what the chain shows. -/
structure ReadsChain (i : PlanInput) (w : World) : Prop where
  deviation : i.limits.maxDeviationBps = w.insurance.maxUnwindDeviationBps
  fill : i.limits.maxFillNotional = w.insurance.maxUnwindFillNotional
  daily : i.limits.maxDailyNotional = w.insurance.maxUnwindDailyNotional
  used : i.limits.usedToday = Insurance.unwoundToday w
  index : ∀ m index, i.index m = some index → Engine.indexPrice w m = .ok index

/-- The hook on each fill in order, and `settle` for all else that happens in between. -/
def runFills (D : Deployment) (settle : UnwindFill i → World → World) : World → List (UnwindFill i) → World
  | w, [] => w
  | w, f :: fs =>
    match Insurance.onBackstopFill D w D.insuranceGateway f.quote.marketId f.size f.price with
    | .ok w' => runFills D settle (settle f w') fs
    | .error _ => runFills D settle (settle f w) fs

/-- The same index, limits and day, with at most `n` more unwound. -/
structure Unwinds (w w' : World) (n : Int) : Prop where
  limits : SameLimits w.insurance w'.insurance
  index : ∀ m, Engine.indexPrice w' m = Engine.indexPrice w m
  unwound : Insurance.unwoundToday w' ≤ Insurance.unwoundToday w + n

theorem Unwinds.trans {w₁ w₂ w₃ : World} {n n' : Int} (h : Unwinds w₁ w₂ n) (h' : Unwinds w₂ w₃ n') :
    Unwinds w₁ w₃ (n + n') :=
  ⟨h.limits.trans h'.limits, fun m => (h'.index m).trans (h.index m), by
    have := h.unwound
    have := h'.unwound
    omega⟩

theorem Unwinds.of_sameDay (h : ∀ m, SameDay m w w') : Unwinds w w' 0 :=
  ⟨(h 0).limits, fun m => (h m).index, by rw [(h 0).unwound, add_zero]⟩

/-- **The hook unwinds the fill's notional or nothing.** -/
theorem onBackstopFill_unwinds (f : UnwindFill i) {marketId : MarketId}
    (h : Insurance.onBackstopFill D w D.insuranceGateway marketId f.size f.price = .ok w') :
    Unwinds w w' f.notional := by
  obtain ⟨index, band, n, -, -, -, hn, -, -, rfl⟩ := onBackstopFill_ok h
  obtain ⟨-, rfl⟩ := (M.mulPrecision_ok _ _ _).1 hn
  refine ⟨⟨rfl, rfl, rfl⟩, fun _ => rfl, le_of_eq ?_⟩
  exact Function.update_self _ _ _

theorem runFills_unwinds (hs : ∀ f w m, SameDay m w (settle f w)) :
    ∀ (fs : List (UnwindFill i)) (w : World), Unwinds w (runFills D settle w fs) (fs.map (·.notional)).sum
  | [], w => ⟨.refl _, fun _ => rfl, by simp [runFills]⟩
  | f :: fs, w => by
    rw [runFills, List.map_cons, List.sum_cons]
    split
    · rename_i w' htaken
      have hsettled := (onBackstopFill_unwinds f htaken).trans (Unwinds.of_sameDay fun m => hs f w' m)
      rw [add_zero] at hsettled
      exact hsettled.trans (runFills_unwinds hs fs _)
    · have hrest := (Unwinds.of_sameDay fun m => hs f w m).trans (runFills_unwinds hs fs (settle f w))
      refine ⟨hrest.limits, hrest.index, hrest.unwound.trans ?_⟩
      have := notional_nonneg f
      omega

theorem slice_fill_le (hp : Priced i) (hf : Fills i fs) {f : UnwindFill i} (hmem : f ∈ fs) (hslice : f.ofSlice) :
    f.notional ≤ i.limits.maxFillNotional := by
  have hget : ∃ slice ∈ (planUnwind i).slices,
      f.quote = ⟨slice.marketId, slice.isLong, slice.size, slice.limitPrice⟩ := by
    have hlen : (i.openOrders.map fun o => (⟨o.marketId, o.isLong, o.remaining, o.limitPrice⟩ : Quote)).length ≤
        f.order.val := by
      rw [List.length_map]
      exact hslice
    have hquote : f.quote = (quotes i)[f.order.val] := rfl
    simp only [quotes] at hquote
    rw [List.getElem_append_right hlen] at hquote
    have hin := hquote ▸ List.getElem_mem _
    obtain ⟨slice, hmem', heq⟩ := List.mem_map.1 hin
    exact ⟨slice, hmem', heq.symm⟩
  obtain ⟨slice, hslice', hquote⟩ := hget
  have hsize : (f.size : Int) ≤ f.quote.size := by
    refine le_trans ?_ (hf.size f.order)
    have hsingle := List.single_le_sum (l := fs.map fun g => if g.order = f.order then (g.size : Int) else 0)
      (fun x hx => by
        obtain ⟨g, -, rfl⟩ := List.mem_map.1 hx
        split_ifs <;> omega) _ (List.mem_map_of_mem hmem)
    rwa [if_pos rfl] at hsingle
  have hworst := (quotes_priced hp (List.get_mem (quotes i) f.order)).2
  have hle : f.atWorst ≤ f.quote.size * f.quote.worst i := mul_le_mul_of_nonneg_right hsize hworst
  have hbound : f.quote.bound i = slice.worstNotional := hquote ▸ slice_bound hslice'
  calc f.notional ≤ f.atWorst / PRECISION := notional_le hp hf hmem
    _ ≤ (f.quote.size * f.quote.worst i) / PRECISION := Int.ediv_le_ediv (by decide) hle
    _ = f.quote.bound i := by
        rw [Quote.bound, Int.tdiv_eq_ediv_of_nonneg]
        exact (mul_nonneg (Int.natCast_nonneg _) hworst).trans hle
    _ = slice.worstNotional := hbound
    _ ≤ i.limits.maxFillNotional := (slice_sound hslice').fill

/-- **The caps a fill passes at the chain's state**: the day's, a slice's fill the one on a fill, and with both the hook
takes it. -/
structure Passes (D : Deployment) (w : World) (f : UnwindFill i) : Prop where
  daily : Insurance.unwoundToday w + f.notional ≤ w.insurance.maxUnwindDailyNotional
  fill : f.ofSlice → f.notional ≤ w.insurance.maxUnwindFillNotional
  taken : Insurance.ValidLimits w.insurance → w.insurance.maxUnwindDeviationBps ≠ 0 → (f.size : Int) ≤ I128_MAX →
    (f.price : Int) ≤ I128_MAX → f.notional ≤ w.insurance.maxUnwindFillNotional →
      ∃ w', Insurance.onBackstopFill D w D.insuranceGateway f.quote.marketId f.size f.price = .ok w'

theorem fills_pass (hr : ReadsChain i w) (hp : Priced i) (hplan : (planUnwind i).slices ≠ [])
    (hs : ∀ f w m, SameDay m w (settle f w)) (hf : Fills i fs) {before after : List (UnwindFill i)} {f : UnwindFill i}
    (hfs : fs = before ++ f :: after) : Passes D (runFills D settle w before) f := by
  have hmem : f ∈ fs := hfs ▸ List.mem_append_right before List.mem_cons_self
  have hrun := runFills_unwinds (D := D) hs before w
  have hrest : 0 ≤ (after.map (·.notional)).sum := by
    refine List.sum_nonneg fun x hx => ?_
    obtain ⟨g, -, rfl⟩ := List.mem_map.1 hx
    exact notional_nonneg g
  have htotal := (notionals_le hp hf).trans ((bounds_le hp).trans (slices_within hplan))
  rw [hfs, List.map_append, List.sum_append, List.map_cons, List.sum_cons, hr.daily, hr.used] at htotal
  have hdaily : Insurance.unwoundToday (runFills D settle w before) + f.notional ≤
      (runFills D settle w before).insurance.maxUnwindDailyNotional := by
    rw [hrun.limits.daily]
    linarith [hrun.unwound]
  refine ⟨hdaily, fun hslice => ?_, fun hv henabled hsize hprice hfill => ?_⟩
  · rw [hrun.limits.fill, ← hr.fill]
    exact slice_fill_le hp hf hmem hslice
  · obtain ⟨index, hindex⟩ := (quotes_priced hp (List.get_mem (quotes i) f.order)).1
    have hprice' : Engine.indexPrice (runFills D settle w before) f.quote.marketId = .ok index :=
      (hrun.index _).trans (hr.index _ _ hindex)
    have hband := hf.band f hmem index hindex
    rw [hr.deviation, ← hrun.limits.deviation] at hband
    exact ⟨_, (onBackstopFill_iff hv hprice' hsize hprice).2 ⟨⟨henabled, hband, hfill, hdaily⟩, rfl⟩⟩

/-- **Unwinding stays within its budget.**  A plan with a slice sets aside and spends no more than what is left of the
day's cap; its slices reduce their positions, one for each market and none where an order is open; and fills of the open
orders and of the slices, in any order and of any sizes, pass the caps. -/
theorem unwind_within_budget (hr : ReadsChain i w)
    (hopen : ∀ o ∈ i.openOrders, 0 ≤ o.limitPrice ∧ ∃ index, i.index o.marketId = some index)
    (hdistinct : (i.positions.map (·.marketId)).Nodup) (hplan : (planUnwind i).slices ≠ []) :
    reserved i + ((planUnwind i).slices.map (·.worstNotional)).sum ≤
        max 0 (i.limits.maxDailyNotional - i.limits.usedToday) ∧
      (∀ slice ∈ (planUnwind i).slices, ∃ p ∈ i.positions, p.marketId = slice.marketId ∧
        slice.isLong = decide (p.size < 0) ∧ 0 < slice.size ∧ slice.size ≤ |p.size|) ∧
      ((planUnwind i).slices.map (·.marketId)).Nodup ∧
      (∀ slice ∈ (planUnwind i).slices, ∀ o ∈ i.openOrders, o.marketId ≠ slice.marketId) ∧
      ∀ (settle : UnwindFill i → World → World), (∀ f w m, SameDay m w (settle f w)) → ∀ fs, Fills i fs →
        ∀ before f after, fs = before ++ f :: after → Passes D (runFills D settle w before) f := by
  have hp : Priced i := ⟨fun m index hindex => indexPrice_pos (hr.index m index hindex), hopen⟩
  refine ⟨(slices_within hplan).trans (le_max_right _ _), fun slice hslice => ?_, slices_nodup hdistinct,
    fun slice hslice => (slice_sound hslice).free,
    fun settle hs fs hf before f after hfs => fills_pass hr hp hplan hs hf hfs⟩
  obtain ⟨p, hp, hm, -, hside, hpos, hle⟩ := (slice_sound hslice).reduces
  exact ⟨p, hp, hm, hside, hpos, hle⟩

namespace Sample

/-- The chain after the first unwind: Insurance holds six more, and bids for one in the second market. -/
def remaining : PlanInput where
  positions := [⟨1, 6 * 10 ^ 18⟩, ⟨2, -3 * 10 ^ 18⟩]
  limits := ⟨500, 10 ^ 6 * 10 ^ 18, 10 ^ 7 * 10 ^ 18, 360 * 10 ^ 18⟩
  index m := if m = 1 ∨ m = 2 then some (90 * 10 ^ 18) else none
  minFillNotional _ := some 0
  openOrders := [⟨2, true, 10 ^ 18, 90 * 10 ^ 18⟩]
  priceOffsetBps := 25
  maxOrdersPerTick := 4

/-- The slice fills in two parts, and the open order in between. -/
def parts : List (UnwindFill remaining) :=
  [⟨⟨1, by decide +kernel⟩, 4 * 10 ^ 18, 94 * 10 ^ 18⟩, ⟨⟨0, by decide +kernel⟩, 10 ^ 18, 89 * 10 ^ 18⟩,
    ⟨⟨1, by decide +kernel⟩, 2 * 10 ^ 18, 93 * 10 ^ 18⟩]

theorem remaining_read : ReadsChain remaining (Kryon.Sample.outcome Kryon.Sample.unwinding) where
  deviation := by decide +kernel
  fill := by decide +kernel
  daily := by decide +kernel
  used := by decide +kernel
  index m index h := by
    simp only [remaining] at h
    split_ifs at h with hm
    obtain rfl := Option.some.inj h
    rcases hm with rfl | rfl <;> decide +kernel

theorem parts_fill : Fills remaining parts where
  size := by decide +kernel
  limit := by decide +kernel
  band f hf index h := by
    simp only [remaining] at h
    split_ifs at h with hm
    obtain rfl := Option.some.inj h
    clear hm
    revert f
    decide +kernel

end Sample

theorem unwind_within_budget_parts :
    (planUnwind Sample.remaining).slices.length = 1 ∧
      ∃ w', Insurance.onBackstopFill Kryon.Sample.deployment
        (runFills Kryon.Sample.deployment (fun _ w => w) (Kryon.Sample.outcome Kryon.Sample.unwinding)
          (Sample.parts.take 2)) Kryon.Sample.deployment.insuranceGateway 1 (2 * 10 ^ 18) (93 * 10 ^ 18) = .ok w' := by
  refine ⟨by decide +kernel, ?_⟩
  obtain ⟨-, -, -, -, hpass⟩ := unwind_within_budget Sample.remaining_read (by
      intro o ho
      obtain rfl := List.mem_singleton.1 ho
      exact ⟨by decide, _, rfl⟩) (by decide) (by decide +kernel)
  have h := hpass (fun _ w => w) (fun _ _ _ => ⟨.refl _, rfl, rfl⟩) Sample.parts Sample.parts_fill (Sample.parts.take 2) _ [] rfl
  exact h.taken ⟨by decide +kernel, by decide +kernel, by decide +kernel⟩ (by decide +kernel) (by decide) (by decide)
    (by decide +kernel)

end Kryon.Unwinder
