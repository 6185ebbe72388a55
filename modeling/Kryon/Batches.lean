import Kryon.MatcherDb
import Kryon.Lib.Program
import Kryon.Lib.WorkQueue
/-!
# Batches — cutting the planned fills into transactions

The fills are cut into chunks under the cap, and a chunk whose gas estimate is over the budget is halved and estimated
again, down to a floor.  The estimator is whatever the chain answers, call by call: nothing is asked of it, and still the
loop ends and the batches are the fills in their order (`sizeBatches_lossless`).
-/
namespace Kryon.Matcher

open WorkQueue (Turn)

/-! ## The code -/

def MAX_FILLS_PER_BATCH : Nat := 40

def MIN_GAS_PER_FILL : Int := 900000

def BLOCK_GAS_LIMIT : Int := 30000000

/-- The most gas one settlement may use: 60% of a block. -/
def MAX_BATCH_GAS : Int := (BLOCK_GAS_LIMIT * 60).tdiv 100

def MIN_BATCH_FILLS : Nat := 1

structure SizedBatch where
  fills : List PlannedFill
  gas : Int
  estimate : Int

/-- What the chain answers to the estimate of a batch, asked on a given turn of the loop. -/
abbrev GasEstimator (ε : Type) := Nat → List PlannedFill → Except ε Int

structure SizeOptions where
  maxBatchGas : Option Int := none
  headroomPercent : Option Int := none
  maxFills : Option Nat := none
  minBatchFills : Option Nat := none

namespace SizeOptions

variable (options : SizeOptions)

def batchGas : Int := options.maxBatchGas.getD MAX_BATCH_GAS

def headroom : Int := options.headroomPercent.getD 120

def fillCap : Nat := options.maxFills.getD MAX_FILLS_PER_BATCH

def fillFloor : Nat := options.minBatchFills.getD MIN_BATCH_FILLS

end SizeOptions

/-- An estimate with its headroom, never below the gateway's floor for one fill. -/
def withHeadroom (estimate percent : Int) : Int :=
  let bumped := (estimate * percent).tdiv 100
  if bumped < MIN_GAS_PER_FILL then MIN_GAS_PER_FILL else bumped

section chunks

variable {T : Type}

/-- The loop of `chunkFills` from `i` on; `none` when the fuel runs out. -/
def chunkLoop (fills : List T) (size : Nat) : (fuel i : Nat) → List (List T) → Option (List (List T))
  | 0, _, _ => none
  | fuel + 1, i, out =>
    if i < fills.length then chunkLoop fills size fuel (i + size) (out ++ [(fills.drop i).take size]) else some out

def chunkFills (fuel : Nat) (fills : List T) (size : Nat) : Option (List (List T)) := chunkLoop fills size fuel 0 []

/-- The two parts of a batch that ran out of gas, and none when it is at the floor. -/
def halveAfterGasRevert (fills : List T) (minBatchFills : Nat) : List (List T) :=
  if fills.length ≤ minBatchFills ∨ fills.length < 2 then []
  else
    let half := (fills.length + 1) / 2
    [fills.take half, fills.drop half].filter (fun part => decide (0 < part.length))

end chunks

variable {ε : Type}

/-- One turn of the loop of `sizeBatches`. -/
def sizeTurn (estimate : GasEstimator ε) (maxBatchGas headroomPercent : Int) (minBatchFills k : Nat)
    (chunk : List PlannedFill) : Except ε (Turn (List PlannedFill) SizedBatch) :=
  if chunk.length = 0 then .ok (.split [])
  else do
    let used ← estimate k chunk
    let gas := withHeadroom used headroomPercent
    if used > maxBatchGas ∧ chunk.length > minBatchFills then
      let half := (chunk.length + 1) / 2
      pure (.split [chunk.take half, chunk.drop half])
    else pure (.emit { fills := chunk, gas := gas, estimate := used })

def sizeBatches (fuel : Nat) (fills : List PlannedFill) (estimate : GasEstimator ε) (options : SizeOptions) :
    Option (Except ε (List SizedBatch)) := do
  let queue ← chunkFills fuel fills options.fillCap
  WorkQueue.run (sizeTurn estimate options.batchGas options.headroom options.fillFloor) fuel 0 queue []

/-! ## Chunks -/

section chunks

variable {T : Type} {fills : List T} {size fuel i : Nat} {out chunks : List (List T)}

/-- Every chunk holds a fill and at most `size` of them. -/
def Chunked (size : Nat) (chunks : List (List T)) : Prop := ∀ c ∈ chunks, 0 < c.length ∧ c.length ≤ size

theorem chunkLoop_ends (hsize : 1 ≤ size) : ∀ (fuel i : Nat) (out : List (List T)), fills.length < fuel + i → 0 < fuel →
    ∃ chunks, chunkLoop fills size fuel i out = some chunks
  | 0, _, _, _, h => absurd h (Nat.lt_irrefl 0)
  | fuel + 1, i, out, hfuel, _ => by
    rw [chunkLoop]
    split
    · exact chunkLoop_ends hsize fuel (i + size) _ (by omega) (by omega)
    · exact ⟨out, rfl⟩

theorem chunkLoop_some (hsize : 1 ≤ size) : ∀ (fuel i : Nat) (out : List (List T)), out.flatten = fills.take i →
    Chunked size out → chunkLoop fills size fuel i out = some chunks → chunks.flatten = fills ∧ Chunked size chunks
  | 0, _, _, _, _, h => by cases h
  | fuel + 1, i, out, hflat, hout, h => by
    rw [chunkLoop] at h
    split at h
    · rename_i hi
      refine chunkLoop_some hsize fuel (i + size) _ ?_ ?_ h
      · rw [List.flatten_append, hflat, List.flatten_singleton, List.take_add]
      · intro c hc
        rcases List.mem_append.1 hc with hc | hc
        · exact hout c hc
        · rw [List.mem_singleton.1 hc, List.length_take, List.length_drop]
          omega
    · rename_i hi
      obtain rfl : out = chunks := Option.some.inj h
      rw [hflat, List.take_of_length_le (not_lt.1 hi)]
      exact ⟨rfl, hout⟩

theorem chunkFills_ends (hsize : 1 ≤ size) (hfuel : fills.length < fuel) : ∃ chunks, chunkFills fuel fills size = some chunks :=
  chunkLoop_ends hsize fuel 0 [] hfuel (by omega)

/-- **The chunks are the fills, cut under the cap.** -/
theorem chunkFills_some (hsize : 1 ≤ size) (h : chunkFills fuel fills size = some chunks) :
    chunks.flatten = fills ∧ Chunked size chunks :=
  chunkLoop_some hsize fuel 0 [] rfl (fun _ hc => absurd hc List.not_mem_nil) h

/-- What a chunk weighs: the turns that halving it down to single fills takes. -/
def turns (chunk : List T) : Nat := max 1 (2 * chunk.length - 1)

theorem turns_le : ∀ {chunks : List (List T)}, Chunked size chunks → (chunks.map turns).sum ≤ 2 * chunks.flatten.length
  | [], _ => Nat.zero_le _
  | c :: chunks, h => by
    have hhead := (h c List.mem_cons_self).1
    have htail := turns_le fun d hd => h d (List.mem_cons_of_mem c hd)
    rw [List.map_cons, List.sum_cons, List.flatten_cons, List.length_append, turns]
    omega

/-- The two parts of a list of at least two, the first as long as the second or longer by one. -/
theorem half_parts {l : List T} (h : 2 ≤ l.length) :
    let half := (l.length + 1) / 2
    l.take half ++ l.drop half = l ∧ 0 < (l.take half).length ∧ 0 < (l.drop half).length ∧
      (l.take half).length + (l.drop half).length = l.length := by
  refine ⟨List.take_append_drop _ l, ?_, ?_, ?_⟩
  · rw [List.length_take]
    omega
  · rw [List.length_drop]
    omega
  · rw [List.length_take, List.length_drop]
    omega

end chunks

/-! ## One turn -/

variable {estimate : GasEstimator ε} {options : SizeOptions} {maxBatchGas headroomPercent : Int} {minBatchFills k fuel : Nat}
  {chunk fills : List PlannedFill} {t : Turn (List PlannedFill) SizedBatch}

/-- **What a turn does**: it passes over an empty chunk, halves one that is over the budget and above the floor, and sends
the others. -/
theorem sizeTurn_cases (h : sizeTurn estimate maxBatchGas headroomPercent minBatchFills k chunk = .ok t) :
    (chunk.length = 0 ∧ t = .split []) ∨
    (minBatchFills < chunk.length ∧
      t = .split [chunk.take ((chunk.length + 1) / 2), chunk.drop ((chunk.length + 1) / 2)]) ∨
    ∃ used, 0 < chunk.length ∧ estimate k chunk = .ok used ∧ (used ≤ maxBatchGas ∨ chunk.length ≤ minBatchFills) ∧
      t = .emit { fills := chunk, gas := withHeadroom used headroomPercent, estimate := used } := by
  unfold sizeTurn at h
  split at h
  · rename_i hempty
    exact .inl ⟨hempty, (Except.ok.inj h).symm⟩
  · rename_i hne
    simp only [Program.bind_ok_iff] at h
    obtain ⟨used, hused, h⟩ := h
    split at h
    · rename_i hover
      exact .inr (.inl ⟨hover.2, (Except.ok.inj h).symm⟩)
    · rename_i hfits
      refine .inr (.inr ⟨used, Nat.pos_of_ne_zero hne, hused, ?_, (Except.ok.inj h).symm⟩)
      omega

theorem sizeTurn_split {parts : List (List PlannedFill)} (hmin : 1 ≤ minBatchFills)
    (h : sizeTurn estimate maxBatchGas headroomPercent minBatchFills k chunk = .ok (.split parts)) :
    parts.flatten = chunk ∧ (parts.map turns).sum < turns chunk ∧ ∀ part ∈ parts, part.length ≤ chunk.length := by
  rcases sizeTurn_cases h with ⟨hempty, hparts⟩ | ⟨hfloor, hparts⟩ | ⟨used, -, -, -, hparts⟩
  · obtain rfl := Turn.split.inj hparts
    obtain rfl := List.length_eq_zero_iff.1 hempty
    exact ⟨rfl, Nat.zero_lt_one, fun _ hp => absurd hp List.not_mem_nil⟩
  · obtain rfl := Turn.split.inj hparts
    obtain ⟨happend, hfirst, hsecond, hsum⟩ := half_parts (l := chunk) (by omega)
    refine ⟨?_, ?_, ?_⟩
    · rw [List.flatten_cons, List.flatten_singleton]
      exact happend
    · simp only [List.map_cons, List.map_nil, List.sum_cons, List.sum_nil, turns]
      omega
    · intro part hpart
      rcases List.mem_pair.1 hpart with rfl | rfl
      · omega
      · omega
  · cases hparts

theorem sizeTurn_emit {b : SizedBatch}
    (h : sizeTurn estimate maxBatchGas headroomPercent minBatchFills k chunk = .ok (.emit b)) :
    b.fills = chunk ∧ 0 < b.fills.length ∧ estimate k b.fills = .ok b.estimate ∧
      (b.estimate ≤ maxBatchGas ∨ b.fills.length ≤ minBatchFills) ∧ b.gas = withHeadroom b.estimate headroomPercent := by
  rcases sizeTurn_cases h with ⟨-, hb⟩ | ⟨-, hb⟩ | ⟨used, hne, hused, hfits, hb⟩
  · cases hb
  · cases hb
  · obtain rfl := Turn.emit.inj hb
    exact ⟨rfl, hne, hused, hfits, rfl⟩

/-! ## The batches -/

/-- A batch to send: not empty, under the cap, estimated, and within the gas budget by that estimate or at the floor. -/
structure Sized (estimate : GasEstimator ε) (options : SizeOptions) (b : SizedBatch) : Prop where
  nonempty : 0 < b.fills.length
  capped : b.fills.length ≤ options.fillCap
  estimated : ∃ k, estimate k b.fills = .ok b.estimate
  fits : b.estimate ≤ options.batchGas ∨ b.fills.length ≤ options.fillFloor
  gas : b.gas = withHeadroom b.estimate options.headroom

theorem sizeBatches_ends (hmin : 1 ≤ options.fillFloor) (hmax : 1 ≤ options.fillCap) (hfuel : 2 * fills.length < fuel) :
    ∃ r, sizeBatches fuel fills estimate options = some r := by
  obtain ⟨chunks, hchunks⟩ : ∃ chunks, chunkFills fuel fills options.fillCap = some chunks :=
    chunkFills_ends hmax (by omega)
  obtain ⟨hflat, hcap⟩ := chunkFills_some hmax hchunks
  have hweight := turns_le hcap
  rw [hflat] at hweight
  rw [sizeBatches, hchunks]
  exact WorkQueue.run_ends turns (fun c => by rw [turns]; omega) (fun k c parts h => (sizeTurn_split hmin h).2.1) fuel 0
    chunks [] (lt_of_le_of_lt hweight hfuel)

theorem sizeBatches_ok {batches : List SizedBatch} (hmin : 1 ≤ options.fillFloor) (hmax : 1 ≤ options.fillCap)
    (h : sizeBatches fuel fills estimate options = some (.ok batches)) :
    batches.flatMap (·.fills) = fills ∧ ∀ b ∈ batches, Sized estimate options b := by
  obtain ⟨chunks, hchunks, hrun⟩ := Option.bind_eq_some_iff.1 h
  obtain ⟨hflat, hcap⟩ := chunkFills_some hmax hchunks
  constructor
  · have hheld := WorkQueue.run_flatMap id (·.fills) (fun k c b hb => (sizeTurn_emit hb).1)
      (fun k c parts hp => by rw [List.flatMap_id]; exact (sizeTurn_split hmin hp).1) hrun
    rw [hheld, List.flatMap_id, hflat]
  · refine WorkQueue.run_forall (fun c => c.length ≤ options.fillCap) _ ?_ ?_ (fun c hc => (hcap c hc).2) hrun
    · intro k c b hb hc
      obtain ⟨rfl, hne, hused, hfits, hgas⟩ := sizeTurn_emit hb
      exact ⟨hne, hc, ⟨k, hused⟩, hfits, hgas⟩
    · intro k c parts hp hc part hpart
      exact ((sizeTurn_split hmin hp).2.2 part hpart).trans hc

theorem sizeTurn_error {e : ε} (h : sizeTurn estimate maxBatchGas headroomPercent minBatchFills k chunk = .error e) :
    estimate k chunk = .error e := by
  unfold sizeTurn at h
  split at h
  · cases h
  · cases hused : estimate k chunk with
    | error e' =>
      rw [hused] at h
      obtain rfl : e' = e := Except.error.inj h
      rfl
    | ok used =>
      rw [hused, Program.ok_bind] at h
      split at h
      · cases h
      · cases h

theorem sizeBatches_error {e : ε} (h : sizeBatches fuel fills estimate options = some (.error e)) :
    ∃ k chunk, estimate k chunk = .error e := by
  obtain ⟨chunks, -, hrun⟩ := Option.bind_eq_some_iff.1 h
  obtain ⟨k, chunk, hturn⟩ := WorkQueue.run_error fuel 0 chunks [] hrun
  exact ⟨k, chunk, sizeTurn_error hturn⟩

/-! ## Halving after a revert -/

section halving

variable {T : Type} {l part : List T}

/-- At the floor there is nothing to retry; above it the two halves are the batch. -/
theorem halveAfterGasRevert_eq (hmin : 1 ≤ minBatchFills) : halveAfterGasRevert l minBatchFills =
    if l.length ≤ minBatchFills then [] else [l.take ((l.length + 1) / 2), l.drop ((l.length + 1) / 2)] := by
  rw [halveAfterGasRevert]
  by_cases h : l.length ≤ minBatchFills
  · rw [if_pos (.inl h), if_pos h]
  · obtain ⟨-, hfirst, hsecond, -⟩ := half_parts (l := l) (by omega)
    rw [if_neg (by omega), if_neg h]
    refine List.filter_eq_self.2 fun part hpart => decide_eq_true ?_
    rcases List.mem_pair.1 hpart with rfl | rfl
    · exact hfirst
    · exact hsecond

theorem halveAfterGasRevert_flatten (hmin : 1 ≤ minBatchFills) (h : halveAfterGasRevert l minBatchFills ≠ []) :
    (halveAfterGasRevert l minBatchFills).flatten = l := by
  rw [halveAfterGasRevert_eq hmin] at h ⊢
  split at h
  · exact absurd rfl h
  · rw [if_neg (by assumption), List.flatten_cons, List.flatten_singleton]
    exact List.take_append_drop _ l

theorem halveAfterGasRevert_shorter (hmin : 1 ≤ minBatchFills) (h : part ∈ halveAfterGasRevert l minBatchFills) :
    0 < part.length ∧ part.length < l.length := by
  rw [halveAfterGasRevert_eq hmin] at h
  split at h
  · exact absurd h List.not_mem_nil
  · obtain ⟨-, hfirst, hsecond, hsum⟩ := half_parts (l := l) (by omega)
    rcases List.mem_pair.1 h with rfl | rfl
    · omega
    · omega

/-- Halving a part again and again stops within as many steps as there were fills. -/
theorem halvings_le (hmin : 1 ≤ minBatchFills) (f : Nat → List T) : ∀ n : Nat,
    (∀ i < n, f (i + 1) ∈ halveAfterGasRevert (f i) minBatchFills) → n + (f n).length ≤ (f 0).length
  | 0, _ => by omega
  | n + 1, h => by
    have hprefix := halvings_le hmin f n fun i hi => h i (by omega)
    have hlast := (halveAfterGasRevert_shorter hmin (h n (by omega))).2
    omega

end halving

/-- **Batching loses and repeats no fill**: with a cap and a floor of at least one the loop ends, whatever the estimator
answers; its batches are the fills in their order, each under the cap and within the budget or at the floor; and a batch
that ran out of gas is at the floor or halved into two shorter ones, which cannot go on for longer than it has fills. -/
theorem sizeBatches_lossless (estimate : GasEstimator ε) (options : SizeOptions) (fills : List PlannedFill)
    (hmin : 1 ≤ options.fillFloor) (hmax : 1 ≤ options.fillCap) :
    (∀ fuel, 2 * fills.length < fuel → ∃ r, sizeBatches fuel fills estimate options = some r) ∧
    (∀ fuel batches, sizeBatches fuel fills estimate options = some (.ok batches) →
      batches.flatMap (·.fills) = fills ∧ ∀ b ∈ batches, Sized estimate options b) ∧
    (∀ fuel e, sizeBatches fuel fills estimate options = some (.error e) → ∃ k chunk, estimate k chunk = .error e) ∧
    (∀ l : List PlannedFill, (halveAfterGasRevert l options.fillFloor = [] ↔ l.length ≤ options.fillFloor) ∧
      (halveAfterGasRevert l options.fillFloor ≠ [] → (halveAfterGasRevert l options.fillFloor).flatten = l) ∧
      ∀ part ∈ halveAfterGasRevert l options.fillFloor, 0 < part.length ∧ part.length < l.length) ∧
    ∀ (f : Nat → List PlannedFill) (n : Nat),
      (∀ i < n, f (i + 1) ∈ halveAfterGasRevert (f i) options.fillFloor) → n ≤ (f 0).length := by
  refine ⟨fun fuel => sizeBatches_ends hmin hmax, fun fuel batches => sizeBatches_ok hmin hmax,
    fun fuel e => sizeBatches_error, fun l => ⟨?_, halveAfterGasRevert_flatten hmin,
      fun part => halveAfterGasRevert_shorter hmin⟩, fun f n h => ?_⟩
  · rw [halveAfterGasRevert_eq hmin]
    split
    · rename_i h
      exact iff_of_true rfl h
    · rename_i h
      exact iff_of_false (by simp) h
  · have hn := halvings_le hmin f n h
    omega

namespace Sample

/-- The `k`-th of some fills of one pair of orders. -/
def heavy (k : Nat) : PlannedFill where
  fillId := Fin.ofNat (2 ^ 256) k
  maker := ⟨1, 1, false, 10 * 10 ^ 18, 100 * 10 ^ 18, false, 1, 9000, 0⟩
  makerSignature := []
  taker := ⟨2, 1, true, 10 * 10 ^ 18, 100 * 10 ^ 18, false, 1, 9000, 0⟩
  takerSignature := []
  size := 10 ^ 18
  price := 100 * 10 ^ 18
  marketId := 1
  makerOrderHash := 1
  takerOrderHash := 2
  takerIsBuy := true
  notional := 100 * 10 ^ 18

/-- Ten million gas a fill, so that one fits the budget and two do not. -/
def perFill : GasEstimator String := fun _ fills => .ok (10000000 * (fills.length : Int))

/-- A batch of one fill. -/
def single (k : Nat) : SizedBatch := { fills := [heavy k], gas := 12000000, estimate := 10000000 }

end Sample

open Sample in
/-- Three heavy fills go out one by one. -/
theorem sizeBatches_lossless_heavy :
    sizeBatches 7 [heavy 0, heavy 1, heavy 2] perFill {} = some (.ok [single 0, single 1, single 2]) ∧
      ∀ b ∈ [single 0, single 1, single 2], Sized perFill {} b := by
  have hrun : sizeBatches 7 [heavy 0, heavy 1, heavy 2] perFill {} = some (.ok [single 0, single 1, single 2]) := rfl
  have hbatches := (sizeBatches_lossless perFill {} [heavy 0, heavy 1, heavy 2] (by decide) (by decide)).2.1 7 _ hrun
  exact ⟨hrun, hbatches.2⟩

end Kryon.Matcher
