import Kryon.MatchPriority
import Kryon.Holdings
import Mathlib.Algebra.Order.BigOperators.Group.List
/-!
# ReduceOnly — which reduce-only matches the chain takes

The chain holds a reduce-only side to the position as its turn finds it (`executeSide`); the ledger of the matching engine
holds it to the position the run started from, less what reduce-only fills have closed since.  The two differ by what the
ordinary fills of the same owner have taken (`against_settled`), so the chain takes every reduce-only side iff what the
ledger leaves over covers that.
-/
namespace Kryon.Matching

open Function (update)
open Prefix (Each)
open Program (revertIf_ok bind_congr_ok)

variable {input : EngineInput} {positions : Address → Int} {ms : List EngineMatch} {m : EngineMatch} {o : EngineOrder}
  {size : Int}

/-! ## The chain's side -/

/-- One side of a match at the chain: a reduce-only one is rejected unless it closes a part of the position it finds. -/
def executeSide (positions : Address → Int) (o : EngineOrder) (size : Int) : Option (Address → Int) :=
  let position := positions o.owner
  if o.reduceOnly = true ∧ ¬ (Closes position o ∧ size ≤ |position|) then none
  else some (update positions o.owner (position + Engine.fillDelta o.isLong size))

/-- The maker's side first, then the taker's. -/
def execute (positions : Address → Int) (m : EngineMatch) : Option (Address → Int) :=
  (executeSide positions m.maker m.size).bind fun positions => executeSide positions m.taker m.size

/-- Matches in the order they were emitted; none if a side is rejected. -/
def executeAll (positions : Address → Int) (ms : List EngineMatch) : Option (Address → Int) := ms.foldlM execute positions

/-- The sizes of a market's positions. -/
def sizesIn (w : World) (marketId : MarketId) (a : Address) : Int := (w.engine.positions (a, marketId)).size

theorem reduces_iff {position : Int} {p : Position} (hp : p.size = position) (hsize : 0 < size) :
    Engine.Reduces p (Engine.fillDelta o.isLong size) ↔ Closes position o ∧ size ≤ |position| := by
  have hdelta : |Engine.fillDelta o.isLong size| = size ∧
      decide (Engine.fillDelta o.isLong size > 0) = o.isLong := by
    unfold Engine.fillDelta
    cases o.isLong with
    | true => exact ⟨abs_of_pos hsize, decide_eq_true hsize⟩
    | false =>
      rw [if_neg Bool.false_ne_true, abs_neg]
      exact ⟨abs_of_pos hsize, decide_eq_false (by omega)⟩
  rw [Engine.Reduces, hdelta.1, hdelta.2, hp, Closes, and_assoc]
  exact and_congr_right fun _ => and_congr_left fun _ => ne_comm

/-- **A fill the chain takes is a side executed.** -/
theorem applyFill_executes {D : Deployment} {w w' : World} {caller : Address} {marketId : MarketId}
    {price notional : Int} {increased : Bool}
    (h : Engine.applyFill D w caller o.owner marketId o.isLong size price notional o.reduceOnly = .ok (w', increased)) :
    executeSide (sizesIn w marketId) o size = some (sizesIn w' marketId) := by
  obtain ⟨hsize, -, t, st, x, -, rfl, hreduces⟩ := Engine.applyFill_ok h
  have htakes : ¬ (o.reduceOnly = true ∧
      ¬ (Closes (sizesIn w marketId o.owner) o ∧ size ≤ |sizesIn w marketId o.owner|)) := by
    rintro ⟨hr, hnot⟩
    exact hnot ((reduces_iff rfl hsize).1 (hreduces hr))
  unfold executeSide
  rw [if_neg htakes]
  refine congrArg some (funext fun a => ?_)
  by_cases ha : a = o.owner
  · subst ha
    rw [Function.update_self]
    simp only [sizesIn, Engine.booked, Engine.marked, Function.update_self]
    exact (Engine.nextPosition_size _ _ _).symm
  · rw [Function.update_of_ne ha]
    simp only [sizesIn, Engine.booked, Engine.marked]
    rw [Function.update_of_ne fun h => ha (congrArg Prod.fst h)]

theorem trade_reduceOnly {D : Deployment} {w : World} {trader : Address} {marketId : MarketId} {p : MarketParams}
    {delta price notional : Int} {enforceLimits : Bool} (h : Engine.Reduces (w.engine.positions (trader, marketId)) delta) :
    Engine.trade D w trader marketId p delta price notional true enforceLimits =
      Engine.trade D w trader marketId p delta price notional false enforceLimits := by
  obtain ⟨hopen, hside, hle⟩ := h
  unfold Engine.trade
  cases hfund : Engine.settleFunding D w trader marketId (w.engine.positions (trader, marketId)) with
  | error e => rfl
  | ok r =>
    obtain ⟨w₁, p₁⟩ := r
    obtain ⟨payment, -, rfl, -⟩ := Engine.settleFunding_ok hfund
    have hsize := Engine.settledPosition_size (w.engine.funding marketId) (w.engine.positions (trader, marketId))
    have hwithin : ¬ (M.abs delta - M.min (M.abs (w.engine.positions (trader, marketId)).size) (M.abs delta) > 0) := by
      rw [M.min_eq, M.abs_eq, M.abs_eq, min_eq_right hle]
      omega
    have hreduce : ¬ ((w.engine.positions (trader, marketId)).size = 0 ∨
        decide ((w.engine.positions (trader, marketId)).size > 0) = decide (delta > 0)) := not_or.2 ⟨hopen, hside⟩
    simp only [bind, Except.bind, hsize, if_neg hreduce, Engine.reduce, if_neg hwithin]

/-- **The flag rejects nothing else**: a side the chain executes is filled as an ordinary one is. -/
theorem applyFill_flag {D : Deployment} {w : World} {caller : Address} {marketId : MarketId} {price notional : Int}
    (hexec : executeSide (sizesIn w marketId) o size ≠ none) :
    Engine.applyFill D w caller o.owner marketId o.isLong size price notional o.reduceOnly =
      Engine.applyFill D w caller o.owner marketId o.isLong size price notional false := by
  cases hr : o.reduceOnly with
  | false => rfl
  | true =>
    unfold Engine.applyFill
    refine bind_congr fun _ => bind_congr fun _ => bind_congr_ok fun _ hpos => ?_
    refine bind_congr fun p => bind_congr fun index => bind_congr fun maxDelta => bind_congr fun lo => ?_
    refine bind_congr fun _ => bind_congr fun hi => bind_congr fun _ => bind_congr_ok fun w₁ hmark => ?_
    have hsize : 0 < size := by
      rw [revertIf_ok] at hpos
      omega
    have hreduces : Engine.Reduces (w.engine.positions (o.owner, marketId)) (Engine.fillDelta o.isLong size) := by
      rw [reduces_iff rfl hsize]
      by_contra hnot
      exact hexec (if_pos ⟨hr, hnot⟩)
    obtain ⟨t, st, rfl⟩ := Engine.recordMark_ok hmark
    exact congrArg (· >>= _) (trade_reduceOnly hreduces)

/-! ## The run -/

/-- What a match moves an owner's position by. -/
def EngineMatch.moves (m : EngineMatch) (a : Address) : Int :=
  (if m.maker.owner = a then Engine.fillDelta m.maker.isLong m.size else 0) +
    if m.taker.owner = a then Engine.fillDelta m.taker.isLong m.size else 0

/-- The positions once the matches are executed. -/
def settled (positions : Address → Int) (ms : List EngineMatch) (a : Address) : Int :=
  positions a + (ms.map (·.moves a)).sum

theorem settled_snoc (positions : Address → Int) (ms : List EngineMatch) (m : EngineMatch) (a : Address) :
    settled positions (ms ++ [m]) a = settled positions ms a + m.moves a := by
  simp only [settled, List.map_append, List.sum_append, List.map_cons, List.map_nil, List.sum_cons, List.sum_nil,
    add_zero]
  exact (add_assoc _ _ _).symm

/-- No reduce-only side of the match is rejected. -/
def Accepts (positions : Address → Int) (m : EngineMatch) : Prop := ∀ o, o = m.maker ∨ o = m.taker →
  o.reduceOnly = true → Closes (positions o.owner) o ∧ m.size ≤ |positions o.owner|

theorem executeSide_some {positions' : Address → Int} : executeSide positions o size = some positions' ↔
    (o.reduceOnly = true → Closes (positions o.owner) o ∧ size ≤ |positions o.owner|) ∧
      positions' = fun a => positions a + if o.owner = a then Engine.fillDelta o.isLong size else 0 := by
  have hmoved : update positions o.owner (positions o.owner + Engine.fillDelta o.isLong size) =
      fun a => positions a + if o.owner = a then Engine.fillDelta o.isLong size else 0 := by
    funext a
    by_cases ha : a = o.owner
    · rw [ha, Function.update_self, if_pos rfl]
    · rw [Function.update_of_ne ha, if_neg (Ne.symm ha), add_zero]
  unfold executeSide
  simp only
  rw [hmoved]
  split_ifs with hrejects
  · exact iff_of_false (by simp) fun h => hrejects.2 (h.1 hrejects.1)
  · rw [Option.some.injEq]
    constructor
    · intro h
      exact ⟨fun hr => by_contra fun hnot => hrejects ⟨hr, hnot⟩, h.symm⟩
    · rintro ⟨-, rfl⟩
      rfl

/-- **A match is executed iff its reduce-only sides are accepted.** -/
theorem execute_some {positions' : Address → Int} (howners : m.maker.owner ≠ m.taker.owner) :
    execute positions m = some positions' ↔ Accepts positions m ∧ positions' = fun a => positions a + m.moves a := by
  unfold execute
  rw [Option.bind_eq_some_iff]
  constructor
  · rintro ⟨moved, hmaker, htaker⟩
    rw [executeSide_some] at hmaker htaker
    obtain ⟨hmaker, rfl⟩ := hmaker
    obtain ⟨htaker, rfl⟩ := htaker
    simp only [if_neg howners, add_zero] at htaker
    refine ⟨?_, funext fun a => add_assoc _ _ _⟩
    rintro o (rfl | rfl)
    · exact hmaker
    · exact htaker
  · rintro ⟨haccepts, rfl⟩
    refine ⟨_, executeSide_some.2 ⟨haccepts _ (Or.inl rfl), rfl⟩, executeSide_some.2 ⟨?_, ?_⟩⟩
    · simp only [if_neg howners, add_zero]
      exact haccepts _ (Or.inr rfl)
    · exact funext fun a => (add_assoc _ _ _).symm

/-- **A run is executed iff every match is accepted at its turn.** -/
theorem executeAll_some : ∀ {ms : List EngineMatch} {positions' : Address → Int},
    (∀ m ∈ ms, m.maker.owner ≠ m.taker.owner) → (executeAll positions ms = some positions' ↔
      Each (fun ms m => Accepts (settled positions ms) m) ms ∧ positions' = settled positions ms) := by
  intro ms
  induction ms using List.reverseRecOn with
  | nil =>
    intro positions' _
    have hnil : settled positions [] = positions := funext fun a => add_zero _
    rw [hnil, executeAll, List.foldlM_nil]
    constructor
    · intro h
      exact ⟨Prefix.each_nil, (Option.some.inj h).symm⟩
    · rintro ⟨-, rfl⟩
      rfl
  | append_singleton ms m ih =>
    intro positions' howners
    have hlast := howners m (List.mem_append_right _ (List.mem_singleton_self m))
    have hrest : ∀ m ∈ ms, m.maker.owner ≠ m.taker.owner := fun m hm => howners m (List.mem_append_left _ hm)
    have hsnoc : settled positions (ms ++ [m]) = fun a => settled positions ms a + m.moves a :=
      funext (settled_snoc positions ms m)
    rw [executeAll, List.foldlM_append, Prefix.each_snoc, hsnoc]
    simp only [List.foldlM_cons, List.foldlM_nil, Option.bind_eq_bind, Option.bind_eq_some_iff, Option.pure_def,
      Option.some.injEq]
    constructor
    · rintro ⟨_, hbefore, _, hm, rfl⟩
      obtain ⟨heach, rfl⟩ := (ih hrest).1 hbefore
      obtain ⟨haccepts, rfl⟩ := (execute_some hlast).1 hm
      exact ⟨⟨heach, haccepts⟩, rfl⟩
    · rintro ⟨⟨heach, haccepts⟩, rfl⟩
      exact ⟨_, (ih hrest).2 ⟨heach, rfl⟩, _, (execute_some hlast).2 ⟨haccepts, rfl⟩, rfl⟩

/-! ## What the ledger does not count -/

/-- What the ordinary sides of a match take of an owner's position; negative where they add to it. -/
def EngineMatch.takes (positions : Address → Int) (m : EngineMatch) (a : Address) : Int :=
  (if m.maker.reduceOnly = false ∧ m.maker.owner = a then
    if Closes (positions a) m.maker then m.size else -m.size else 0) +
  if m.taker.reduceOnly = false ∧ m.taker.owner = a then
    if Closes (positions a) m.taker then m.size else -m.size else 0

def takenSize (positions : Address → Int) (a : Address) (ms : List EngineMatch) : Int :=
  (ms.map (·.takes positions a)).sum

/-- How much of a position there is on the side of `p`. -/
def against (p q : Int) : Int := if p > 0 then q else -q

theorem against_fillDelta {p : Int} (hp : p ≠ 0) (o : EngineOrder) (size : Int) :
    against p (Engine.fillDelta o.isLong size) = if Closes p o then -size else size := by
  have hcloses : Closes p o ↔ o.isLong ≠ decide (p > 0) := and_iff_right hp
  unfold against Engine.fillDelta
  rcases lt_or_gt_of_ne hp with hneg | hpos
  · rw [decide_eq_false (by omega)] at hcloses
    rw [if_neg (by omega)]
    cases hlong : o.isLong with
    | true => rw [if_pos rfl, if_pos (hcloses.2 (by rw [hlong]; decide))]
    | false => rw [if_neg (by decide), neg_neg, if_neg fun h => hcloses.1 h hlong]
  · rw [decide_eq_true hpos] at hcloses
    rw [if_pos hpos]
    cases hlong : o.isLong with
    | true => rw [if_pos rfl, if_neg fun h => hcloses.1 h hlong]
    | false => rw [if_neg (by decide), if_pos (hcloses.2 (by rw [hlong]; decide))]

theorem against_add (p q r : Int) : against p (q + r) = against p q + against p r := by
  unfold against
  split_ifs <;> omega

/-- A side of a match moves the position by what it closes, or by what it takes. -/
theorem against_side {p : Int} (hp : p ≠ 0) {a : Address} (hclosing : o.owner = a → o.reduceOnly = true → Closes p o) :
    against p (if o.owner = a then Engine.fillDelta o.isLong size else 0) =
      -((if o.reduceOnly = true ∧ o.owner = a then size else 0) +
        if o.reduceOnly = false ∧ o.owner = a then if Closes p o then size else -size else 0) := by
  by_cases ha : o.owner = a
  · rw [if_pos ha, against_fillDelta hp]
    cases hr : o.reduceOnly with
    | true => simp only [if_pos (hclosing ha hr), ha, and_true, if_true, Bool.true_eq_false, if_false, add_zero]
    | false =>
      simp only [ha, and_true, if_true, Bool.false_eq_true, if_false, zero_add]
      split_ifs <;> omega
  · rw [if_neg ha, if_neg (fun h => ha h.2), if_neg (fun h => ha h.2)]
    unfold against
    split_ifs <;> omega

/-- **The position at a turn is what the ledger leaves of it, less what ordinary fills have taken.** -/
theorem against_settled (a : Address) (hp : input.positions a ≠ 0) (hfair : ∀ m ∈ ms, Fair input m) :
    against (input.positions a) (settled input.positions ms a) =
      |input.positions a| - closedSize a ms - takenSize input.positions a ms := by
  induction ms using List.reverseRecOn with
  | nil =>
    have hstart : settled input.positions [] a = input.positions a := add_zero _
    have hnone : closedSize a [] = 0 ∧ takenSize input.positions a [] = 0 := ⟨rfl, rfl⟩
    rw [hstart, hnone.1, hnone.2]
    unfold against
    split_ifs with hpos
    · rw [abs_of_pos hpos]
      omega
    · rw [abs_of_neg (by omega)]
      omega
  | append_singleton ms m ih =>
    have hm := hfair m (List.mem_append_right _ (List.mem_singleton_self m))
    have ih := ih fun m hm => hfair m (List.mem_append_left _ hm)
    have htaken : takenSize input.positions a (ms ++ [m]) =
        takenSize input.positions a ms + m.takes input.positions a := by
      simp [takenSize]
    rw [settled_snoc, against_add, ih, EngineMatch.moves, against_add,
      against_side hp fun ha hr => ha ▸ hm.closing _ (Or.inl rfl) hr,
      against_side hp fun ha hr => ha ▸ hm.closing _ (Or.inr rfl) hr, closedSize_snoc, htaken, EngineMatch.closes,
      EngineMatch.takes]
    omega

theorem replay_closed (hfair : ∀ m ∈ ms, Fair input m) (a : Address) :
    (replay input.positions ms).closed (a, input.marketId) = closedSize a ms := by
  induction ms using List.reverseRecOn with
  | nil => rfl
  | append_singleton ms m ih =>
    have hm := hfair m (List.mem_append_right _ (List.mem_singleton_self m))
    have ih := ih fun m hm => hfair m (List.mem_append_left _ hm)
    rw [closedSize_snoc, ← ih, replay, List.foldl_append]
    simp only [List.foldl_cons, List.foldl_nil, Ledger.book_closed, hm.maker.market, hm.taker.market, Prod.mk.injEq,
      and_true]
    exact add_assoc _ _ _

/-- What the ledger leaves of an owner's position beyond a fill of its order. -/
def Ledger.slack (l : Ledger) (o : EngineOrder) (size : Int) : Int :=
  |l.positions o.owner| - l.closed (o.owner, o.marketId) - size

/-- At the turn of a pair, what the ordinary matches so far have taken of a reduce-only side's position is within what the
ledger leaves of it beyond the pair's size. -/
def Spared (input : EngineInput) (ms : List EngineMatch) (bid ask : EngineOrder) : Prop :=
  ∀ o, o = bid ∨ o = ask → o.reduceOnly = true →
    takenSize input.positions o.owner ms ≤
      (replay input.positions ms).slack o (sizeOf (replay input.positions ms) bid ask)

instance (ms : List EngineMatch) (bid ask : EngineOrder) : Decidable (Spared input ms bid ask) :=
  decidable_of_iff ((bid.reduceOnly = true → takenSize input.positions bid.owner ms ≤
      (replay input.positions ms).slack bid (sizeOf (replay input.positions ms) bid ask)) ∧
    (ask.reduceOnly = true → takenSize input.positions ask.owner ms ≤
      (replay input.positions ms).slack ask (sizeOf (replay input.positions ms) bid ask)))
    (by unfold Spared; simp only [or_imp, forall_and, forall_eq])

theorem replay_positions (positions : Address → Int) (ms : List EngineMatch) :
    (replay positions ms).positions = positions := by
  induction ms using List.reverseRecOn with
  | nil => rfl
  | append_singleton ms m ih =>
    rw [replay, List.foldl_append]
    exact ih

/-- A side that closed the position it started from still closes a part of `size` iff that much is left on its side. -/
theorem closes_iff_against {p q : Int} (hcloses : Closes p o) (hsize : 0 < size) :
    Closes q o ∧ size ≤ |q| ↔ size ≤ against p q := by
  obtain ⟨hp, hside⟩ := hcloses
  unfold against
  constructor
  · rintro ⟨⟨hq, hside'⟩, hle⟩
    have hsame : decide (q > 0) = decide (p > 0) := by
      cases hlong : o.isLong <;> cases hdp : decide (p > 0) <;> cases hdq : decide (q > 0) <;> simp_all
    rw [decide_eq_decide] at hsame
    split_ifs with hpos
    · rwa [abs_of_pos (hsame.2 hpos)] at hle
    · rwa [abs_of_neg (by omega)] at hle
  · intro hle
    split_ifs at hle with hpos
    · rw [Closes, decide_eq_true (show q > 0 by omega), abs_of_pos (by omega)]
      rw [decide_eq_true hpos] at hside
      exact ⟨⟨by omega, hside⟩, hle⟩
    · rw [Closes, decide_eq_false (show ¬ q > 0 by omega), abs_of_neg (by omega)]
      rw [decide_eq_false hpos] at hside
      exact ⟨⟨by omega, hside⟩, hle⟩

theorem side_iff : (o = m.bidSide ∨ o = m.askSide) ↔ (o = m.maker ∨ o = m.taker) := by
  unfold EngineMatch.bidSide EngineMatch.askSide
  split_ifs
  · exact Iff.rfl
  · exact or_comm

/-- **At its turn a match is accepted iff its reduce-only sides are spared.** -/
theorem accepts_iff (hfair : ∀ m ∈ ms, Fair input m) (hm : Fair input m) (hturn : Turn input ms m) :
    Accepts (settled input.positions ms) m ↔ Spared input ms m.bidSide m.askSide := by
  unfold Accepts Spared
  refine forall_congr' fun o => ?_
  rw [side_iff]
  refine imp_congr_right fun ho => imp_congr_right fun hr => ?_
  have hcloses := hm.closing o ho hr
  have hmarket : o.marketId = input.marketId := by
    rcases ho with rfl | rfl
    · exact hm.maker.market
    · exact hm.taker.market
  rw [closes_iff_against hcloses hm.size, against_settled o.owner hcloses.1 hfair, ← hturn.size, Ledger.slack,
    replay_positions, hmarket, replay_closed hfair]
  omega

/-- **With no ordinary order against a position that a reduce-only order closes, every side is spared.** -/
theorem spared_of_unmixed (hunmixed : ∀ r o, Eligible input r → r.reduceOnly = true → Eligible input o →
      o.reduceOnly = false → o.owner = r.owner → ¬ Closes (input.positions o.owner) o) :
    Each (fun ms m => Spared input ms m.bidSide m.askSide) (matchOrders input).matches_ := by
  intro ms m rest hms o ho hr
  have hfair := matchOrders_fair input
  have hturn := matchOrders_turns input ms m rest hms
  have hm := hfair m (hms ▸ List.mem_append_right _ List.mem_cons_self)
  have hside := side_iff.1 ho
  have ho' : Eligible input o := by
    rcases hside with rfl | rfl
    · exact hm.maker
    · exact hm.taker
  have hnone : takenSize input.positions o.owner ms ≤ 0 := by
    refine (List.sum_le_card_nsmul _ 0 fun x hx => ?_).trans_eq (nsmul_zero _)
    obtain ⟨m', hm', rfl⟩ := List.mem_map.1 hx
    have hfair' := hfair m' (hms ▸ List.mem_append_left _ hm')
    have hpos := hfair'.size
    have hadds : ∀ s, s = m'.maker ∨ s = m'.taker → (if s.reduceOnly = false ∧ s.owner = o.owner then
        if Closes (input.positions o.owner) s then m'.size else -m'.size else 0) ≤ 0 := by
      intro s hs
      have hs' : Eligible input s := by
        rcases hs with rfl | rfl
        · exact hfair'.maker
        · exact hfair'.taker
      split_ifs with hordinary hcloses
      · exact absurd (hordinary.2 ▸ hcloses) (hunmixed o s ho' hr hs' hordinary.1 hordinary.2)
      · omega
      · exact le_refl 0
    exact add_nonpos (hadds _ (Or.inl rfl)) (hadds _ (Or.inr rfl))
  have hfill : 0 < (replay input.positions ms).fillable o ∧
      sizeOf (replay input.positions ms) m.bidSide m.askSide ≤ (replay input.positions ms).fillable o := by
    rcases ho with rfl | rfl
    · exact ⟨hturn.tradable.bidLeft, min_le_left _ _⟩
    · exact ⟨hturn.tradable.askLeft, min_le_right _ _⟩
  have hroom := (Ledger.fillable_closes hr hfill.1).2
  unfold Ledger.slack
  omega

/-- A trader long 10 who sells 10 with an ordinary order and 10 with a reduce-only one, and a bid for 20. -/
def Sample.netted : EngineInput where
  marketId := 1
  nowSec := 1000
  orders := [
    { market with orderHash := 1, owner := 11, isLong := false },
    { market with orderHash := 2, owner := 11, isLong := false, reduceOnly := true, createdAt := 2 },
    { market with orderHash := 3, owner := 12, size := 20 * 10 ^ 18, createdAt := 3 }]
  positions := fun a => if a = 11 then 10 * 10 ^ 18 else 0
  minValidNonce := fun _ => 0
  minFillNotional := 10 ^ 18
  acceptPrice := none

end Kryon.Matching
