import Kryon.Matching
import Mathlib.Algebra.BigOperators.Group.List.Basic
/-!
# MatchSafety — what every match of the engine satisfies

A pair books on the ledger what it trades, so what is reserved covers what an order has matched, and what is closed is what
the reduce-only orders of an owner have closed.  A size is within what is left of both, so no order is matched beyond its
size and no position is closed beyond itself.
-/
namespace Kryon.Matching

open Function (update)

variable {input : EngineInput} {l : Ledger} {s : Sweep} {o bid ask : EngineOrder} {m : EngineMatch}

/-! ## What an order may fill -/

theorem Ledger.fillable_le (h : 0 < l.fillable o) : l.fillable o ≤ l.remaining o := by
  unfold Ledger.fillable at h ⊢
  simp only at h ⊢
  split_ifs at h ⊢
  · exact le_refl _
  · exact absurd h (lt_irrefl 0)
  · exact absurd h (lt_irrefl 0)
  · exact min_le_left _ _

/-- The order closes: it is against its owner's position. -/
def Closes (position : Int) (o : EngineOrder) : Prop := position ≠ 0 ∧ o.isLong ≠ decide (position > 0)

instance (position : Int) (o : EngineOrder) : Decidable (Closes position o) := inferInstanceAs (Decidable (_ ∧ _))

theorem Ledger.fillable_closes (hr : o.reduceOnly = true) (h : 0 < l.fillable o) :
    Closes (l.positions o.owner) o ∧ l.fillable o ≤ |l.positions o.owner| - l.closed (o.owner, o.marketId) := by
  unfold Ledger.fillable at h ⊢
  simp only [hr, Bool.true_eq_false, false_or] at h ⊢
  split_ifs at h ⊢ with hleft hflat hroom
  · exact absurd h (not_lt.2 hleft)
  · exact absurd h (lt_irrefl 0)
  · exact absurd h (lt_irrefl 0)
  · exact ⟨not_or.1 hflat, min_le_right _ _⟩

/-! ## Eligible orders -/

/-- An order of the book that can trade: of this market, unexpired, not cancelled, with something left to fill. -/
structure Eligible (input : EngineInput) (o : EngineOrder) : Prop where
  mem : o ∈ input.orders
  market : o.marketId = input.marketId
  unexpired : input.nowSec < o.expiry
  lifetime : o.expiry ≤ input.nowSec + MAX_ORDER_TTL_SECONDS
  nonce : input.minValidNonce o.owner ≤ o.nonce
  unfilled : 0 < o.size - o.filledSize
  closing : o.reduceOnly = true → 0 < (Ledger.new input.positions).fillable o

theorem ineligible_eq_none : ineligible input o = none ↔
    (input.nowSec < o.expiry ∧ o.expiry ≤ input.nowSec + MAX_ORDER_TTL_SECONDS) ∧
      input.minValidNonce o.owner ≤ o.nonce ∧ 0 < o.size - o.filledSize ∧
      (o.reduceOnly = true → 0 < (Ledger.new input.positions).fillable o) := by
  unfold ineligible
  split_ifs with h1 h2 h3 h4
  · refine iff_of_false (by simp) fun h => ?_
    omega
  · refine iff_of_false (by simp) fun h => ?_
    omega
  · refine iff_of_false (by simp) fun h => ?_
    omega
  · exact iff_of_false (by simp) fun h => absurd (h.2.2.2 h4.1) (not_lt.2 h4.2)
  · refine iff_of_true rfl ⟨by omega, by omega, by omega, fun hr => not_le.1 fun hle => h4 ⟨hr, hle⟩⟩

theorem mem_eligible : o ∈ eligible input ↔ Eligible input o := by
  unfold eligible
  rw [List.mem_filter, Bool.and_eq_true, decide_eq_true_eq, Option.isNone_iff_eq_none, ineligible_eq_none]
  constructor
  · rintro ⟨hmem, hmarket, ⟨hexp, httl⟩, hnonce, hleft, hclose⟩
    exact ⟨hmem, hmarket, hexp, httl, hnonce, hleft, hclose⟩
  · rintro ⟨hmem, hmarket, hexp, httl, hnonce, hleft, hclose⟩
    exact ⟨hmem, hmarket, ⟨hexp, httl⟩, hnonce, hleft, hclose⟩

theorem mem_bids : o ∈ bids input ↔ Eligible input o ∧ o.isLong = true := by
  rw [bids, List.mem_insertionSort, List.mem_filter, mem_eligible]

theorem mem_asks : o ∈ asks input ↔ Eligible input o ∧ o.isLong = false := by
  rw [asks, List.mem_insertionSort, List.mem_filter, mem_eligible, Bool.not_eq_true']

/-! ## The loops -/

/-- **What every crossing pair keeps, the inner loop keeps.** -/
theorem sweepAsks_keeps (I : Sweep → Prop) : ∀ (as : List EngineOrder) (s : Sweep),
    (∀ ask s, ask ∈ as → ask.limitPrice ≤ bid.limitPrice → I s → I (pair input bid ask s)) → I s →
      I (sweepAsks input bid as s)
  | [], _, _, hs => hs
  | ask :: as, s, hpair, hs => by
    unfold sweepAsks
    split_ifs with hcross hleft
    · exact hs
    · exact hs
    · exact sweepAsks_keeps I as _ (fun ask s hask => hpair ask s (List.mem_cons_of_mem _ hask))
        (hpair ask s List.mem_cons_self (not_lt.1 hcross) hs)

/-- **What every crossing pair keeps, the sweep keeps.** -/
theorem sweepBids_keeps (I : Sweep → Prop) (as : List EngineOrder) : ∀ (bs : List EngineOrder) (s : Sweep),
    (∀ bid ask s, bid ∈ bs → ask ∈ as → ask.limitPrice ≤ bid.limitPrice → I s → I (pair input bid ask s)) → I s →
      I (sweepBids input as bs s)
  | [], _, _, hs => hs
  | bid :: bs, s, hpair, hs => by
    unfold sweepBids
    refine sweepBids_keeps I as bs _ (fun bid ask s hbid => hpair bid ask s (List.mem_cons_of_mem _ hbid)) ?_
    exact sweepAsks_keeps I as s (fun ask s => hpair bid ask s List.mem_cons_self) hs

/-! ## What is matched and closed -/

/-- What a match fills of an order. -/
def EngineMatch.fills (m : EngineMatch) (o : EngineOrder) : Int :=
  (if m.maker = o then m.size else 0) + if m.taker = o then m.size else 0

def matchedSize (o : EngineOrder) (ms : List EngineMatch) : Int := (ms.map (·.fills o)).sum

/-- What a match's reduce-only sides close for an owner. -/
def EngineMatch.closes (m : EngineMatch) (a : Address) : Int :=
  (if m.maker.reduceOnly = true ∧ m.maker.owner = a then m.size else 0) +
    if m.taker.reduceOnly = true ∧ m.taker.owner = a then m.size else 0

def closedSize (a : Address) (ms : List EngineMatch) : Int := (ms.map (·.closes a)).sum

/-- What a match satisfies on its own. -/
structure Fair (input : EngineInput) (m : EngineMatch) : Prop where
  maker : Eligible input m.maker
  taker : Eligible input m.taker
  sides : m.maker.isLong ≠ m.taker.isLong
  owners : m.maker.owner ≠ m.taker.owner
  arrival : compareArrival m.maker m.taker ≤ 0
  price : m.price = m.maker.limitPrice
  limits : ∀ o, o = m.maker ∨ o = m.taker → if o.isLong then m.price ≤ o.limitPrice else o.limitPrice ≤ m.price
  acceptable : acceptable input m.price = true
  size : 0 < m.size
  notional : m.notional = notionalOf m.size m.price ∧ input.minFillNotional ≤ m.notional
  closing : ∀ o, o = m.maker ∨ o = m.taker → o.reduceOnly = true → Closes (input.positions o.owner) o

/-- What the sweep keeps. -/
structure Booked (input : EngineInput) (s : Sweep) : Prop where
  positions : s.ledger.positions = input.positions
  fair : ∀ m ∈ s.matches_, Fair input m
  reserved : ∀ o, matchedSize o s.matches_ ≤ s.ledger.reserved o.orderHash
  filled : ∀ o, matchedSize o s.matches_ = 0 ∨ matchedSize o s.matches_ ≤ o.size - o.filledSize
  closed : ∀ a, closedSize a s.matches_ = s.ledger.closed (a, input.marketId)
  within : ∀ a, closedSize a s.matches_ ≤ |input.positions a|

theorem matchedSize_snoc (ms : List EngineMatch) (m : EngineMatch) :
    matchedSize o (ms ++ [m]) = matchedSize o ms + m.fills o := by
  simp [matchedSize]

theorem closedSize_snoc (a : Address) (ms : List EngineMatch) (m : EngineMatch) :
    closedSize a (ms ++ [m]) = closedSize a ms + m.closes a := by
  simp [closedSize]

theorem maker_taker (bid ask : EngineOrder) :
    (makerOf bid ask = bid ∧ takerOf bid ask = ask) ∨ (makerOf bid ask = ask ∧ takerOf bid ask = bid) := by
  unfold makerOf takerOf
  split_ifs
  · exact Or.inl ⟨rfl, rfl⟩
  · exact Or.inr ⟨rfl, rfl⟩

theorem matchOf_fills (l : Ledger) (sequence : Nat) :
    (matchOf l bid ask sequence).fills o =
      (if bid = o then sizeOf l bid ask else 0) + if ask = o then sizeOf l bid ask else 0 := by
  rcases maker_taker bid ask with ⟨hm, ht⟩ | ⟨hm, ht⟩
  · simp only [EngineMatch.fills, matchOf, hm, ht]
  · simp only [EngineMatch.fills, matchOf, hm, ht]
    exact add_comm _ _

theorem matchOf_closes (l : Ledger) (sequence : Nat) (a : Address) :
    (matchOf l bid ask sequence).closes a =
      (if bid.reduceOnly = true ∧ bid.owner = a then sizeOf l bid ask else 0) +
        if ask.reduceOnly = true ∧ ask.owner = a then sizeOf l bid ask else 0 := by
  rcases maker_taker bid ask with ⟨hm, ht⟩ | ⟨hm, ht⟩
  · simp only [EngineMatch.closes, matchOf, hm, ht]
  · simp only [EngineMatch.closes, matchOf, hm, ht]
    exact add_comm _ _

theorem maker_first (bid ask : EngineOrder) : compareArrival (makerOf bid ask) (takerOf bid ask) ≤ 0 := by
  unfold makerOf takerOf
  split_ifs with h
  · exact h
  · unfold compareArrival at h ⊢
    split_ifs at h ⊢ <;> omega

/-! ## What a booking changes -/

theorem Ledger.book_positions (o : EngineOrder) (size : Int) : (l.book o size).positions = l.positions := rfl

theorem Ledger.book_reserved (o : EngineOrder) (size : Int) (h : Bytes32) :
    (l.book o size).reserved h = l.reserved h + if o.orderHash = h then size else 0 := by
  unfold Ledger.book
  simp only
  by_cases hh : h = o.orderHash
  · rw [hh, Function.update_self, if_pos rfl]
  · rw [Function.update_of_ne hh, if_neg (Ne.symm hh), add_zero]

theorem Ledger.book_closed (o : EngineOrder) (size : Int) (k : Address × MarketId) :
    (l.book o size).closed k = l.closed k + if o.reduceOnly = true ∧ (o.owner, o.marketId) = k then size else 0 := by
  unfold Ledger.book
  simp only
  by_cases hr : o.reduceOnly = true
  · rw [if_pos hr]
    by_cases hk : k = (o.owner, o.marketId)
    · rw [hk, Function.update_self, if_pos ⟨hr, rfl⟩]
    · rw [Function.update_of_ne hk, if_neg (fun h => hk h.2.symm), add_zero]
  · rw [if_neg hr, if_neg (fun h => hr h.1), add_zero]

theorem reserved_trade {size : Int} (hsize : 0 < size) (o : EngineOrder) (hne : bid ≠ ask) :
    ((if bid = o then size else 0) + if ask = o then size else 0) ≤
      ((l.book bid size).book ask size).reserved o.orderHash - l.reserved o.orderHash := by
  rw [Ledger.book_reserved, Ledger.book_reserved]
  by_cases hb : bid = o
  · have ha : ask ≠ o := fun h => hne (hb.trans h.symm)
    rw [if_pos hb, if_neg ha, if_pos (congrArg _ hb)]
    split_ifs <;> omega
  · rw [if_neg hb]
    by_cases ha : ask = o
    · rw [if_pos ha, if_pos (congrArg EngineOrder.orderHash ha)]
      split_ifs <;> omega
    · rw [if_neg ha]
      split_ifs <;> omega

/-! ## The sweep keeps it -/

/-- **A pair that trades satisfies everything a match should.** -/
theorem fair_match (hb : Eligible input bid ∧ bid.isLong = true) (ha : Eligible input ask ∧ ask.isLong = false)
    (hcross : ask.limitPrice ≤ bid.limitPrice) (hl : l.positions = input.positions)
    (ht : Tradable input l bid ask) (sequence : Nat) : Fair input (matchOf l bid ask sequence) := by
  have hclosing : ∀ o, o = bid ∨ o = ask → o.reduceOnly = true → Closes (input.positions o.owner) o := by
    rintro o (rfl | rfl) hr
    · exact hl ▸ (Ledger.fillable_closes hr ht.bidLeft).1
    · exact hl ▸ (Ledger.fillable_closes hr ht.askLeft).1
  have hlimits : ∀ o, o = bid ∨ o = ask →
      if o.isLong then (makerOf bid ask).limitPrice ≤ o.limitPrice else o.limitPrice ≤ (makerOf bid ask).limitPrice := by
    have hmaker : (makerOf bid ask).limitPrice ≤ bid.limitPrice ∧ ask.limitPrice ≤ (makerOf bid ask).limitPrice := by
      rcases maker_taker bid ask with ⟨hm, -⟩ | ⟨hm, -⟩
      · rw [hm]
        exact ⟨le_refl _, hcross⟩
      · rw [hm]
        exact ⟨hcross, le_refl _⟩
    rintro o (rfl | rfl)
    · rw [if_pos hb.2]
      exact hmaker.1
    · rw [if_neg (by simp [ha.2])]
      exact hmaker.2
  have hfirst := maker_first bid ask
  rcases maker_taker bid ask with ⟨hm, htk⟩ | ⟨hm, htk⟩
  · rw [hm] at hlimits
    refine ⟨?_, ?_, ?_, ?_, hfirst, rfl, ?_, ht.price, ht.size_pos, ⟨rfl, ht.notional⟩, ?_⟩ <;>
      simp only [matchOf, hm, htk]
    · exact hb.1
    · exact ha.1
    · rw [hb.2, ha.2]
      decide
    · exact ht.owners
    · exact hlimits
    · exact hclosing
  · rw [hm] at hlimits
    refine ⟨?_, ?_, ?_, ?_, hfirst, rfl, ?_, ht.price, ht.size_pos, ⟨rfl, ht.notional⟩, ?_⟩ <;>
      simp only [matchOf, hm, htk]
    · exact ha.1
    · exact hb.1
    · rw [hb.2, ha.2]
      decide
    · exact ht.owners.symm
    · exact fun o ho => hlimits o ho.symm
    · exact fun o ho => hclosing o ho.symm

/-- **A pair keeps what is booked.** -/
theorem pair_booked (hb : Eligible input bid ∧ bid.isLong = true) (ha : Eligible input ask ∧ ask.isLong = false)
    (hcross : ask.limitPrice ≤ bid.limitPrice) (hs : Booked input s) : Booked input (pair input bid ask s) := by
  rcases pair_cases input bid ask s with ⟨ht, hledger, sequence, hmatches⟩ | ⟨-, hledger, hmatches⟩
  · have hne : bid ≠ ask := fun h => ht.owners (congrArg _ h)
    have hpos := ht.size_pos
    have hsizes : sizeOf s.ledger bid ask ≤ s.ledger.fillable bid ∧ sizeOf s.ledger bid ask ≤ s.ledger.fillable ask :=
      ⟨min_le_left _ _, min_le_right _ _⟩
    have hclosed : ∀ a, closedSize a (pair input bid ask s).matches_ =
        (pair input bid ask s).ledger.closed (a, input.marketId) := by
      intro a
      have hkey : ∀ o : EngineOrder, o.marketId = input.marketId →
          (o.reduceOnly = true ∧ (o.owner, o.marketId) = (a, input.marketId) ↔ o.reduceOnly = true ∧ o.owner = a) := by
        intro o hm
        rw [hm, Prod.mk.injEq, and_iff_left rfl]
      rw [hmatches, closedSize_snoc, matchOf_closes, hledger, Ledger.book_closed, Ledger.book_closed, hs.closed a]
      simp only [hkey bid hb.1.market, hkey ask ha.1.market]
      exact (add_assoc _ _ _).symm
    refine ⟨?_, ?_, fun o => ?_, fun o => ?_, hclosed, fun a => ?_⟩
    · rw [hledger]
      exact hs.positions
    · intro m hm
      rw [hmatches, List.mem_append, List.mem_singleton] at hm
      rcases hm with hm | rfl
      · exact hs.fair m hm
      · exact fair_match hb ha hcross hs.positions ht sequence
    · have htrade := reserved_trade (l := s.ledger) hpos o hne
      have hold := hs.reserved o
      rw [hmatches, matchedSize_snoc, matchOf_fills, hledger]
      omega
    · -- What is left of the order when it trades bounds all it has traded.
      have hold := hs.reserved o
      have hfilled := hs.filled o
      rw [hmatches, matchedSize_snoc, matchOf_fills]
      by_cases hbo : bid = o
      · subst hbo
        have hleft := Ledger.fillable_le ht.bidLeft
        unfold Ledger.remaining at hleft
        rw [if_pos rfl, if_neg hne.symm]
        exact Or.inr (by omega)
      · by_cases hao : ask = o
        · subst hao
          have hleft := Ledger.fillable_le ht.askLeft
          unfold Ledger.remaining at hleft
          rw [if_neg hbo, if_pos rfl]
          exact Or.inr (by omega)
        · rw [if_neg hbo, if_neg hao, add_zero, add_zero]
          exact hfilled
    · have hold := hs.within a
      rw [hmatches, closedSize_snoc, matchOf_closes]
      have hroom : ∀ o : EngineOrder, o.marketId = input.marketId → o.reduceOnly = true → o.owner = a →
          0 < s.ledger.fillable o → s.ledger.fillable o ≤ |input.positions a| - closedSize a s.matches_ := by
        rintro o hm hr rfl hleft
        have hcloses := (Ledger.fillable_closes hr hleft).2
        rwa [hm, hs.positions, ← hs.closed] at hcloses
      by_cases hbo : bid.reduceOnly = true ∧ bid.owner = a
      · have hao : ¬ (ask.reduceOnly = true ∧ ask.owner = a) := fun h => ht.owners (hbo.2.trans h.2.symm)
        have hbid := hroom bid hb.1.market hbo.1 hbo.2 ht.bidLeft
        rw [if_pos hbo, if_neg hao]
        omega
      · rw [if_neg hbo]
        by_cases hao : ask.reduceOnly = true ∧ ask.owner = a
        · have hask := hroom ask ha.1.market hao.1 hao.2 ht.askLeft
          rw [if_pos hao]
          omega
        · rw [if_neg hao]
          omega
  · refine ⟨?_, ?_, ?_, ?_, ?_, ?_⟩
    · rw [hledger]
      exact hs.positions
    · rw [hmatches]
      exact hs.fair
    · rw [hmatches, hledger]
      exact hs.reserved
    · rw [hmatches]
      exact hs.filled
    · rw [hmatches, hledger]
      exact hs.closed
    · rw [hmatches]
      exact hs.within

theorem booked_new (skips : List EngineSkip) :
    Booked input ⟨Ledger.new input.positions, [], fun _ => 0, skips⟩ :=
  ⟨rfl, fun _ hm => absurd hm List.not_mem_nil, fun _ => le_refl 0, fun _ => Or.inl rfl, fun _ => rfl,
    fun _ => abs_nonneg _⟩

theorem matchOrders_booked (input : EngineInput) : Booked input (sweepBids input (asks input) (bids input)
    ⟨Ledger.new input.positions, [], fun _ => 0, ineligibleSkips input⟩) :=
  sweepBids_keeps (Booked input) _ _ _ (fun bid ask s hbid hask hcross hs =>
    pair_booked (mem_bids.1 hbid) (mem_asks.1 hask) hcross hs) (booked_new _)

theorem matchOrders_fair (input : EngineInput) : ∀ m ∈ (matchOrders input).matches_, Fair input m :=
  (matchOrders_booked input).fair

/-- **Matching is safe.** Every match is between eligible orders of different owners and opposite sides, at the limit of the
one that rested first, within both limits, acceptable and at or above the minimum; no order is matched beyond what it has
left; and what an owner's reduce-only orders close is against its position and within it. -/
theorem matches_safe (input : EngineInput) :
    (∀ m ∈ (matchOrders input).matches_, Fair input m) ∧
      (∀ o, matchedSize o (matchOrders input).matches_ = 0 ∨
        matchedSize o (matchOrders input).matches_ ≤ o.size - o.filledSize) ∧
      ∀ a, closedSize a (matchOrders input).matches_ ≤ |input.positions a| := by
  have hs := matchOrders_booked input
  exact ⟨hs.fair, hs.filled, hs.within⟩

end Kryon.Matching
