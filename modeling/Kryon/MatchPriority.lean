import Kryon.MatchSafety
import Mathlib.Algebra.Order.Ring.Int
/-!
# MatchPriority — nothing tradable is left over, and nothing is passed over

A ledger only grows, so what an order may fill only shrinks and a pair that may not trade never may again
(`Tradable.anti`).  After its turn a pair may not trade, so when the sweep stops no pair may, and when an order trades every
pair of higher priority had its turn.  On distinct hashes the two sorted sides are determined by the orders as a set.
-/
namespace Kryon.Matching

open Prefix (Each)

variable {input : EngineInput} {l l' : Ledger} {s : Sweep} {o a b c bid ask : EngineOrder} {asc : Bool}

/-! ## Priority -/

/-- `a` is at a better price than `b`. -/
def Better (asc : Bool) (a b : EngineOrder) : Prop :=
  if asc then a.limitPrice < b.limitPrice else b.limitPrice < a.limitPrice

/-- **The comparator is the lexicographic order of price, arrival and hash.** -/
theorem compare_le : compare a b asc ≤ 0 ↔ Better asc a b ∨ a.limitPrice = b.limitPrice ∧
    (a.createdAt < b.createdAt ∨ a.createdAt = b.createdAt ∧ a.orderHash.val ≤ b.orderHash.val) := by
  unfold compare Better
  by_cases hprice : a.limitPrice = b.limitPrice
  · rw [if_neg (not_not.2 hprice)]
    simp only [Fin.lt_def, gt_iff_lt]
    cases asc with
    | true => split_ifs <;> omega
    | false => split_ifs <;> omega
  · rw [if_pos hprice]
    cases asc with
    | true =>
      simp only [if_true]
      split_ifs <;> omega
    | false =>
      simp only [Bool.false_eq_true, if_false]
      split_ifs <;> omega

theorem compare_neg : compare a b asc < 0 ↔ ¬ compare b a asc ≤ 0 := by
  rw [compare_le]
  unfold compare Better
  by_cases hprice : a.limitPrice = b.limitPrice
  · rw [if_neg (not_not.2 hprice)]
    simp only [Fin.lt_def, gt_iff_lt]
    cases asc with
    | true => split_ifs <;> omega
    | false => split_ifs <;> omega
  · rw [if_pos hprice]
    cases asc with
    | true =>
      simp only [if_true]
      split_ifs <;> omega
    | false =>
      simp only [Bool.false_eq_true, if_false]
      split_ifs <;> omega

theorem compare_total (a b : EngineOrder) (asc : Bool) : compare a b asc ≤ 0 ∨ compare b a asc ≤ 0 := by
  by_cases h : compare b a asc ≤ 0
  · exact Or.inr h
  · exact Or.inl (compare_neg.2 h).le

theorem compare_trans (h : compare a b asc ≤ 0) (h' : compare b c asc ≤ 0) : compare a c asc ≤ 0 := by
  rw [compare_le] at h h' ⊢
  unfold Better at h h' ⊢
  cases asc with
  | true =>
    simp only [if_true] at h h' ⊢
    omega
  | false =>
    simp only [Bool.false_eq_true, if_false] at h h' ⊢
    omega

theorem compare_antisymm (h : compare a b asc ≤ 0) (h' : compare b a asc ≤ 0) : a.orderHash = b.orderHash := by
  refine Fin.ext ?_
  rw [compare_le] at h h'
  unfold Better at h h'
  cases asc with
  | true =>
    simp only [if_true] at h h'
    omega
  | false =>
    simp only [Bool.false_eq_true, if_false] at h h'
    omega

theorem compare_ask (h : compare a b true ≤ 0) : a.limitPrice ≤ b.limitPrice := by
  rcases compare_le.1 h with hbetter | ⟨heq, -⟩
  · exact le_of_lt hbetter
  · exact heq.le

theorem compare_bid (h : compare a b false ≤ 0) : b.limitPrice ≤ a.limitPrice := by
  rcases compare_le.1 h with hbetter | ⟨heq, -⟩
  · exact le_of_lt hbetter
  · exact heq.ge

theorem side_sorted (os : List EngineOrder) (asc : Bool) :
    (os.insertionSort fun a b => compare a b asc ≤ 0).Pairwise fun a b => compare a b asc ≤ 0 := by
  have : Std.Total fun a b : EngineOrder => compare a b asc ≤ 0 := ⟨fun a b => compare_total a b asc⟩
  have : IsTrans EngineOrder fun a b => compare a b asc ≤ 0 := ⟨fun _ _ _ => compare_trans⟩
  exact List.pairwise_insertionSort _ os

/-- **Orders with distinct hashes sort to one list, in whatever order they come.** -/
theorem side_perm {os os' : List EngineOrder} (hperm : os.Perm os') (hnodup : (os.map (·.orderHash)).Nodup) :
    os.insertionSort (fun a b => compare a b asc ≤ 0) = os'.insertionSort fun a b => compare a b asc ≤ 0 := by
  have hperm' : (os.insertionSort fun a b => compare a b asc ≤ 0).Perm
      (os'.insertionSort fun a b => compare a b asc ≤ 0) :=
    (List.perm_insertionSort _ os).trans (hperm.trans (List.perm_insertionSort _ os').symm)
  refine List.Perm.eq_of_pairwise (fun a b ha hb hab hba => ?_) (side_sorted os asc) (side_sorted os' asc) hperm'
  rw [List.mem_insertionSort] at ha hb
  exact List.inj_on_of_nodup_map hnodup ha (hperm.mem_iff.2 hb) (compare_antisymm hab hba)

/-! ## Ledgers only grow -/

/-- `l'` has committed at least what `l` has. -/
structure Ledger.Le (l l' : Ledger) : Prop where
  positions : l'.positions = l.positions
  reserved : ∀ h, l.reserved h ≤ l'.reserved h
  closed : ∀ k, l.closed k ≤ l'.closed k

theorem Ledger.Le.refl (l : Ledger) : l.Le l := ⟨rfl, fun _ => le_refl _, fun _ => le_refl _⟩

theorem Ledger.Le.trans {l₁ l₂ l₃ : Ledger} (h : l₁.Le l₂) (h' : l₂.Le l₃) : l₁.Le l₃ :=
  ⟨h'.positions.trans h.positions, fun k => (h.reserved k).trans (h'.reserved k),
    fun k => (h.closed k).trans (h'.closed k)⟩

theorem Ledger.le_book {size : Int} (hsize : 0 ≤ size) (o : EngineOrder) : l.Le (l.book o size) := by
  refine ⟨rfl, fun h => ?_, fun k => ?_⟩
  · rw [Ledger.book_reserved]
    split_ifs <;> omega
  · rw [Ledger.book_closed]
    split_ifs <;> omega

theorem Ledger.fillable_ordinary (hr : o.reduceOnly = false) : l.fillable o = l.remaining o := by
  unfold Ledger.fillable
  simp only [hr, true_or, if_true]

theorem Ledger.fillable_reduceOnly (hr : o.reduceOnly = true) :
    l.fillable o = if l.remaining o ≤ 0 then l.remaining o
      else if Closes (l.positions o.owner) o then
        max 0 (min (l.remaining o) (|l.positions o.owner| - l.closed (o.owner, o.marketId)))
      else 0 := by
  unfold Ledger.fillable Closes
  simp only [hr, Bool.true_eq_false, false_or, ← not_or, ne_eq, ite_not]
  split_ifs <;> omega

/-- What an order may fill only shrinks. -/
theorem Ledger.Le.fillable (h : l.Le l') (o : EngineOrder) : l'.fillable o ≤ l.fillable o := by
  have hreserved := h.reserved o.orderHash
  have hclosed := h.closed (o.owner, o.marketId)
  by_cases hr : o.reduceOnly = true
  · rw [Ledger.fillable_reduceOnly hr, Ledger.fillable_reduceOnly hr, h.positions]
    unfold Ledger.remaining
    by_cases hcloses : Closes (l.positions o.owner) o
    · simp only [if_pos hcloses]
      split_ifs <;> omega
    · simp only [if_neg hcloses]
      split_ifs <;> omega
  · rw [Bool.not_eq_true] at hr
    rw [Ledger.fillable_ordinary hr, Ledger.fillable_ordinary hr]
    unfold Ledger.remaining
    omega

theorem notionalOf_mono {x y p : Int} (hp : 0 ≤ p) (hx : 0 ≤ x) (hxy : x ≤ y) : notionalOf x p ≤ notionalOf y p := by
  unfold notionalOf
  rw [Int.tdiv_eq_ediv_of_nonneg (mul_nonneg hx hp), Int.tdiv_eq_ediv_of_nonneg (mul_nonneg (hx.trans hxy) hp)]
  exact Int.ediv_le_ediv (by decide) (mul_le_mul_of_nonneg_right hxy hp)

/-- **A pair that may trade on a ledger may on every earlier one.** -/
theorem Tradable.anti (hle : l.Le l') (hprice : 0 ≤ (makerOf bid ask).limitPrice) (h : Tradable input l' bid ask) :
    Tradable input l bid ask := by
  have hsize : sizeOf l' bid ask ≤ sizeOf l bid ask := min_le_min (hle.fillable bid) (hle.fillable ask)
  exact ⟨h.owners, h.bidLeft.trans_le (hle.fillable bid), h.askLeft.trans_le (hle.fillable ask), h.price,
    h.notional.trans (notionalOf_mono hprice h.size_pos.le hsize)⟩

/-- An order that fills all it may is used up, whatever was committed besides. -/
theorem Ledger.Le.book_exhausts (hle : l.Le l') (h : 0 < l.fillable o) :
    (l'.book o (l.fillable o)).fillable o ≤ 0 := by
  have hreserved := Ledger.book_reserved (l := l') o (l.fillable o) o.orderHash
  have hclosed := Ledger.book_closed (l := l') o (l.fillable o) (o.owner, o.marketId)
  have hmore := hle.reserved o.orderHash
  have hmore' := hle.closed (o.owner, o.marketId)
  rw [if_pos rfl] at hreserved
  generalize hbooked : l'.book o (l.fillable o) = b at hreserved hclosed
  have hpositions : b.positions = l.positions := by rw [← hbooked, Ledger.book_positions, hle.positions]
  by_cases hr : o.reduceOnly = true
  · rw [if_pos ⟨hr, rfl⟩] at hclosed
    obtain ⟨hcloses, -⟩ := Ledger.fillable_closes hr h
    rw [Ledger.fillable_reduceOnly hr, hpositions, if_pos hcloses]
    rw [Ledger.fillable_reduceOnly hr, if_pos hcloses] at hreserved hclosed h
    unfold Ledger.remaining at *
    split_ifs at hreserved hclosed h ⊢ <;> omega
  · rw [Bool.not_eq_true] at hr
    rw [Ledger.fillable_ordinary hr] at hreserved h ⊢
    unfold Ledger.remaining at *
    omega

/-- **A pair that has had its turn may not trade again.** -/
theorem pair_settles (input : EngineInput) (bid ask : EngineOrder) (s : Sweep) :
    s.ledger.Le (pair input bid ask s).ledger ∧ ¬ Tradable input (pair input bid ask s).ledger bid ask := by
  rcases pair_cases input bid ask s with ⟨ht, hledger, -⟩ | ⟨hnot, hledger, -⟩
  · have hbid : s.ledger.Le (s.ledger.book bid (sizeOf s.ledger bid ask)) := Ledger.le_book ht.size_pos.le bid
    have hask := Ledger.le_book (l := s.ledger.book bid (sizeOf s.ledger bid ask)) ht.size_pos.le ask
    rw [hledger]
    refine ⟨hbid.trans hask, fun h => ?_⟩
    rcases le_total (s.ledger.fillable bid) (s.ledger.fillable ask) with hle | hle
    · have hused := (Ledger.Le.refl s.ledger).book_exhausts ht.bidLeft
      have hsize : sizeOf s.ledger bid ask = s.ledger.fillable bid := min_eq_left hle
      rw [← hsize] at hused
      exact absurd h.bidLeft (not_lt.2 ((hask.fillable bid).trans hused))
    · have hused := hbid.book_exhausts ht.askLeft
      have hsize : sizeOf s.ledger bid ask = s.ledger.fillable ask := min_eq_right hle
      rw [← hsize] at hused
      exact absurd h.askLeft (not_lt.2 hused)
  · rw [hledger]
    exact ⟨Ledger.Le.refl _, hnot⟩

/-! ## Replaying the matches -/

/-- What is committed once the matches are booked, in their order. -/
def replay (positions : Address → Int) (ms : List EngineMatch) : Ledger :=
  ms.foldl (fun l m => (l.book m.maker m.size).book m.taker m.size) (Ledger.new positions)

theorem Ledger.book_comm (l : Ledger) (a b : EngineOrder) (size : Int) :
    (l.book a size).book b size = (l.book b size).book a size := by
  have hreserved : ((l.book a size).book b size).reserved = ((l.book b size).book a size).reserved := by
    funext h
    simp only [Ledger.book_reserved]
    exact add_right_comm _ _ _
  have hclosed : ((l.book a size).book b size).closed = ((l.book b size).book a size).closed := by
    funext k
    simp only [Ledger.book_closed]
    exact add_right_comm _ _ _
  calc (l.book a size).book b size
      = ⟨l.positions, ((l.book a size).book b size).reserved, ((l.book a size).book b size).closed⟩ := rfl
    _ = ⟨l.positions, ((l.book b size).book a size).reserved, ((l.book b size).book a size).closed⟩ := by
      rw [hreserved, hclosed]
    _ = (l.book b size).book a size := rfl

theorem replay_snoc (positions : Address → Int) (ms : List EngineMatch) (l : Ledger) (sequence : Nat) {size : Int}
    (hsize : size = sizeOf l bid ask) :
    replay positions (ms ++ [matchOf l bid ask sequence]) = ((replay positions ms).book bid size).book ask size := by
  rw [replay, List.foldl_append, hsize]
  rcases maker_taker bid ask with ⟨hm, ht⟩ | ⟨hm, ht⟩
  · simp only [List.foldl_cons, List.foldl_nil, matchOf, hm, ht]
    rfl
  · simp only [List.foldl_cons, List.foldl_nil, matchOf, hm, ht]
    exact Ledger.book_comm _ _ _ _

def EngineMatch.bidSide (m : EngineMatch) : EngineOrder := if m.maker.isLong then m.maker else m.taker

def EngineMatch.askSide (m : EngineMatch) : EngineOrder := if m.maker.isLong then m.taker else m.maker

theorem matchOf_sides (hb : bid.isLong = true) (ha : ask.isLong = false) (l : Ledger) (sequence : Nat) :
    (matchOf l bid ask sequence).bidSide = bid ∧ (matchOf l bid ask sequence).askSide = ask := by
  unfold EngineMatch.bidSide EngineMatch.askSide
  rcases maker_taker bid ask with ⟨hm, ht⟩ | ⟨hm, ht⟩
  · simp only [matchOf, hm, ht, hb, if_true, and_self]
  · simp only [matchOf, hm, ht, ha, Bool.false_eq_true, if_false, and_self]

/-! ## Turns -/

/-- No crossing pair of these orders may trade any more. -/
def Swept (input : EngineInput) (l : Ledger) (bs as : List EngineOrder) : Prop :=
  ∀ b ∈ bs, ∀ a ∈ as, a.limitPrice ≤ b.limitPrice → ¬ Tradable input l b a

/-- A match trades what its pair may. -/
structure Turn (input : EngineInput) (ms : List EngineMatch) (m : EngineMatch) : Prop where
  tradable : Tradable input (replay input.positions ms) m.bidSide m.askSide
  size : m.size = sizeOf (replay input.positions ms) m.bidSide m.askSide

/-- What a sweep has done, told by its matches. -/
structure Told (input : EngineInput) (s : Sweep) : Prop where
  ledger : s.ledger = replay input.positions s.matches_
  turns : Each (Turn input) s.matches_

theorem told_new (skips : List EngineSkip) : Told input ⟨Ledger.new input.positions, [], fun _ => 0, skips⟩ :=
  ⟨rfl, Prefix.each_nil⟩

theorem pair_told (hb : bid.isLong = true) (ha : ask.isLong = false) (h : Told input s) :
    Told input (pair input bid ask s) := by
  rcases pair_cases input bid ask s with ⟨ht, hledger, sequence, hmatches⟩ | ⟨-, hledger, hmatches⟩
  · obtain ⟨hsideb, hsidea⟩ := matchOf_sides hb ha s.ledger sequence
    refine ⟨?_, ?_⟩
    · rw [hledger, hmatches, replay_snoc _ _ _ _ rfl, ← h.ledger]
    · rw [hmatches, Prefix.each_snoc]
      refine ⟨h.turns, ?_, ?_⟩
      · rw [← h.ledger, hsideb, hsidea]
        exact ht
      · rw [← h.ledger, hsideb, hsidea]
        rfl
  · refine ⟨?_, ?_⟩
    · rw [hledger, hmatches]
      exact h.ledger
    · rw [hmatches]
      exact h.turns

/-- **Every match of the engine trades what its pair may**, after the matches before it. -/
theorem matchOrders_turns (input : EngineInput) : Each (Turn input) (matchOrders input).matches_ :=
  (sweepBids_keeps (Told input) (asks input) (bids input)
    ⟨Ledger.new input.positions, [], fun _ => 0, ineligibleSkips input⟩
    (fun _ _ _ hbid hask _ hs => pair_told (mem_bids.1 hbid).2 (mem_asks.1 hask).2 hs) (told_new _)).turns

/-- The pairs of higher priority than a match's had their turn before it. -/
structure Prior (input : EngineInput) (ms : List EngineMatch) (m : EngineMatch) : Prop where
  bids : ∀ b ∈ bids input, compare b m.bidSide false < 0 → ¬ Tradable input (replay input.positions ms) b m.askSide
  asks : ∀ a ∈ asks input, compare a m.askSide true < 0 → ¬ Tradable input (replay input.positions ms) m.bidSide a

/-- Every order of the book has a price. -/
def Priced (input : EngineInput) : Prop := ∀ o ∈ input.orders, 0 < o.limitPrice

section Sweep
variable (hpriced : Priced input)
include hpriced

theorem Swept.mono {bs as : List EngineOrder} (hbs : ∀ b ∈ bs, b ∈ bids input) (has : ∀ a ∈ as, a ∈ asks input)
    (hle : l.Le l') (h : Swept input l bs as) : Swept input l' bs as := by
  intro b hb a ha hcross ht
  have hprice : 0 ≤ (makerOf b a).limitPrice := by
    rcases maker_taker b a with ⟨hm, -⟩ | ⟨hm, -⟩
    · rw [hm]
      exact (hpriced b (mem_bids.1 (hbs b hb)).1.mem).le
    · rw [hm]
      exact (hpriced a (mem_asks.1 (has a ha)).1.mem).le
  exact h b hb a ha hcross (ht.anti hle hprice)

/-- **The inner loop gives the bid its turn with every ask.**  `before` are the asks it has had it with. -/
theorem sweepAsks_swept {bs : List EngineOrder} (hbid : bid ∈ bids input) (hbs : ∀ b ∈ bs, b ∈ bids input)
    (hfirst : ∀ b ∈ bids input, compare b bid false < 0 → b ∈ bs) :
    ∀ (as before : List EngineOrder) (s : Sweep), asks input = before ++ as → Swept input s.ledger bs (asks input) →
      Swept input s.ledger [bid] before → Told input s → Each (Prior input) s.matches_ →
        s.ledger.Le (sweepAsks input bid as s).ledger ∧
          Swept input (sweepAsks input bid as s).ledger [bid] (asks input) ∧
          Told input (sweepAsks input bid as s) ∧ Each (Prior input) (sweepAsks input bid as s).matches_
  | [], before, s, hall, _, hdone, htold, hprior => by
    rw [List.append_nil] at hall
    rw [hall]
    exact ⟨Ledger.Le.refl _, hdone, htold, hprior⟩
  | ask :: as, before, s, hall, hswept, hdone, htold, hprior => by
    have hsorted : (before ++ ask :: as).Pairwise fun a b => compare a b true ≤ 0 := hall ▸ side_sorted _ true
    have hmem : ∀ a, a ∈ before ∨ a = ask ∨ a ∈ as → a ∈ asks input := by
      intro a ha
      rw [hall, List.mem_append, List.mem_cons]
      exact ha
    rw [List.pairwise_append, List.pairwise_cons] at hsorted
    obtain ⟨-, ⟨hlater, -⟩, hacross⟩ := hsorted
    unfold sweepAsks
    split_ifs with hcross hleft
    · -- Every later ask is above the bid too.
      refine ⟨Ledger.Le.refl _, fun b hb a ha hle => ?_, htold, hprior⟩
      rw [List.mem_singleton] at hb
      subst hb
      rw [hall, List.mem_append, List.mem_cons] at ha
      rcases ha with ha | rfl | ha
      · exact hdone b (List.mem_singleton_self b) a ha hle
      · exact absurd hle (not_le.2 hcross)
      · have hprice := compare_ask (hlater a ha)
        omega
    · -- The bid is used up.
      refine ⟨Ledger.Le.refl _, fun b hb a ha hle ht => ?_, htold, hprior⟩
      rw [List.mem_singleton] at hb
      subst hb
      exact absurd ((ht.bidLeft.trans_le (Ledger.fillable_le ht.bidLeft))) (not_lt.2 hleft)
    · obtain ⟨hle, hturn⟩ := pair_settles input bid ask s
      have hask := hmem ask (Or.inr (Or.inl rfl))
      have htold' : Told input (pair input bid ask s) := pair_told (mem_bids.1 hbid).2 (mem_asks.1 hask).2 htold
      have hprior' : Each (Prior input) (pair input bid ask s).matches_ := by
        rcases pair_cases input bid ask s with ⟨-, -, sequence, hmatches⟩ | ⟨-, -, hmatches⟩
        · obtain ⟨hsideb, hsidea⟩ := matchOf_sides (mem_bids.1 hbid).2 (mem_asks.1 hask).2 s.ledger sequence
          rw [hmatches, Prefix.each_snoc]
          refine ⟨hprior, fun b hb hless => ?_, fun a ha hless => ?_⟩
          · rw [hsideb] at hless
            rw [← htold.ledger, hsidea]
            have hhigher := compare_bid hless.le
            exact hswept b (hfirst b hb hless) ask hask (le_trans (not_lt.1 hcross) hhigher)
          · rw [hsidea] at hless
            rw [← htold.ledger, hsideb]
            have hlower := compare_ask hless.le
            rw [hall, List.mem_append, List.mem_cons] at ha
            rcases ha with ha | rfl | ha
            · exact hdone bid (List.mem_singleton_self bid) a ha (hlower.trans (not_lt.1 hcross))
            · exact absurd hless.le (compare_neg.1 hless)
            · exact absurd (hlater a ha) (compare_neg.1 hless)
        · rw [hmatches]
          exact hprior
      have hbefore : ∀ a ∈ before, a ∈ asks input := fun a ha => hmem a (Or.inl ha)
      have hself : ∀ b ∈ [bid], b ∈ bids input := by
        intro b hb
        rw [List.mem_singleton.1 hb]
        exact hbid
      have hdone' : Swept input (pair input bid ask s).ledger [bid] (before ++ [ask]) := by
        intro b hb a ha
        rw [List.mem_append, List.mem_singleton] at ha
        rcases ha with ha | rfl
        · exact Swept.mono hpriced hself hbefore hle hdone b hb a ha
        · rw [List.mem_singleton.1 hb]
          exact fun _ => hturn
      have hswept' := Swept.mono hpriced hbs (fun _ => id) hle hswept
      obtain ⟨hle', hrest⟩ := sweepAsks_swept hbid hbs hfirst as (before ++ [ask]) _
        (by rw [hall, List.append_assoc]; rfl) hswept' hdone' htold' hprior'
      exact ⟨hle.trans hle', hrest⟩

/-- **The sweep gives every bid its turn with every ask.**  `before` are the bids that have had theirs. -/
theorem sweepBids_swept : ∀ (bs before : List EngineOrder) (s : Sweep), bids input = before ++ bs →
    Swept input s.ledger before (asks input) → Told input s → Each (Prior input) s.matches_ →
      Swept input (sweepBids input (asks input) bs s).ledger (bids input) (asks input) ∧
        Told input (sweepBids input (asks input) bs s) ∧ Each (Prior input) (sweepBids input (asks input) bs s).matches_
  | [], before, s, hall, hswept, htold, hprior => by
    rw [List.append_nil] at hall
    exact ⟨hall ▸ hswept, htold, hprior⟩
  | bid :: bs, before, s, hall, hswept, htold, hprior => by
    have hsorted : (before ++ bid :: bs).Pairwise fun a b => compare a b false ≤ 0 := hall ▸ side_sorted _ false
    rw [List.pairwise_append, List.pairwise_cons] at hsorted
    obtain ⟨-, ⟨hlater, -⟩, -⟩ := hsorted
    have hbid : bid ∈ bids input := by
      rw [hall]
      exact List.mem_append_right _ List.mem_cons_self
    have hbefore : ∀ b ∈ before, b ∈ bids input := by
      intro b hb
      rw [hall]
      exact List.mem_append_left _ hb
    have hfirst : ∀ b ∈ bids input, compare b bid false < 0 → b ∈ before := by
      intro b hb hless
      rw [hall, List.mem_append, List.mem_cons] at hb
      rcases hb with hb | rfl | hb
      · exact hb
      · exact absurd hless.le (compare_neg.1 hless)
      · exact absurd (hlater b hb) (compare_neg.1 hless)
    obtain ⟨hle, hturn, htold', hprior'⟩ := sweepAsks_swept hpriced hbid hbefore hfirst (asks input) [] s rfl hswept
      (fun _ _ a ha => absurd ha List.not_mem_nil) htold hprior
    refine sweepBids_swept bs (before ++ [bid]) _ (by rw [hall, List.append_assoc]; rfl) ?_ htold' hprior'
    intro b hb
    rw [List.mem_append] at hb
    rcases hb with hb | hb
    · exact Swept.mono hpriced hbefore (fun _ => id) hle hswept b hb
    · exact hturn b hb

end Sweep

/-! ## The matches -/

/-- An order of the book that may rest: of this market, unexpired and not cancelled. -/
structure Live (input : EngineInput) (o : EngineOrder) : Prop where
  mem : o ∈ input.orders
  market : o.marketId = input.marketId
  unexpired : input.nowSec < o.expiry
  lifetime : o.expiry ≤ input.nowSec + MAX_ORDER_TTL_SECONDS
  nonce : input.minValidNonce o.owner ≤ o.nonce

theorem Live.eligible (h : Live input o) (hle : (Ledger.new input.positions).Le l) (hfill : 0 < l.fillable o) :
    Eligible input o := by
  have hstart := hfill.trans_le (hle.fillable o)
  have hleft := hstart.trans_le (Ledger.fillable_le hstart)
  have hnew : (Ledger.new input.positions).remaining o = o.size - o.filledSize := sub_zero _
  rw [hnew] at hleft
  exact ⟨h.mem, h.market, h.unexpired, h.lifetime, h.nonce, hleft, fun _ => hstart⟩

theorem new_le_replay {ms : List EngineMatch} (hms : ∀ m ∈ ms, 0 ≤ m.size) :
    (Ledger.new input.positions).Le (replay input.positions ms) := by
  induction ms using List.reverseRecOn with
  | nil => exact Ledger.Le.refl _
  | append_singleton ms m ih =>
    have hm : 0 ≤ m.size := hms m (List.mem_append_right _ (List.mem_singleton_self m))
    rw [replay, List.foldl_append]
    refine (ih fun m hm => hms m (List.mem_append_left _ hm)).trans ?_
    exact (Ledger.le_book hm m.maker).trans (Ledger.le_book hm m.taker)

/-- `o` was passed over in its pairing: it is exhausted, or the pairing is inadmissible. -/
def Passed (input : EngineInput) (l : Ledger) (o bid ask : EngineOrder) : Prop :=
  l.fillable o ≤ 0 ∨ bid.owner = ask.owner ∨ acceptable input (makerOf bid ask).limitPrice = false ∨
    notionalOf (sizeOf l bid ask) (makerOf bid ask).limitPrice < input.minFillNotional

theorem passed_of_not_tradable (hbid : 0 < l.fillable bid ∨ o = bid) (hask : 0 < l.fillable ask ∨ o = ask)
    (h : ¬ Tradable input l bid ask) : Passed input l o bid ask := by
  by_contra hpassed
  unfold Passed at hpassed
  rw [not_or, not_or, not_or, not_le, not_lt, Bool.not_eq_false] at hpassed
  obtain ⟨hleft, howners, hprice, hfloor⟩ := hpassed
  refine h ⟨howners, ?_, ?_, hprice, hfloor⟩
  · rcases hbid with hbid | rfl
    · exact hbid
    · exact hleft
  · rcases hask with hask | rfl
    · exact hask
    · exact hleft

theorem matchOrders_swept (hpriced : Priced input) :
    Swept input (replay input.positions (matchOrders input).matches_) (bids input) (asks input) ∧
      Each (Prior input) (matchOrders input).matches_ := by
  obtain ⟨hswept, htold, hprior⟩ := sweepBids_swept hpriced (bids input) []
    ⟨Ledger.new input.positions, [], fun _ => 0, ineligibleSkips input⟩ rfl (fun b hb => absurd hb List.not_mem_nil)
    (told_new _) Prefix.each_nil
  rw [htold.ledger] at hswept
  exact ⟨hswept, hprior⟩

theorem sides_perm {orders : List EngineOrder} (hperm : orders.Perm input.orders)
    (hnodup : (input.orders.map (·.orderHash)).Nodup) :
    bids { input with orders := orders } = bids input ∧ asks { input with orders := orders } = asks input := by
  have heligible : (eligible { input with orders := orders }).Perm (eligible input) := hperm.filter _
  have hside : ∀ p : EngineOrder → Bool, (((eligible { input with orders := orders }).filter p).map (·.orderHash)).Nodup := by
    intro p
    have hsub : ((eligible { input with orders := orders }).filter p).Sublist orders :=
      List.filter_sublist.trans List.filter_sublist
    exact (hsub.map _).nodup ((hperm.map _).nodup_iff.2 hnodup)
  exact ⟨side_perm (heligible.filter _) (hside _), side_perm (heligible.filter _) (hside _)⟩

/-! ## The order of the book -/

/-- Sweeps that differ in their skips at most. -/
structure Sweep.Same (s t : Sweep) : Prop where
  ledger : s.ledger = t.ledger
  matches_ : s.matches_ = t.matches_
  sequences : s.sequences = t.sequences

theorem pair_same {t : Sweep} (orders : List EngineOrder) (bid ask : EngineOrder) (h : s.Same t) :
    (pair { input with orders := orders } bid ask s).Same (pair input bid ask t) := by
  have haccept : acceptable { input with orders := orders } (makerOf bid ask).limitPrice =
      acceptable input (makerOf bid ask).limitPrice := rfl
  unfold pair
  simp only [h.ledger, h.matches_, h.sequences, haccept]
  split_ifs
  · exact ⟨h.ledger, h.matches_, h.sequences⟩
  · exact h
  · exact ⟨h.ledger, h.matches_, h.sequences⟩
  · exact ⟨h.ledger, h.matches_, h.sequences⟩
  · exact ⟨rfl, rfl, rfl⟩

theorem sweepAsks_same (orders : List EngineOrder) (bid : EngineOrder) : ∀ (as : List EngineOrder) {s t : Sweep},
    s.Same t → (sweepAsks { input with orders := orders } bid as s).Same (sweepAsks input bid as t)
  | [], _, _, h => h
  | ask :: as, _, _, h => by
    unfold sweepAsks
    rw [h.ledger]
    split_ifs
    · exact h
    · exact h
    · exact sweepAsks_same orders bid as (pair_same orders bid ask h)

theorem sweepBids_same (orders as : List EngineOrder) : ∀ (bs : List EngineOrder) {s t : Sweep},
    s.Same t → (sweepBids { input with orders := orders } as bs s).Same (sweepBids input as bs t)
  | [], _, _, h => h
  | bid :: bs, _, _, h => sweepBids_same orders as bs (sweepAsks_same orders bid as h)

/-- **Matching is maximal, by priority, and a function of the book.** When the engine stops no pair of resting orders may
trade; when two orders trade, every order of higher priority on either side is exhausted or its pairing with the other is
inadmissible at that point; and a book of distinct hashes has the same matches in whatever order it is given. -/
theorem matching_maximal (hpriced : Priced input) (hnodup : (input.orders.map (·.orderHash)).Nodup) :
    (∀ bid ask, Live input bid → bid.isLong = true → Live input ask → ask.isLong = false →
      ask.limitPrice ≤ bid.limitPrice →
        ¬ Tradable input (replay input.positions (matchOrders input).matches_) bid ask) ∧
    Each (fun ms m =>
      (∀ o, Live input o → o.isLong = true → compare o m.bidSide false < 0 →
        Passed input (replay input.positions ms) o o m.askSide) ∧
      ∀ o, Live input o → o.isLong = false → compare o m.askSide true < 0 →
        Passed input (replay input.positions ms) o m.bidSide o) (matchOrders input).matches_ ∧
    ∀ orders : List EngineOrder, orders.Perm input.orders →
      (matchOrders { input with orders := orders }).matches_ = (matchOrders input).matches_ := by
  obtain ⟨hswept, hprior⟩ := matchOrders_swept hpriced
  have hsizes : ∀ m ∈ (matchOrders input).matches_, 0 ≤ m.size := fun m hm => (matchOrders_fair input m hm).size.le
  refine ⟨fun bid ask hbid hlong hask hshort hcross ht => ?_, fun ms m rest hms => ?_, fun orders hperm => ?_⟩
  · have hle : (Ledger.new input.positions).Le (replay input.positions (matchOrders input).matches_) :=
      new_le_replay hsizes
    exact hswept bid (mem_bids.2 ⟨hbid.eligible hle ht.bidLeft, hlong⟩) ask
      (mem_asks.2 ⟨hask.eligible hle ht.askLeft, hshort⟩) hcross ht
  · have hp := hprior ms m rest hms
    have hturn := (matchOrders_turns input ms m rest hms).tradable
    have hle : (Ledger.new input.positions).Le (replay input.positions ms) := by
      refine new_le_replay fun m' hm' => hsizes m' ?_
      rw [hms]
      exact List.mem_append_left _ hm'
    refine ⟨fun o ho hlong hless => ?_, fun o ho hshort hless => ?_⟩
    · by_cases hleft : 0 < (replay input.positions ms).fillable o
      · exact passed_of_not_tradable (Or.inl hleft) (Or.inl hturn.askLeft)
          (hp.bids o (mem_bids.2 ⟨ho.eligible hle hleft, hlong⟩) hless)
      · exact Or.inl (not_lt.1 hleft)
    · by_cases hleft : 0 < (replay input.positions ms).fillable o
      · exact passed_of_not_tradable (Or.inl hturn.bidLeft) (Or.inl hleft)
          (hp.asks o (mem_asks.2 ⟨ho.eligible hle hleft, hshort⟩) hless)
      · exact Or.inl (not_lt.1 hleft)
  · obtain ⟨hbids, hasks⟩ := sides_perm hperm hnodup
    have hstart : Sweep.Same
        ⟨Ledger.new input.positions, [], fun _ => 0, ineligibleSkips { input with orders := orders }⟩
        ⟨Ledger.new input.positions, [], fun _ => 0, ineligibleSkips input⟩ := ⟨rfl, rfl, rfl⟩
    simp only [matchOrders, hbids, hasks]
    exact (sweepBids_same orders (asks input) (bids input) hstart).matches_

namespace Sample

def market : EngineOrder where
  orderHash := 0
  owner := 0
  marketId := 1
  isLong := true
  size := 10 * 10 ^ 18
  limitPrice := 100 * 10 ^ 18
  reduceOnly := false
  nonce := 1
  expiry := 2000
  filledSize := 0
  createdAt := 1

/-- A bid, a cheaper ask of the same owner and a dearer one of another. -/
def crossed : EngineInput where
  marketId := 1
  nowSec := 1000
  orders := [
    { market with orderHash := 1, owner := 11, limitPrice := 101 * 10 ^ 18 },
    { market with orderHash := 2, owner := 11, isLong := false, limitPrice := 99 * 10 ^ 18, createdAt := 2 },
    { market with orderHash := 3, owner := 12, isLong := false, createdAt := 3 }]
  positions := fun _ => 0
  minValidNonce := fun _ => 0
  minFillNotional := 10 ^ 18
  acceptPrice := none

end Sample

/-- The bid walks past its owner's ask and trades with the other at its own limit. -/
theorem matching_maximal_crossed :
    (matchOrders Sample.crossed).matches_.map (fun m => (m.maker.orderHash, m.taker.orderHash, m.price)) =
      [(1, 3, 101 * 10 ^ 18)] ∧
    (matchOrders { Sample.crossed with orders := Sample.crossed.orders.reverse }).matches_ =
      (matchOrders Sample.crossed).matches_ := by
  have hpriced : Priced Sample.crossed := by
    unfold Priced
    decide +kernel
  have hmaximal := matching_maximal hpriced (by decide +kernel)
  exact ⟨by decide +kernel, hmaximal.2.2 _ (List.reverse_perm _)⟩

end Kryon.Matching
