import Kryon.Lib.Book
import Kryon.Lib.Transition
import Mathlib.Algebra.Order.BigOperators.Group.Finset
import Mathlib.Algebra.BigOperators.Ring.Finset
import Mathlib.Algebra.Order.Ring.Int
import Mathlib.Tactic.Ring
import Mathlib.Tactic.Linarith
/-!
# Clearing — a book of balances and signed positions with lazily settled funding

A clearing house holds cash, keeps a balance for every account and a signed position with a cost basis for every account
and market, and charges funding through one index per side and market.  A position settles its funding against a pool
account only when it trades.  Its events are zero-sum transfers, credits against cash, donations of cash, trades between
two accounts, and moves of a market's funding indexes.

Whatever the run of events: the surplus of cash over what the house owes is what was donated (`step_surplus`); the stored
totals are the sums they stand for and long equals short (`Balanced`); and a pool that is never debited stays solvent
together with the funding still owed to it, as long as every settlement rounds towards it (`step_pool`).
-/
namespace Clearing

open Function (update)
open Book Transition

structure State (A M : Type) where
  cash : Int
  bal : A → Int
  total : Int
  size : A × M → Int
  basis : A × M → Int
  last : A × M → Int
  long : M → Int
  short : M → Int
  netBasis : Int
  longIndex : M → Int
  shortIndex : M → Int

variable {A M : Type}

/-- The funding index a position of signed size `q` accrues. -/
def State.sideIndex (s : State A M) (m : M) (q : Int) : Int := if q > 0 then s.longIndex m else s.shortIndex m

/-- The unsettled funding of a position, in units of the index. -/
def State.owed (s : State A M) (k : A × M) : Int := |s.size k| * (s.sideIndex k.2 (s.size k) - s.last k)

def longPart (q : Int) : Int := max q 0

def shortPart (q : Int) : Int := max (-q) 0

inductive Event (A M : Type) where
  | transfer (i j : A) (x : Int)
  | credit (i : A) (x : Int)
  | donate (x : Int)
  /-- `i` takes `d` of the size at the signed value `v`, and `j` the opposite. -/
  | trade (i j : A) (m : M) (d v : Int)
  | reindex (m : M) (δ : Int)

/-- What one side of a trade books: the funding it pays to the pool, the change of its cost basis, and its next funding
reference. -/
structure Terms where
  payment : Int
  basisChange : Int
  last : Int

variable [DecidableEq A] [DecidableEq M]

def State.leg (s : State A M) (pool i : A) (m : M) (d v : Int) (x : Terms) : State A M :=
  { s with
    bal := post (transfer s.bal i pool x.payment) i (x.basisChange - v)
    total := s.total + (x.basisChange - v)
    size := update s.size (i, m) (s.size (i, m) + d)
    basis := update s.basis (i, m) (s.basis (i, m) + x.basisChange)
    last := update s.last (i, m) x.last
    long := update s.long m (s.long m + (longPart (s.size (i, m) + d) - longPart (s.size (i, m))))
    short := update s.short m (s.short m + (shortPart (s.size (i, m) + d) - shortPart (s.size (i, m))))
    netBasis := s.netBasis + x.basisChange }

/-- One side of a trade: funding is settled in the pool's favour and an open position refers to the present index. -/
inductive Leg (pool : A) (unit : Int) (s : State A M) (i : A) (m : M) (d v : Int) : State A M → Prop where
  | mk (x : Terms) (hpay : s.owed (i, m) ≤ x.payment * unit)
      (hlast : s.size (i, m) + d ≠ 0 → x.last = s.sideIndex m (s.size (i, m) + d)) :
      Leg pool unit s i m d v (s.leg pool i m d v x)

inductive Step (pool : A) (unit : Int) : State A M → Event A M → State A M → Prop where
  | transfer {s : State A M} (i j : A) {x : Int} (hx : 0 ≤ x) :
      Step pool unit s (.transfer i j x) { s with bal := Book.transfer s.bal i j x }
  | credit {s : State A M} (i : A) (x : Int) :
      Step pool unit s (.credit i x) { s with cash := s.cash + x, bal := post s.bal i x, total := s.total + x }
  | donate {s : State A M} {x : Int} (hx : 0 ≤ x) : Step pool unit s (.donate x) { s with cash := s.cash + x }
  | trade {s t u : State A M} {i j : A} {m : M} {d v : Int} (hi : Leg pool unit s i m d v t)
      (hj : Leg pool unit t j m (-d) (-v) u) : Step pool unit s (.trade i j m d v) u
  | reindex {s : State A M} (m : M) (δ : Int) :
      Step pool unit s (.reindex m δ)
        { s with
          longIndex := update s.longIndex m (s.longIndex m + δ)
          shortIndex := update s.shortIndex m (s.shortIndex m - δ) }

/-- The house before any event. -/
def State.empty (A M : Type) (cash : Int) : State A M :=
  ⟨cash, fun _ => 0, 0, fun _ => 0, fun _ => 0, fun _ => 0, fun _ => 0, fun _ => 0, 0, fun _ => 0, fun _ => 0⟩

def machine (pool : A) (unit : Int) : Machine (State A M) (Event A M) :=
  ⟨fun s => ∃ c, s = State.empty A M c, Step pool unit⟩

variable {pool : A} {unit : Int} {s t u : State A M}

/-! ## Surplus -/

def State.surplus (s : State A M) : Int := s.cash - (s.total - s.netBasis)

def Event.donated : Event A M → Int
  | .donate x => x
  | _ => 0

theorem leg_surplus {i : A} {m : M} {d v : Int} (h : Leg pool unit s i m d v t) : t.surplus = s.surplus + v := by
  obtain ⟨x, -, -⟩ := h
  simp only [State.surplus, State.leg]
  ring

/-- **An event moves the surplus by what it donates**; a trade's two sides cancel. -/
theorem step_surplus {e : Event A M} (h : Step pool unit s e t) : t.surplus = s.surplus + e.donated := by
  cases h with
  | transfer i j hx => simp [State.surplus, Event.donated]
  | credit i x =>
    simp only [State.surplus, Event.donated]
    ring
  | donate hx =>
    simp only [State.surplus, Event.donated]
    ring
  | trade hi hj =>
    rw [leg_surplus hj, leg_surplus hi]
    simp only [Event.donated]
    ring
  | reindex m δ => simp [State.surplus, Event.donated]

theorem donated_nonneg {e : Event A M} (h : Step pool unit s e t) : 0 ≤ e.donated := by
  cases h with
  | donate hx => exact hx
  | _ => exact le_refl 0

/-! ## Totals and open interest -/

variable [Fintype A] [Fintype M]

/-- The stored totals are the sums they stand for, and every market is matched. -/
structure Balanced (s : State A M) : Prop where
  total : s.total = Book.total s.bal
  netBasis : s.netBasis = Book.total s.basis
  long : ∀ m, s.long m = column longPart s.size m
  short : ∀ m, s.short m = column shortPart s.size m
  matched : ∀ m, column id s.size m = 0
  index : ∀ m, s.longIndex m + s.shortIndex m = 0

omit [DecidableEq A] [DecidableEq M] in
theorem balanced_empty (c : Int) : Balanced (State.empty A M c) := by
  constructor <;> simp [State.empty, Book.total, column, longPart, shortPart]

/-- The totals one side of a trade keeps; the market is off balance by its size until the other side follows. -/
structure Tracked (s : State A M) : Prop where
  total : s.total = Book.total s.bal
  netBasis : s.netBasis = Book.total s.basis
  long : ∀ m, s.long m = column longPart s.size m
  short : ∀ m, s.short m = column shortPart s.size m
  index : ∀ m, s.longIndex m + s.shortIndex m = 0

omit [DecidableEq A] [DecidableEq M] in
theorem Balanced.tracked (h : Balanced s) : Tracked s := ⟨h.total, h.netBasis, h.long, h.short, h.index⟩

theorem leg_tracked {i : A} {m : M} {d v : Int} (hs : Tracked s) (h : Leg pool unit s i m d v t) : Tracked t := by
  obtain ⟨x, -, -⟩ := h
  constructor
  · simp only [State.leg, total_post, total_transfer, hs.total]
  · simp only [State.leg, total_update, hs.netBasis]
    ring
  · intro n
    simp only [State.leg]
    rw [column_update]
    by_cases hn : n = m
    · subst hn
      simp [hs.long]
    · simp [hn, hs.long]
  · intro n
    simp only [State.leg]
    rw [column_update]
    by_cases hn : n = m
    · subst hn
      simp [hs.short]
    · simp [hn, hs.short]
  · exact hs.index

omit [Fintype M] in
theorem leg_column {i : A} {m : M} {d v : Int} (h : Leg pool unit s i m d v t) (n : M) :
    column id t.size n = column id s.size n + if n = m then d else 0 := by
  obtain ⟨x, -, -⟩ := h
  simp only [State.leg]
  rw [column_update]
  simp

/-- **Every event keeps the books balanced.** -/
theorem step_balanced {e : Event A M} (hs : Balanced s) (h : Step pool unit s e t) : Balanced t := by
  cases h with
  | transfer i j hx => exact ⟨by rw [total_transfer]; exact hs.total, hs.netBasis, hs.long, hs.short, hs.matched, hs.index⟩
  | credit i x => exact ⟨by rw [total_post, hs.total], hs.netBasis, hs.long, hs.short, hs.matched, hs.index⟩
  | donate hx => exact ⟨hs.total, hs.netBasis, hs.long, hs.short, hs.matched, hs.index⟩
  | trade hi hj =>
    have ht := leg_tracked (leg_tracked hs.tracked hi) hj
    refine ⟨ht.total, ht.netBasis, ht.long, ht.short, fun n => ?_, ht.index⟩
    rw [leg_column hj, leg_column hi, hs.matched]
    split <;> simp
  | reindex m δ =>
    refine ⟨hs.total, hs.netBasis, hs.long, hs.short, hs.matched, fun n => ?_⟩
    have hn := hs.index n
    by_cases h : n = m
    · subst h
      simp only [Function.update_self]
      linarith
    · simp only [Function.update_of_ne h]
      exact hn

/-- What the house owes: the accounts' balances less the positions' cost bases. -/
def State.exposure (s : State A M) : Int := Book.total s.bal - Book.total s.basis

def Event.credited : Event A M → Int
  | .credit _ x => x
  | _ => 0

theorem leg_exposure {i : A} {m : M} {d v : Int} (h : Leg pool unit s i m d v t) : t.exposure = s.exposure - v := by
  obtain ⟨x, -, -⟩ := h
  simp only [State.exposure, State.leg, total_post, total_transfer, total_update]
  ring

/-- **Only a credit moves what the house owes**; a trade's two sides cancel. -/
theorem step_exposure {e : Event A M} (h : Step pool unit s e t) : t.exposure = s.exposure + e.credited := by
  cases h with
  | transfer i j hx => simp only [State.exposure, total_transfer, Event.credited, add_zero]
  | credit i x =>
    simp only [State.exposure, total_post, Event.credited]
    ring
  | donate hx => simp only [State.exposure, Event.credited, add_zero]
  | trade hi hj =>
    rw [leg_exposure hj, leg_exposure hi]
    simp only [Event.credited]
    ring
  | reindex m δ => simp only [State.exposure, Event.credited, add_zero]

omit [DecidableEq A] [DecidableEq M] in
theorem longPart_sub_shortPart (q : Int) : longPart q - shortPart q = q := by
  unfold longPart shortPart
  omega

omit [DecidableEq A] [DecidableEq M] [Fintype M] in
theorem column_long_sub_short (s : State A M) (m : M) :
    column longPart s.size m - column shortPart s.size m = column id s.size m := by
  unfold column
  rw [← Finset.sum_sub_distrib]
  exact Finset.sum_congr rfl fun a _ => longPart_sub_shortPart _

omit [DecidableEq A] [DecidableEq M] in
/-- **Matched books carry as much long as short.** -/
theorem Balanced.long_eq_short (h : Balanced s) (m : M) : s.long m = s.short m := by
  have hsub := column_long_sub_short s m
  rw [h.matched, ← h.long, ← h.short] at hsub
  omega

/-! ## The funding pool -/

/-- The pool's balance and the funding still owed to it, in units of the index. -/
def State.poolEquity (s : State A M) (pool : A) (unit : Int) : Int := s.bal pool * unit + ∑ k, s.owed k

/-- The events that neither debit an account nor trade on it. -/
def Event.Spares (a : A) : Event A M → Prop
  | .transfer i _ _ => i ≠ a
  | .credit i x => i = a → 0 ≤ x
  | .trade i j _ _ _ => i ≠ a ∧ j ≠ a
  | _ => True

omit [Fintype A] [Fintype M] in
theorem leg_owed_self {i : A} {m : M} {d v : Int} {x : Terms}
    (hlast : s.size (i, m) + d ≠ 0 → x.last = s.sideIndex m (s.size (i, m) + d)) :
    (s.leg pool i m d v x).owed (i, m) = 0 := by
  simp only [State.owed, State.leg, State.sideIndex, Function.update_self]
  by_cases h : s.size (i, m) + d = 0
  · simp [h]
  · rw [hlast h]
    simp [State.sideIndex]

omit [Fintype A] [Fintype M] in
theorem leg_owed_of_ne {i : A} {m : M} {d v : Int} (x : Terms) {k : A × M} (hk : k ≠ (i, m)) :
    (s.leg pool i m d v x).owed k = s.owed k := by
  simp only [State.owed, State.leg, State.sideIndex, Function.update_of_ne hk]

theorem leg_pool {i : A} {m : M} {d v : Int} (hi : i ≠ pool) (h : Leg pool unit s i m d v t) :
    s.poolEquity pool unit ≤ t.poolEquity pool unit := by
  obtain ⟨x, hpay, hlast⟩ := h
  have hsum : ∑ k, (s.leg pool i m d v x).owed k = ∑ k, s.owed k - s.owed (i, m) := by
    rw [← Finset.add_sum_erase Finset.univ _ (Finset.mem_univ (i, m)), leg_owed_self hlast, zero_add,
      ← Finset.add_sum_erase Finset.univ s.owed (Finset.mem_univ (i, m)), add_sub_cancel_left]
    exact Finset.sum_congr rfl fun k hk => leg_owed_of_ne x (Finset.ne_of_mem_erase hk)
  have hbal : (s.leg pool i m d v x).bal pool = s.bal pool + x.payment := by
    simp only [State.leg, post_apply, transfer_apply, if_neg hi.symm, if_true]
    ring
  simp only [State.poolEquity, hsum, hbal, add_mul]
  linarith

omit [DecidableEq A] [Fintype A] [Fintype M] in
theorem reindex_owed (m : M) (δ : Int) (k : A × M) :
    ({ s with
        longIndex := update s.longIndex m (s.longIndex m + δ)
        shortIndex := update s.shortIndex m (s.shortIndex m - δ) } : State A M).owed k =
      s.owed k + if k.2 = m then s.size k * δ else 0 := by
  obtain ⟨a, n⟩ := k
  simp only [State.owed, State.sideIndex]
  by_cases hn : n = m
  · subst hn
    by_cases hq : s.size (a, n) > 0
    · simp only [hq, if_true, Function.update_self, abs_of_pos hq]
      ring
    · simp only [hq, if_false, if_true, Function.update_self, abs_of_nonpos (not_lt.1 hq)]
      ring
  · simp only [hn, if_false, Function.update_of_ne hn, add_zero]

omit [DecidableEq A] in
theorem reindex_pool (hs : Balanced s) (m : M) (δ : Int) :
    ({ s with
        longIndex := update s.longIndex m (s.longIndex m + δ)
        shortIndex := update s.shortIndex m (s.shortIndex m - δ) } : State A M).poolEquity pool unit =
      s.poolEquity pool unit := by
  have hzero : ∑ k : A × M, (if k.2 = m then s.size k * δ else 0) = 0 := by
    rw [Fintype.sum_prod_type]
    calc ∑ a, ∑ n, (if n = m then s.size (a, n) * δ else 0) = ∑ a, s.size (a, m) * δ :=
          Finset.sum_congr rfl fun a _ => by simp
      _ = column id s.size m * δ := by rw [column, Finset.sum_mul]; rfl
      _ = 0 := by rw [hs.matched, zero_mul]
  simp only [State.poolEquity, reindex_owed, Finset.sum_add_distrib, hzero, add_zero]

/-- **No event that spares the pool lowers its equity**: every settlement pays at least what was owed, and a matched
market owes the pool nothing when its indexes move. -/
theorem step_pool {e : Event A M} (hs : Balanced s) (hsafe : e.Spares pool) (hunit : 0 ≤ unit)
    (h : Step pool unit s e t) : s.poolEquity pool unit ≤ t.poolEquity pool unit := by
  cases h with
  | @transfer i j x hx =>
    simp only [State.poolEquity, transfer_apply, if_neg (Ne.symm hsafe)]
    have hle : s.bal pool ≤ s.bal pool + 0 + if pool = j then x else 0 := by split <;> linarith
    exact add_le_add (mul_le_mul_of_nonneg_right hle hunit) (le_refl _)
  | credit i x =>
    simp only [State.poolEquity, post_apply]
    have hle : s.bal pool ≤ s.bal pool + if pool = i then x else 0 := by
      split
      · rename_i hp
        linarith [hsafe hp.symm]
      · linarith
    exact add_le_add (mul_le_mul_of_nonneg_right hle hunit) (le_refl _)
  | donate hx => exact le_refl _
  | trade hi hj => exact (leg_pool hsafe.1 hi).trans (leg_pool hsafe.2 hj)
  | reindex m δ => exact (reindex_pool hs m δ).ge

omit [DecidableEq A] [DecidableEq M] in
theorem poolEquity_empty (c : Int) : (State.empty A M c).poolEquity pool unit = 0 := by
  simp [State.poolEquity, State.empty, State.owed]

/-! ## Accounts that do not trade -/

def Event.TradesOn (a : A) : Event A M → Prop
  | .trade i j _ _ _ => i = a ∨ j = a
  | _ => False

omit [Fintype A] [Fintype M] in
theorem leg_size {i : A} {m : M} {d v : Int} (h : Leg pool unit s i m d v t) : t.size (i, m) = s.size (i, m) + d := by
  obtain ⟨x, -, -⟩ := h
  exact Function.update_self _ _ _

omit [Fintype A] [Fintype M] in
theorem leg_size_of_ne {i a : A} {m : M} {d v : Int} (ha : i ≠ a) (h : Leg pool unit s i m d v t) (n : M) :
    t.size (a, n) = s.size (a, n) := by
  obtain ⟨x, -, -⟩ := h
  exact Function.update_of_ne (fun he => ha (Prod.ext_iff.1 he).1.symm) _ _

omit [Fintype A] [Fintype M] in
/-- **An account changes its positions only by trading.** -/
theorem step_size {e : Event A M} {a : A} (ha : ¬ e.TradesOn a) (h : Step pool unit s e t) (n : M) :
    t.size (a, n) = s.size (a, n) := by
  cases h with
  | trade hi hj =>
    simp only [Event.TradesOn, not_or] at ha
    rw [leg_size_of_ne ha.2 hj, leg_size_of_ne ha.1 hi]
  | _ => rfl

/-- What an event posts to an account that neither trades nor is the pool. -/
def Event.posted (a : A) : Event A M → Int
  | .transfer i j x => (if a = i then -x else 0) + if a = j then x else 0
  | .credit i x => if a = i then x else 0
  | _ => 0

omit [Fintype A] [Fintype M] in
theorem leg_bal_of_ne {i a : A} {m : M} {d v : Int} (ha : a ≠ i) (hp : a ≠ pool) (h : Leg pool unit s i m d v t) :
    t.bal a = s.bal a := by
  obtain ⟨x, -, -⟩ := h
  simp only [State.leg]
  rw [post_of_ne _ ha, transfer_of_ne _ ha hp]

omit [Fintype A] [Fintype M] in
theorem step_bal {e : Event A M} {a : A} (ha : ¬ e.TradesOn a) (hp : a ≠ pool) (h : Step pool unit s e t) :
    t.bal a = s.bal a + e.posted a := by
  cases h with
  | transfer i j hx => simp only [transfer_apply, Event.posted, add_assoc]
  | credit i x => simp only [post_apply, Event.posted]
  | trade hi hj =>
    simp only [Event.TradesOn, not_or] at ha
    rw [leg_bal_of_ne (Ne.symm ha.2) hp hj, leg_bal_of_ne (Ne.symm ha.1) hp hi]
    exact (add_zero _).symm
  | _ => simp only [Event.posted, add_zero]

omit [Fintype A] [Fintype M] in
/-- **Along a run that does not trade on it, an account's balance moves by what is posted to it.** -/
theorem run_bal {a : A} (hp : a ≠ pool) {es : List (Event A M)} (h : Run (machine pool unit) s es t)
    (hes : ∀ e ∈ es, ¬ e.TradesOn a) : t.bal a = s.bal a + (es.map (Event.posted a)).sum := by
  induction h with
  | nil => simp
  | snoc h hl ih =>
    rw [step_bal (hes _ (by simp)) hp hl, ih fun e he => hes e (List.mem_append.2 (Or.inl he)), List.map_append,
      List.sum_append, List.map_singleton, List.sum_singleton, add_assoc]

/-! ## Accounts an event does not credit -/

/-- The accounts an event may credit. -/
def Event.Credits (pool a : A) : Event A M → Prop
  | .transfer _ j _ => a = j
  | .credit i x => a = i ∧ 0 < x
  | .trade i j _ _ _ => a = i ∨ a = j ∨ a = pool
  | _ => False

omit [Fintype A] [Fintype M] in
theorem step_bal_le {e : Event A M} {a : A} (ha : ¬ e.Credits pool a) (h : Step pool unit s e t) :
    t.bal a ≤ s.bal a := by
  cases h with
  | @transfer i j x hx =>
    have hj : a ≠ j := ha
    simp only [transfer_apply, if_neg hj, add_zero]
    split <;> omega
  | credit i x =>
    simp only [post_apply]
    split
    · rename_i hi
      have hx : ¬ 0 < x := fun hx => ha ⟨hi, hx⟩
      omega
    · omega
  | trade hi hj =>
    simp only [Event.Credits, not_or] at ha
    rw [leg_bal_of_ne ha.2.1 ha.2.2 hj, leg_bal_of_ne ha.1 ha.2.2 hi]
  | _ => exact le_refl _

omit [Fintype A] [Fintype M] in
/-- **Along a run that never credits it, an account's balance only falls.** -/
theorem run_bal_le {a : A} {es : List (Event A M)} (h : Run (machine pool unit) s es t)
    (hes : ∀ e ∈ es, ¬ e.Credits pool a) : t.bal a ≤ s.bal a := by
  induction h with
  | nil => exact le_refl _
  | snoc h hl ih =>
    have hlast := step_bal_le (hes _ (by simp)) hl
    exact hlast.trans (ih fun e he => hes e (List.mem_append.2 (Or.inl he)))

/-! ## Accounts an event spares -/

/-- An account's balance and positions: what no event may lower or change while it spares the account. -/
structure State.Kept (a : A) (s t : State A M) : Prop where
  bal : s.bal a ≤ t.bal a
  size : ∀ m, t.size (a, m) = s.size (a, m)
  basis : ∀ m, t.basis (a, m) = s.basis (a, m)
  last : ∀ m, t.last (a, m) = s.last (a, m)

omit [DecidableEq A] [DecidableEq M] [Fintype A] [Fintype M] in
theorem State.Kept.refl (a : A) (s : State A M) : s.Kept a s := ⟨le_refl _, fun _ => rfl, fun _ => rfl, fun _ => rfl⟩

omit [DecidableEq A] [DecidableEq M] [Fintype A] [Fintype M] in
theorem State.Kept.trans {a : A} {s t u : State A M} (h : s.Kept a t) (h' : t.Kept a u) : s.Kept a u where
  bal := h.bal.trans h'.bal
  size m := (h'.size m).trans (h.size m)
  basis m := (h'.basis m).trans (h.basis m)
  last m := (h'.last m).trans (h.last m)

omit [Fintype A] [Fintype M] in
theorem leg_kept {i a : A} {m : M} {d v : Int} (ha : a ≠ i) (hp : a ≠ pool) (h : Leg pool unit s i m d v t) :
    s.Kept a t := by
  have hbal := leg_bal_of_ne ha hp h
  obtain ⟨x, -, -⟩ := h
  have hkey : ∀ n, (a, n) ≠ (i, m) := fun n he => ha (Prod.ext_iff.1 he).1
  exact ⟨hbal.ge, fun n => Function.update_of_ne (hkey n) _ _, fun n => Function.update_of_ne (hkey n) _ _,
    fun n => Function.update_of_ne (hkey n) _ _⟩

omit [Fintype A] [Fintype M] in
/-- **No event that spares an account lowers its balance or changes its positions.** -/
theorem step_kept {e : Event A M} {a : A} (ha : e.Spares a) (hp : a ≠ pool) (h : Step pool unit s e t) :
    s.Kept a t := by
  cases h with
  | @transfer i j x hx =>
    refine ⟨?_, fun _ => rfl, fun _ => rfl, fun _ => rfl⟩
    simp only [transfer_apply, if_neg (Ne.symm ha)]
    split <;> omega
  | credit i x =>
    refine ⟨?_, fun _ => rfl, fun _ => rfl, fun _ => rfl⟩
    simp only [post_apply]
    split
    · rename_i hi
      have := ha hi.symm
      omega
    · omega
  | trade hi hj => exact (leg_kept (Ne.symm ha.1) hp hi).trans (leg_kept (Ne.symm ha.2) hp hj)
  | donate hx => exact ⟨le_refl _, fun _ => rfl, fun _ => rfl, fun _ => rfl⟩
  | reindex m δ => exact ⟨le_refl _, fun _ => rfl, fun _ => rfl, fun _ => rfl⟩

omit [Fintype A] [Fintype M] in
/-- **Along a run that spares it, an account keeps its balance and its positions.** -/
theorem run_kept {a : A} (hp : a ≠ pool) {es : List (Event A M)} (h : Run (machine pool unit) s es t)
    (hes : ∀ e ∈ es, e.Spares a) : s.Kept a t :=
  h.preserves_on (fun u => s.Kept a u) (fun e => e.Spares a) (fun _ _ _ ha hk hl => hk.trans (step_kept ha hp hl)) hes
    (State.Kept.refl a s)

end Clearing
