import Kryon.Predictions
import Mathlib.Data.List.Lex
/-!
# Quotes — one publisher's price of a feed, from its venues

`aggregate` (`lib/oracle/aggregate.ts`) takes the median of the quotes, drops those too far from it, and takes the median
of the rest.  What it returns is the median of the kept quotes, within its confidence of each of them
(`Aggregates`), and does not depend on the order of the quotes (`aggregate_robust`).
-/
namespace Kryon.Publisher

open Program
open Median (middle IsMedian)

/-- A string by its UTF-16 code units, in whose order an array of strings is sorted. -/
abbrev CodeUnits := List (Fin (2 ^ 16))

/-- A price at one venue, 1e18. -/
structure SourceQuote where
  source : CodeUnits
  price : Int
  /-- Wall-clock milliseconds. -/
  ts : Int
  deriving DecidableEq

/-- `median`, which throws on no values. -/
def medianOf (values : List Int) : Except String Int :=
  if values.length = 0 then .error "median of nothing" else .ok (median values)

/-- The distance to a reference in basis points of it, rounded down. -/
def deviationBps (a ref : Int) : Except String Int :=
  if ref ≤ 0 then .error "deviation against a non-positive reference" else .ok ((absDiff a ref * BPS).tdiv ref)

/-- `Array.prototype.reduce` without an initial value. -/
def reduce (f : Int → Int → Int) : List Int → Except String Int
  | [] => .error "Reduce of empty array with no initial value"
  | p :: ps => .ok (ps.foldl f p)

structure DroppedQuote where
  source : CodeUnits
  price : Int
  deviationBps : Int
  deriving DecidableEq

structure Aggregate where
  symbol : String
  price : Int
  confidence : Int
  /-- The sources in the median, sorted. -/
  used : List CodeUnits
  dropped : List DroppedQuote
  /-- Of the quotes used; `none` is `Infinity`, the minimum of nothing. -/
  oldestTs : Option Int
  deriving DecidableEq

inductive AggregateFailure where
  | insufficientSources (live : Nat) (required : Int)
  | disagreement (live kept : Nat) (required spreadBps : Int)
  deriving DecidableEq

structure AggregateOptions where
  minSources : Int
  maxSourceDeviationBps : Int

/-- One turn of the loop over the quotes: a quote is kept, or dropped with its deviation. -/
def judge (o : AggregateOptions) (first : Int) (t : List SourceQuote × List DroppedQuote) (q : SourceQuote) :
    Except String (List SourceQuote × List DroppedQuote) := do
  let d ← deviationBps q.price first
  pure (if d > o.maxSourceDeviationBps then (t.1, t.2 ++ [⟨q.source, q.price, d⟩]) else (t.1 ++ [q], t.2))

/-- The price of the quotes, or why there is none.  The outer errors are thrown. -/
def aggregate (symbol : String) (quotes : List SourceQuote) (o : AggregateOptions) :
    Except String (Except AggregateFailure Aggregate) :=
  let required := max 2 o.minSources
  if quotes.length < required then pure (.error (.insufficientSources quotes.length required))
  else do
    let first ← medianOf (quotes.map (·.price))
    let (kept, dropped) ← quotes.foldlM (judge o first) ([], [])
    if kept.length < required then do
      let prices := quotes.map (·.price)
      let lo ← reduce (fun a b => if a < b then a else b) prices
      let hi ← reduce (fun a b => if a > b then a else b) prices
      let spreadBps ← deviationBps hi lo
      pure (.error (.disagreement quotes.length kept.length required spreadBps))
    else do
      let price ← medianOf (kept.map (·.price))
      let confidence := kept.foldl (fun m q => let d := absDiff q.price price; if d > m then d else m) 0
      pure (.ok {
        symbol := symbol
        price := price
        confidence := confidence
        used := (kept.map (·.source)).insertionSort (· ≤ ·)
        dropped := dropped
        oldestTs := (kept.map (·.ts)).min? })

/-! ## What is kept -/

variable {symbol : String} {quotes quotes' : List SourceQuote} {o : AggregateOptions} {a : Aggregate}

/-- The median of all quotes. -/
def firstMedian (quotes : List SourceQuote) : Int := median (quotes.map (·.price))

/-- The floored deviation of a quote from the median of all. -/
def deviationOf (quotes : List SourceQuote) (q : SourceQuote) : Int :=
  |q.price - firstMedian quotes| * 10000 / firstMedian quotes

def keptOf (o : AggregateOptions) (quotes : List SourceQuote) : List SourceQuote :=
  quotes.filter fun q => decide (deviationOf quotes q ≤ o.maxSourceDeviationBps)

def droppedOf (o : AggregateOptions) (quotes : List SourceQuote) : List DroppedQuote :=
  (quotes.filter fun q => decide (o.maxSourceDeviationBps < deviationOf quotes q)).map fun q =>
    ⟨q.source, q.price, deviationOf quotes q⟩

/-- What an aggregate of quotes says of them. -/
structure Aggregates (o : AggregateOptions) (quotes : List SourceQuote) (a : Aggregate) : Prop where
  enough : max 2 o.minSources ≤ (keptOf o quotes).length
  used : a.used.Perm ((keptOf o quotes).map (·.source)) ∧ a.used.Pairwise (· ≤ ·)
  dropped : a.dropped = droppedOf o quotes
  median : IsMedian a.price ((keptOf o quotes).map (·.price))
  range : ∃ lo ∈ keptOf o quotes, ∃ hi ∈ keptOf o quotes, lo.price ≤ a.price ∧ a.price ≤ hi.price
  majority : ∀ c d, (keptOf o quotes).length < 2 * (keptOf o quotes).countP (fun q => decide (c ≤ q.price ∧ q.price ≤ d)) →
    c ≤ a.price ∧ a.price ≤ d
  confident : ∀ q ∈ keptOf o quotes, |q.price - a.price| ≤ a.confidence
  attained : ∃ q ∈ keptOf o quotes, |q.price - a.price| = a.confidence
  oldest : ∃ q ∈ keptOf o quotes, a.oldestTs = some q.ts ∧ ∀ q' ∈ keptOf o quotes, q.ts ≤ q'.ts

/-! ## The median -/

theorem median_isMedian {values : List Int} (hne : values ≠ []) : IsMedian (median values) values :=
  ⟨hne, values.insertionSort (· ≤ ·), List.perm_insertionSort _ _, List.pairwise_insertionSort (· ≤ ·) values, rfl⟩

theorem median_perm {xs ys : List Int} (h : xs.Perm ys) : median xs = median ys := by
  have hsort : xs.insertionSort (· ≤ ·) = ys.insertionSort (· ≤ ·) :=
    List.Perm.eq_of_pairwise' (List.pairwise_insertionSort (· ≤ ·) xs) (List.pairwise_insertionSort (· ≤ ·) ys)
      ((List.perm_insertionSort _ _).trans (h.trans (List.perm_insertionSort _ _).symm))
  unfold median
  rw [hsort]

theorem medianOf_ok {values : List Int} (hne : values ≠ []) : medianOf values = .ok (median values) :=
  if_neg (mt List.length_eq_zero_iff.1 hne)

theorem deviationBps_ok {p ref : Int} (href : 0 < ref) : deviationBps p ref = .ok (|p - ref| * 10000 / ref) := by
  rw [deviationBps, if_neg (not_le.2 href), absDiff_eq,
    Int.tdiv_eq_ediv_of_nonneg (mul_nonneg (abs_nonneg _) (by decide))]
  rfl

theorem firstMedian_pos (hpos : ∀ q ∈ quotes, 0 < q.price) (hne : quotes ≠ []) : 0 < firstMedian quotes := by
  obtain ⟨lo, hlo, -, -, hle, -⟩ := (median_isMedian (mt List.map_eq_nil_iff.1 hne)).exists_between
  obtain ⟨q, hq, rfl⟩ := List.mem_map.1 hlo
  exact (hpos q hq).trans_le hle

theorem firstMedian_perm (h : quotes.Perm quotes') : firstMedian quotes = firstMedian quotes' :=
  median_perm (h.map _)

theorem deviationOf_perm (h : quotes.Perm quotes') : deviationOf quotes = deviationOf quotes' := by
  funext q
  rw [deviationOf, deviationOf, firstMedian_perm h]

theorem keptOf_perm (h : quotes.Perm quotes') : (keptOf o quotes).Perm (keptOf o quotes') := by
  rw [keptOf, keptOf, deviationOf_perm h]
  exact h.filter _

/-! ## What an aggregation returns -/

theorem foldlM_judge {first : Int} (hfirst : 0 < first) :
    ∀ (qs : List SourceQuote) (t : List SourceQuote × List DroppedQuote),
      qs.foldlM (judge o first) t = .ok
        (t.1 ++ qs.filter (fun q => decide (|q.price - first| * 10000 / first ≤ o.maxSourceDeviationBps)),
          t.2 ++ (qs.filter fun q => decide (o.maxSourceDeviationBps < |q.price - first| * 10000 / first)).map
            fun q => ⟨q.source, q.price, |q.price - first| * 10000 / first⟩)
  | [], t => by simp [pure, Except.pure]
  | q :: qs, t => by
    rw [List.foldlM_cons, judge, deviationBps_ok hfirst]
    by_cases hfar : |q.price - first| * 10000 / first > o.maxSourceDeviationBps
    · have hdrop : ¬ |q.price - first| * 10000 / first ≤ o.maxSourceDeviationBps := not_le.2 hfar
      change List.foldlM _ (if _ > _ then _ else _) qs = _
      rw [if_pos hfar, foldlM_judge hfirst qs]
      simp [hfar, hdrop]
    · have hkeep := not_lt.1 hfar
      change List.foldlM _ (if _ > _ then _ else _) qs = _
      rw [if_neg hfar, foldlM_judge hfirst qs]
      simp [hfar, hkeep]

theorem foldlM_quotes (hpos : ∀ q ∈ quotes, 0 < q.price) (hne : quotes ≠ []) :
    quotes.foldlM (judge o (median (quotes.map (·.price)))) ([], []) = .ok (keptOf o quotes, droppedOf o quotes) :=
  foldlM_judge (firstMedian_pos hpos hne) quotes ([], [])

theorem reduce_min {xs : List Int} (hne : xs ≠ []) :
    reduce (fun a b => if a < b then a else b) xs = .ok (xs.min?.getD 0) := by
  obtain ⟨p, ps, rfl⟩ := List.exists_cons_of_ne_nil hne
  have hmin : (fun a b : Int => if a < b then a else b) = min := by
    funext a b
    rw [Int.min_def]
    split_ifs <;> omega
  rw [reduce, hmin, List.min?_cons', Option.getD_some]

theorem reduce_max {xs : List Int} (hne : xs ≠ []) :
    reduce (fun a b => if a > b then a else b) xs = .ok (xs.max?.getD 0) := by
  obtain ⟨p, ps, rfl⟩ := List.exists_cons_of_ne_nil hne
  have hmax : (fun a b : Int => if a > b then a else b) = max := by
    funext a b
    rw [Int.max_def]
    split_ifs <;> omega
  rw [reduce, hmax, List.max?_cons', Option.getD_some]

/-- The spread of the quotes in basis points of the lowest. -/
def spreadOf (quotes : List SourceQuote) : Int :=
  let prices := quotes.map (·.price)
  |prices.max?.getD 0 - prices.min?.getD 0| * 10000 / prices.min?.getD 0

/-- The aggregate of the quotes that are kept. -/
def aggregateOf (symbol : String) (o : AggregateOptions) (quotes : List SourceQuote) : Aggregate where
  symbol := symbol
  price := median ((keptOf o quotes).map (·.price))
  confidence := (keptOf o quotes).foldl
    (fun m q => max m |q.price - median ((keptOf o quotes).map (·.price))|) 0
  used := ((keptOf o quotes).map (·.source)).insertionSort (· ≤ ·)
  dropped := droppedOf o quotes
  oldestTs := ((keptOf o quotes).map (·.ts)).min?

theorem lowest_pos (hpos : ∀ q ∈ quotes, 0 < q.price) (hne : quotes ≠ []) : 0 < (quotes.map (·.price)).min?.getD 0 := by
  have hsome : (quotes.map (·.price)).min?.isSome = true := List.isSome_min?_of_ne_nil (mt List.map_eq_nil_iff.1 hne)
  obtain ⟨lo, hlo⟩ := Option.isSome_iff_exists.1 hsome
  obtain ⟨q, hq, rfl⟩ := List.mem_map.1 (List.min?_mem hlo)
  rw [hlo]
  exact hpos q hq

theorem foldl_confidence (kept : List SourceQuote) (price m : Int) :
    kept.foldl (fun m q => let d := absDiff q.price price; if d > m then d else m) m =
      kept.foldl (fun m q => max m |q.price - price|) m := by
  congr 1
  funext m q
  simp only [absDiff_eq]
  rw [Int.max_def]
  split_ifs <;> omega

/-- **What is returned of positive quotes**: nothing is thrown. -/
theorem aggregate_eq (hpos : ∀ q ∈ quotes, 0 < q.price) : aggregate symbol quotes o = .ok
    (if quotes.length < max 2 o.minSources then .error (.insufficientSources quotes.length (max 2 o.minSources))
    else if (keptOf o quotes).length < max 2 o.minSources then
      .error (.disagreement quotes.length (keptOf o quotes).length (max 2 o.minSources) (spreadOf quotes))
    else .ok (aggregateOf symbol o quotes)) := by
  unfold aggregate
  simp only
  split
  · rfl
  · rename_i hlive
    have htwo : 2 ≤ max 2 o.minSources := le_max_left 2 _
    have hne : quotes ≠ [] := by
      rintro rfl
      simp only [List.length_nil] at hlive
      omega
    have hprices : quotes.map (·.price) ≠ [] := mt List.map_eq_nil_iff.1 hne
    rw [medianOf_ok hprices, ok_bind, foldlM_quotes hpos hne, ok_bind]
    simp only
    by_cases hkept : ((keptOf o quotes).length : Int) < max 2 o.minSources
    · rw [if_pos hkept, if_pos hkept, reduce_min hprices, ok_bind, reduce_max hprices, ok_bind,
        deviationBps_ok (lowest_pos hpos hne)]
      rfl
    · have hsome : keptOf o quotes ≠ [] := by
        intro hnil
        rw [hnil, List.length_nil] at hkept
        omega
      rw [if_neg hkept, if_neg hkept]
      rw [medianOf_ok (mt List.map_eq_nil_iff.1 hsome), ok_bind, foldl_confidence]
      rfl

/-- The maximum of a fold is an upper bound, and the start or a member attains it. -/
theorem foldl_max_spec {α : Type} (f : α → Int) : ∀ (l : List α) (m : Int),
    m ≤ l.foldl (fun m x => max m (f x)) m ∧ (∀ x ∈ l, f x ≤ l.foldl (fun m x => max m (f x)) m) ∧
      (l.foldl (fun m x => max m (f x)) m = m ∨ ∃ x ∈ l, f x = l.foldl (fun m x => max m (f x)) m)
  | [], m => ⟨le_rfl, by simp, Or.inl rfl⟩
  | x :: l, m => by
    obtain ⟨hstart, hle, hattained⟩ := foldl_max_spec f l (max m (f x))
    rw [List.foldl_cons]
    refine ⟨(le_max_left _ _).trans hstart, ?_, ?_⟩
    · rintro y hy
      rcases List.mem_cons.1 hy with rfl | hy
      · exact (le_max_right _ _).trans hstart
      · exact hle y hy
    · rcases hattained with heq | ⟨y, hy, heq⟩
      · rcases max_choice m (f x) with hm | hx
        · exact Or.inl (heq.trans hm)
        · exact Or.inr ⟨x, List.mem_cons_self, hx.symm.trans heq.symm⟩
      · exact Or.inr ⟨y, List.mem_cons_of_mem x hy, heq⟩

theorem aggregateOf_aggregates (henough : max 2 o.minSources ≤ (keptOf o quotes).length) :
    Aggregates o quotes (aggregateOf symbol o quotes) := by
  have htwo : 2 ≤ max 2 o.minSources := le_max_left 2 _
  have hsome : keptOf o quotes ≠ [] := by
    intro hnil
    rw [hnil, List.length_nil] at henough
    omega
  have hmedian : IsMedian (aggregateOf symbol o quotes).price ((keptOf o quotes).map (·.price)) :=
    median_isMedian (mt List.map_eq_nil_iff.1 hsome)
  obtain ⟨hzero, hconfident, hattained⟩ :=
    foldl_max_spec (fun q : SourceQuote => |q.price - (aggregateOf symbol o quotes).price|) (keptOf o quotes) 0
  constructor
  case enough => exact henough
  case used => exact ⟨List.perm_insertionSort _ _, List.pairwise_insertionSort (· ≤ ·) _⟩
  case dropped => rfl
  case median => exact hmedian
  case range =>
    obtain ⟨lo, hlo, hi, hhi, hrange⟩ := hmedian.exists_between
    obtain ⟨q, hq, rfl⟩ := List.mem_map.1 hlo
    obtain ⟨q', hq', rfl⟩ := List.mem_map.1 hhi
    exact ⟨q, hq, q', hq', hrange⟩
  case majority =>
    intro c d hmajority
    refine hmedian.mem_of_majority ?_
    rw [List.length_map, List.countP_map]
    exact hmajority
  case confident => exact hconfident
  case attained =>
    rcases hattained with heq | hattained
    · -- Every quote is at the price.
      obtain ⟨q, hq⟩ := List.exists_mem_of_ne_nil _ hsome
      have hle := hconfident q hq
      rw [heq] at hle
      exact ⟨q, hq, (le_antisymm hle (abs_nonneg _)).trans heq.symm⟩
    · exact hattained
  case oldest =>
    have hmin : ((keptOf o quotes).map (·.ts)).min?.isSome = true :=
      List.isSome_min?_of_ne_nil (mt List.map_eq_nil_iff.1 hsome)
    obtain ⟨ts, hts⟩ := Option.isSome_iff_exists.1 hmin
    obtain ⟨hmem, hle⟩ := List.min?_eq_some_iff.1 hts
    obtain ⟨q, hq, rfl⟩ := List.mem_map.1 hmem
    exact ⟨q, hq, hts, fun q' hq' => hle q'.ts (List.mem_map.2 ⟨q', hq', rfl⟩)⟩

/-! ## The order of the quotes -/

theorem min?_perm {xs ys : List Int} (h : xs.Perm ys) : xs.min? = ys.min? := by
  cases hx : xs.min? with
  | none =>
    rw [List.min?_eq_none_iff] at hx
    rw [hx] at h
    rw [h.nil_eq.symm]
    rfl
  | some lo =>
    obtain ⟨hmem, hle⟩ := List.min?_eq_some_iff.1 hx
    exact (List.min?_eq_some_iff.2 ⟨h.mem_iff.1 hmem, fun b hb => hle b (h.mem_iff.2 hb)⟩).symm

theorem max?_perm {xs ys : List Int} (h : xs.Perm ys) : xs.max? = ys.max? := by
  cases hx : xs.max? with
  | none =>
    rw [List.max?_eq_none_iff] at hx
    rw [hx] at h
    rw [h.nil_eq.symm]
    rfl
  | some hi =>
    obtain ⟨hmem, hle⟩ := List.max?_eq_some_iff.1 hx
    exact (List.max?_eq_some_iff.2 ⟨h.mem_iff.1 hmem, fun b hb => hle b (h.mem_iff.2 hb)⟩).symm

theorem spreadOf_perm (h : quotes.Perm quotes') : spreadOf quotes = spreadOf quotes' := by
  have hprices := h.map (·.price)
  simp only [spreadOf, min?_perm hprices, max?_perm hprices]

/-- What the order of the quotes has no part in. -/
def Aggregate.outcome (a : Aggregate) : String × Int × Int × List CodeUnits × Option Int :=
  (a.symbol, a.price, a.confidence, a.used, a.oldestTs)

theorem aggregateOf_perm (h : quotes.Perm quotes') :
    (aggregateOf symbol o quotes).outcome = (aggregateOf symbol o quotes').outcome := by
  have hkept := keptOf_perm (o := o) h
  have hprice : (aggregateOf symbol o quotes).price = (aggregateOf symbol o quotes').price := median_perm (hkept.map _)
  have hconfidence : (aggregateOf symbol o quotes).confidence = (aggregateOf symbol o quotes').confidence := by
    change (keptOf o quotes).foldl (fun m q => max m |q.price - (aggregateOf symbol o quotes).price|) 0 =
      (keptOf o quotes').foldl (fun m q => max m |q.price - (aggregateOf symbol o quotes').price|) 0
    rw [hprice]
    refine hkept.foldl_eq' ?_ 0
    intro q _ q' _ m
    exact max_right_comm m _ _
  have hused : (aggregateOf symbol o quotes).used = (aggregateOf symbol o quotes').used :=
    List.Perm.eq_of_pairwise' (List.pairwise_insertionSort (· ≤ ·) _) (List.pairwise_insertionSort (· ≤ ·) _)
      ((List.perm_insertionSort _ _).trans ((hkept.map _).trans (List.perm_insertionSort _ _).symm))
  have holdest : (aggregateOf symbol o quotes).oldestTs = (aggregateOf symbol o quotes').oldestTs := min?_perm (hkept.map _)
  rw [Aggregate.outcome, Aggregate.outcome, hprice, hconfidence, hused, holdest]
  rfl

/-- **Quote aggregation is robust and does not see the order of the quotes.** An aggregate of positive quotes is of at least
two and at least the configured number of them, which are those within the bound of the median of all; its price is their
median and its confidence their largest distance from it.  Permuting the quotes changes neither whether there is an
aggregate, nor why there is none, nor anything of it but the order of the dropped. -/
theorem aggregate_robust (symbol : String) (quotes : List SourceQuote) (o : AggregateOptions)
    (hpos : ∀ q ∈ quotes, 0 < q.price) :
    (∀ a, aggregate symbol quotes o = .ok (.ok a) → Aggregates o quotes a) ∧
    ∀ quotes', quotes.Perm quotes' →
      (aggregate symbol quotes o).map (Except.map Aggregate.outcome) =
        (aggregate symbol quotes' o).map (Except.map Aggregate.outcome) := by
  constructor
  · intro a h
    rw [aggregate_eq hpos, Except.ok.injEq] at h
    split at h
    · cases h
    · split at h
      · cases h
      · rename_i henough
        rw [Except.ok.injEq] at h
        rw [← h]
        exact aggregateOf_aggregates (not_lt.1 henough)
  · intro quotes' hperm
    have hpos' : ∀ q ∈ quotes', 0 < q.price := fun q hq => hpos q (hperm.mem_iff.2 hq)
    rw [aggregate_eq hpos, aggregate_eq hpos', hperm.length_eq, (keptOf_perm hperm).length_eq, spreadOf_perm hperm]
    split
    · rfl
    · split
      · rfl
      · exact congrArg (fun a => Except.ok (Except.ok a)) (aggregateOf_perm hperm)

/-- Two venues agree, and a third is three per cent above them. -/
def sampleQuotes : List SourceQuote := [⟨[1], 100000, 900⟩, ⟨[0], 100020, 500⟩, ⟨[2], 103000, 100⟩]

/-- The price is the mean of the two, each ten away from it. -/
theorem aggregate_robust_outlier :
    let a : Aggregate := ⟨"BTC", 100010, 10, [[0], [1]], [⟨[2], 103000, 297⟩], some 500⟩
    aggregate "BTC" sampleQuotes ⟨2, 50⟩ = .ok (.ok a) ∧ Aggregates ⟨2, 50⟩ sampleQuotes a := by
  intro a
  have heq : aggregate "BTC" sampleQuotes ⟨2, 50⟩ = .ok (.ok a) := rfl
  exact ⟨heq, (aggregate_robust "BTC" sampleQuotes ⟨2, 50⟩ (by decide)).1 a heq⟩

end Kryon.Publisher
