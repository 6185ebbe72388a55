import Kryon.Lib.Average
import Kryon.MarketClock
/-!
# MarkTwap — the average a funding update reads

The mark is a total of the price that stood since its window opened, told at every fill (`Average.Total`).  So what a
funding update reads is the average, over the window, of the price the market last traded at.
-/
namespace Kryon

open Program Transition
open MarketClock
open Average (Total Charted)
open Average.Total (Tracks)
open OrderGateway (Settled)

variable {D : Deployment} {env : Env} {w w' w₀ : World} {l : Label} {ls : List Label} {m : MarketId}

/-- The mark as a total of what stood. -/
def MarkState.total (st : MarkState) : Total := ⟨st.lastPrice, st.lastTs, st.cumulative, st.windowStart⟩

/-- The price a market last traded at, zero before its first fill. -/
def lastTraded (m : MarketId) (ls : List Label) : Int := (tradedPrices m (history ls)).getLast?.getD 0

/-- A step opens a market's window: a funding update once the market trades, and the batch of its first fill. -/
def Opens (m : MarketId) (w : World) (l : Label) : Prop :=
  l.call.tx = .updateFunding m ∧ (clock m w).Traded ∨ ¬ (clock m w).Traded ∧ tradedPrices m l.settled ≠ []

/-- The market's window at the end of a run opened at `start`. -/
inductive Window (D : Deployment) (env : Env) (m : MarketId) (w₀ : World) : List Label → World → Nat → Prop where
  | opened {ls : List Label} {v u : World} {l : Label} (h : Run (machine D env) w₀ ls v)
      (hl : (machine D env).step v l u) (ho : Opens m v l) : Window D env m w₀ (ls ++ [l]) u v.timestamp
  | kept {ls : List Label} {v u : World} {l : Label} {start : Nat} (h : Window D env m w₀ ls v start)
      (hl : (machine D env).step v l u) (hn : l.call.tx ≠ .updateFunding m) : Window D env m w₀ (ls ++ [l]) u start

/-- The price standing in a market. -/
abbrev standing (m : MarketId) (w : World) : Int := (w.engine.marks m).lastPrice

/-! ## Prices -/

theorem tradedPrices_append (m : MarketId) (xs ys : List Settled) :
    tradedPrices m (xs ++ ys) = tradedPrices m xs ++ tradedPrices m ys := by
  unfold tradedPrices
  rw [List.filter_append, List.map_append]

theorem tradedPrices_snoc (m : MarketId) (ls : List Label) (l : Label) :
    tradedPrices m (history (ls ++ [l])) = tradedPrices m (history ls) ++ tradedPrices m l.settled := by
  rw [history_snoc, tradedPrices_append]

theorem lastTraded_snoc (m : MarketId) (ls : List Label) (l : Label) :
    lastTraded m (ls ++ [l]) = (tradedPrices m l.settled).getLast?.getD (lastTraded m ls) := by
  unfold lastTraded
  rw [tradedPrices_snoc, List.getLast?_append]
  cases (tradedPrices m l.settled).getLast? <;> rfl

theorem observed_lastPrice (now : Nat) (c : MarketClock) (price : Int) :
    (observed now c price).mark.lastPrice = price := by
  unfold observed
  split <;> rfl

theorem observedAll_lastPrice (now : Nat) (prices : List Int) (c : MarketClock) :
    (prices.foldl (observed now) c).mark.lastPrice = prices.getLast?.getD c.mark.lastPrice := by
  induction prices generalizing c with
  | nil => rfl
  | cons p prices ih => rw [List.foldl_cons, ih, observed_lastPrice, List.getLast?_cons, Option.getD_some]

/-! ## The total -/

section Observations
variable {now : Nat} {c : MarketClock} {f : Nat → Int}

theorem observed_tracks (hc : c.Traded) (h : Tracks c.mark.total f now) (price : Int) :
    Tracks (observed now c price).mark.total f now ∧
      (observed now c price).mark.windowStart = c.mark.windowStart := by
  unfold observed
  rw [if_neg (not_le.2 hc)]
  exact ⟨h.change price, rfl⟩

theorem observedAll_tracks (hc : c.Traded) (h : Tracks c.mark.total f now) {prices : List Int}
    (hp : ∀ p ∈ prices, 0 < p) : Tracks (prices.foldl (observed now) c).mark.total f now ∧
      (prices.foldl (observed now) c).mark.windowStart = c.mark.windowStart := by
  induction prices generalizing c with
  | nil => exact ⟨h, rfl⟩
  | cons p prices ih =>
    rw [List.forall_mem_cons] at hp
    obtain ⟨htracks, hstart⟩ := observed_tracks hc h p
    obtain ⟨hall, hall_start⟩ := ih (observed_traded hp.1) htracks hp.2
    exact ⟨hall, hall_start.trans hstart⟩

theorem firstFill_tracks (now : Nat) (hc : ¬ c.Traded) {p : Int} {prices : List Int} (hp : ∀ q ∈ p :: prices, 0 < q) :
    Tracks ((p :: prices).foldl (observed now) c).mark.total f now ∧
      ((p :: prices).foldl (observed now) c).mark.windowStart = now := by
  have hfirst : (observed now c p).mark = ⟨p, now, 0, now⟩ := by
    unfold observed
    rw [if_pos (not_lt.1 hc)]
  rw [List.forall_mem_cons] at hp
  rw [List.foldl_cons]
  have htracks : Tracks (observed now c p).mark.total f now := by
    rw [hfirst]
    exact Tracks.opened p f now
  obtain ⟨hall, hstart⟩ := observedAll_tracks (observed_traded hp.1) htracks hp.2
  exact ⟨hall, hstart.trans (by rw [hfirst])⟩

end Observations

/-- A market that never traded stands at nothing; one that did stands at its last price, and its mark is the total of
what stood since its window opened. -/
inductive Marked (D : Deployment) (env : Env) (m : MarketId) (w₀ : World) (ls : List Label) (w : World)
    (f : Nat → Int) : Prop where
  | untraded (hprices : tradedPrices m (history ls) = []) (hc : ¬ (clock m w).Traded) (hprice : standing m w = 0)
  | traded (hc : (clock m w).Traded) (hprice : standing m w = lastTraded m ls)
      (hwindow : Window D env m w₀ ls w (clock m w).mark.windowStart)
      (htracks : Tracks (clock m w).mark.total f w.timestamp)

theorem Marked.standing_eq {f : Nat → Int} (h : Marked D env m w₀ ls w f) : standing m w = lastTraded m ls := by
  cases h with
  | untraded hprices _ hprice =>
    unfold lastTraded
    rw [hprice, hprices]
    rfl
  | traded _ hprice _ _ => exact hprice

theorem charted_same {f : Nat → Int} (v : Int) (htime : w'.timestamp = w.timestamp) :
    (fun x => if w.timestamp ≤ x ∧ x < w'.timestamp then v else f x) = f := by
  funext x
  rw [htime]
  exact if_neg fun hc => absurd hc.1 (not_le.2 hc.2)

theorem Marked.passed {f : Nat → Int} (h : Marked D env m w₀ ls w f) (hl : (machine D env).step w l w')
    (hn : l.call.tx ≠ .updateFunding m) (hprices : tradedPrices m l.settled = []) (htime : w.timestamp ≤ w'.timestamp)
    (hclock : clock m w' = clock m w) : Marked D env m w₀ (ls ++ [l]) w'
      fun x => if w.timestamp ≤ x ∧ x < w'.timestamp then standing m w else f x := by
  have hstanding : standing m w' = standing m w := congrArg (fun c => c.mark.lastPrice) hclock
  cases h with
  | untraded hnone hc hprice =>
    refine .untraded ?_ (hclock ▸ hc) (hstanding.trans hprice)
    rw [tradedPrices_snoc, hnone, hprices, List.append_nil]
  | traded hc hprice hwindow htracks =>
    refine .traded (hclock ▸ hc) ?_ ?_ ?_
    · rw [hstanding, hprice, lastTraded_snoc, hprices]
      rfl
    · rw [hclock]
      exact .kept hwindow hl hn
    · rw [hclock]
      exact htracks.pass htime

/-- **Every step keeps the mark the total of what stood.** -/
theorem Marked.step {f : Nat → Int} (hr : Run (machine D env) w₀ ls w) (hw₀ : Genesis D w₀)
    (h : Marked D env m w₀ ls w f) (hl : (machine D env).step w l w') : Marked D env m w₀ (ls ++ [l]) w'
      fun x => if w.timestamp ≤ x ∧ x < w'.timestamp then standing m w else f x := by
  cases reachable_ticks ⟨w₀, ls, hw₀, hr⟩ hl m with
  | passed hn hsettled htime hclock => exact h.passed hl hn (by rw [hsettled]; rfl) htime hclock
  | charged hn hupdate hsettled htime hclock =>
    have hnone : tradedPrices m l.settled = [] := by rw [hsettled]; rfl
    rw [charted_same _ htime]
    cases h with
    | untraded hprices hc hprice =>
      have hmark : (clock m w').mark = (clock m w).mark := by
        rw [hclock]
        exact if_pos (not_lt.1 hc)
      refine .untraded ?_ ?_ ?_
      · rw [tradedPrices_snoc, hprices, hnone, List.append_nil]
      · unfold Traded
        rw [hmark]
        exact hc
      · exact (congrArg MarkState.lastPrice hmark).trans hprice
    | traded hc hprice hwindow htracks =>
      have hmark : (clock m w').mark = ⟨standing m w, w.timestamp, 0, w.timestamp⟩ := by
        rw [hclock]
        exact if_neg (not_le.2 hc)
      have hopened := Window.opened hr hl (Or.inl ⟨hn, hc⟩)
      refine .traded ?_ ?_ ?_ ?_
      · unfold Traded
        rw [hmark]
        exact hc
      · rw [lastTraded_snoc, hnone]
        exact (congrArg MarkState.lastPrice hmark).trans hprice
      · rw [hmark]
        exact hopened
      · rw [hmark, htime]
        exact Tracks.opened _ f w.timestamp
  | traded hn htime hprices hclock =>
    cases hsome : tradedPrices m l.settled with
    | nil =>
      rw [hsome] at hclock
      exact h.passed hl hn hsome htime.symm.le hclock
    | cons p prices =>
      rw [hsome] at hprices hclock
      rw [charted_same _ htime]
      have hstanding : standing m w' = prices.getLast?.getD p := by
        show (clock m w').mark.lastPrice = prices.getLast?.getD p
        rw [hclock, observedAll_lastPrice, List.getLast?_cons, Option.getD_some]
      have hlast : standing m w' = lastTraded m (ls ++ [l]) := by
        rw [hstanding, lastTraded_snoc, hsome, List.getLast?_cons, Option.getD_some]
      have htraded : (clock m w').Traded := by
        show 0 < standing m w'
        rw [hstanding]
        cases hlast : prices.getLast? with
        | none => exact hprices p List.mem_cons_self
        | some q => exact hprices q (List.mem_cons_of_mem p (List.mem_of_getLast? hlast))
      cases h with
      | untraded _ hc _ =>
        obtain ⟨htracks, hstart⟩ := firstFill_tracks (f := f) w.timestamp hc hprices
        rw [← hclock] at htracks hstart
        refine .traded htraded hlast ?_ (htime ▸ htracks)
        rw [hstart]
        exact Window.opened hr hl (Or.inr ⟨hc, by rw [hsome]; exact List.cons_ne_nil p prices⟩)
      | traded hc _ hwindow htracks =>
        obtain ⟨htracks', hstart⟩ := observedAll_tracks hc htracks hprices
        rw [← hclock] at htracks' hstart
        refine .traded htraded hlast ?_ (htime ▸ htracks')
        rw [hstart]
        exact .kept hwindow hl hn

/-- **Along every run the mark is the total of what stood since its window opened.** -/
theorem marked {f : Nat → Int} (hw₀ : Genesis D w₀)
    (h : Charted (machine D env) World.timestamp (standing m) w₀ ls w f) : Marked D env m w₀ ls w f := by
  induction h with
  | nil f =>
    have hmark : (w₀.engine.marks m).lastPrice = 0 := by rw [hw₀.engine]
    refine .untraded rfl ?_ hmark
    intro hc
    have hpos : 0 < (w₀.engine.marks m).lastPrice := hc
    rw [hmark] at hpos
    exact absurd hpos (lt_irrefl 0)
  | snoc h hl ih => exact ih.step h.run hw₀ hl

/-! ## The average -/

/-- **A consumed average is the floor of what stood over the window, averaged.** -/
theorem consumeTwap_tracks {f : Nat → Int} {twap : Int} (hs : Sound w.timestamp (clock m w)) (hc : (clock m w).Traded)
    (htracks : Tracks (clock m w).mark.total f w.timestamp) (h : Engine.consumeTwap w m = .ok (w', twap)) :
    (clock m w).mark.windowStart ≤ w.timestamp ∧
      ((clock m w).mark.windowStart = w.timestamp → twap = standing m w) ∧
      ((clock m w).mark.windowStart < w.timestamp →
        twap = (∑ x ∈ Finset.Ico (clock m w).mark.windowStart w.timestamp, f x) /
          ((w.timestamp - (clock m w).mark.windowStart : Nat) : Int)) := by
  obtain ⟨-, hstart, hlast, -⟩ := hs.window hc
  have htotal := htracks.total_now 0
  have hpos : ¬ (w.engine.marks m).lastPrice ≤ 0 := not_le.2 hc
  unfold Engine.consumeTwap at h
  simp only [if_neg hpos, bind_ok_iff, pure_ok, Prod.mk.injEq] at h
  obtain ⟨st, hst, t, ht, -, rfl⟩ := h
  have hst' := accrueMark_ok hst hc
  have hcumulative : st.cumulative = ∑ x ∈ Finset.Ico (clock m w).mark.windowStart w.timestamp, f x := by
    rw [hst']
    exact htotal
  have hws : st.windowStart = (clock m w).mark.windowStart := by rw [hst']; rfl
  rw [hws] at ht
  refine ⟨hstart.trans hlast, fun he => ?_, fun hlt => ?_⟩
  · rw [he, if_neg (lt_irrefl w.timestamp)] at ht
    simp only [gt_iff_lt, lt_irrefl, if_false, pure_ok] at ht
    rw [← ht, hst']
  · rw [if_pos hlt, if_pos (Nat.sub_pos_of_lt hlt), M.mulDiv_ok, mul_one] at ht
    have hnonneg : 0 ≤ st.cumulative := by
      rw [hst']
      exact add_nonneg hs.cumulative_nonneg (mul_nonneg hc.le (Int.natCast_nonneg _))
    rw [← ht.2, Int.tdiv_eq_ediv_of_nonneg hnonneg, hcumulative]

theorem untraded_consumes {twap : Int} (hc : ¬ (clock m w).Traded) (h : Engine.consumeTwap w m = .ok (w', twap)) :
    twap = 0 := by
  have hle : (w.engine.marks m).lastPrice ≤ 0 := not_lt.1 hc
  unfold Engine.consumeTwap at h
  simp only [if_pos hle, pure_ok, Prod.mk.injEq] at h
  exact h.2.symm

theorem updateFunding_consumes {msg : Msg} (h : Engine.updateFunding w msg m = .ok w') :
    ∃ w₁ twap, Engine.consumeTwap w m = .ok (w₁, twap) := by
  simp only [Engine.updateFunding, bind_ok_iff] at h
  obtain ⟨_, -, _, -, _, -, ⟨w₁, twap⟩, htwap, -⟩ := h
  exact ⟨w₁, twap, htwap⟩

theorem accrueMark_lastTs {st st' : MarkState} {now : Nat} (h : Engine.accrueMark st now = .ok st') :
    st'.lastTs = now := by
  unfold Engine.accrueMark at h
  split at h
  · simp only [bind_ok_iff, pure_ok] at h
    obtain ⟨_, -, _, -, rfl⟩ := h
    rfl
  · rw [pure_ok] at h
    rw [← h]

/-- The price a side of a fill recorded is what the other side records. -/
theorem recordMark_again {x : World} {price : Int} (h : Engine.recordMark w m price = .ok w')
    (htime : x.timestamp = w'.timestamp) (hmark : x.engine.marks m = w'.engine.marks m) :
    Engine.recordMark x m price = .ok x := by
  have hstands : (w'.engine.marks m).lastPrice = price ∧ (w'.engine.marks m).lastTs = w'.timestamp := by
    unfold Engine.recordMark at h
    simp only at h
    split at h
    · rename_i hsame
      rw [pure_ok] at h
      exact h ▸ hsame
    · simp only [bind_ok_iff, M.bound128_ok, pure_ok] at h
      obtain ⟨st, hst, _, ⟨-, rfl⟩, rfl⟩ := h
      simp only [Function.update_self, true_and]
      have hlast := accrueMark_lastTs hst
      split
      · exact hlast
      · exact hlast
  unfold Engine.recordMark
  simp only
  rw [if_pos (by rw [hmark, htime]; exact hstands)]
  rfl

theorem applyFill_again {caller trader : Address} {isBuy reduceOnly increased : Bool} {size price notional : Int}
    (h : Engine.applyFill D w caller trader m isBuy size price notional reduceOnly = .ok (w', increased)) :
    Engine.recordMark w' m price = .ok w' := by
  simp only [Engine.applyFill, bind_ok_iff, revertIf_ok, World.whenNotPaused_ok, pure_ok, Prod.mk.injEq,
    exists_const] at h
  obtain ⟨-, -, hpos, p, -, index, -, maxDelta, -, lo, -, -, hi, -, -, w₁, hmark, ⟨w₂, inc, r⟩, htrade, rfl, -⟩ := h
  have hd : (if isBuy = true then size else -size) ≠ 0 := by
    split <;> omega
  obtain ⟨x, -, rfl, -, -⟩ := Engine.trade_ok hd htrade
  exact recordMark_again hmark rfl rfl

/-- **The mark TWAP is the floor of the time-weighted average of the standing price over its window.**  Along a run from
the genesis, charted with the price that stood at each time, the price standing is the price last traded, and what a
funding update consumes is nothing before the first fill; after it, over a window open for some time it is the floor of
the average of what stood since the window's start, between the bounds of what stood, and over an empty window it is
the price standing.  Once one side of a fill is applied, recording the price for the other side changes nothing. -/
theorem mark_twap (D : Deployment) (env : Env) (m : MarketId) :
    (∀ (w₀ w w' : World) (ls : List Label) (f : Nat → Int) (msg : Msg), Genesis D w₀ →
      Charted (machine D env) World.timestamp (standing m) w₀ ls w f → Engine.updateFunding w msg m = .ok w' →
      standing m w = lastTraded m ls ∧ ∃ w₁ twap, Engine.consumeTwap w m = .ok (w₁, twap) ∧
        (tradedPrices m (history ls) = [] ∧ twap = 0 ∨
        tradedPrices m (history ls) ≠ [] ∧ ∃ start, Window D env m w₀ ls w start ∧ start ≤ w.timestamp ∧
          (start = w.timestamp → twap = standing m w) ∧
          (start < w.timestamp →
            twap = (∑ x ∈ Finset.Ico start w.timestamp, f x) / ((w.timestamp - start : Nat) : Int) ∧
            ∀ lo hi, (∀ x, start ≤ x → x < w.timestamp → lo ≤ f x ∧ f x ≤ hi) → lo ≤ twap ∧ twap ≤ hi))) ∧
    (∀ (w w' : World) (caller trader : Address) (isBuy reduceOnly increased : Bool) (size price notional : Int),
      Engine.applyFill D w caller trader m isBuy size price notional reduceOnly = .ok (w', increased) →
      Engine.recordMark w' m price = .ok w') := by
  refine ⟨?_, fun w w' caller trader isBuy reduceOnly increased size price notional h => applyFill_again h⟩
  intro w₀ w w' ls f msg hw₀ hcharted hupdate
  have hmarked := marked hw₀ hcharted
  obtain ⟨w₁, twap, htwap⟩ := updateFunding_consumes hupdate
  refine ⟨hmarked.standing_eq, w₁, twap, htwap, ?_⟩
  cases hmarked with
  | untraded hprices hc _ => exact Or.inl ⟨hprices, untraded_consumes hc htwap⟩
  | traded hc hprice hwindow htracks =>
    have hs := reachable_soundClocks ⟨w₀, ls, hw₀, hcharted.run⟩ m
    obtain ⟨hle, hempty, hopen⟩ := consumeTwap_tracks hs hc htracks htwap
    refine Or.inr ⟨?_, _, hwindow, hle, hempty, fun hlt => ⟨hopen hlt, fun lo hi hbounds => ?_⟩⟩
    · intro hnone
      have hzero : standing m w = 0 := by
        rw [hprice, lastTraded, hnone]
        rfl
      exact absurd hc (not_lt.2 (le_of_eq hzero))
    · rw [hopen hlt]
      exact Average.floor_between hlt hbounds

theorem mark_twap_poked : ∃ (f : Nat → Int) (w' : World),
    Charted (machine Sample.deployment Sample.env) World.timestamp (standing 1) Sample.genesis
      (trace Sample.deployment Sample.env Sample.genesis Sample.poked) (Sample.outcome Sample.poked) f ∧
    Engine.updateFunding (Sample.outcome Sample.poked) (Sample.call Sample.admin (.updateFunding 1)).msg 1 = .ok w' ∧
    ∃ w₁ twap start, Engine.consumeTwap (Sample.outcome Sample.poked) 1 = .ok (w₁, twap) ∧
      (start < (Sample.outcome Sample.poked).timestamp →
        twap = (∑ x ∈ Finset.Ico start (Sample.outcome Sample.poked).timestamp, f x) /
          (((Sample.outcome Sample.poked).timestamp - start : Nat) : Int)) := by
  obtain ⟨f, hf⟩ := Charted.exists_of_run World.timestamp (standing 1)
    (Sample.outcome_run Sample.poked (by decide +kernel))
  obtain ⟨w', hw'⟩ := ok_of_isOk (x := Engine.updateFunding (Sample.outcome Sample.poked)
    (Sample.call Sample.admin (.updateFunding 1)).msg 1) (by decide +kernel)
  obtain ⟨hstanding, w₁, twap, htwap, htraded⟩ :=
    (mark_twap Sample.deployment Sample.env 1).1 _ _ w' _ f _ Sample.genesis_ok hf hw'
  refine ⟨f, w', hf, hw', w₁, twap, ?_⟩
  rcases htraded with ⟨hnone, -⟩ | ⟨-, start, -, -, -, hopen⟩
  · have hpos : 0 < standing 1 (Sample.outcome Sample.poked) := by decide +kernel
    rw [hstanding, lastTraded, hnone] at hpos
    exact absurd hpos (lt_irrefl 0)
  · exact ⟨start, htwap, fun hlt => (hopen hlt).1⟩

end Kryon
